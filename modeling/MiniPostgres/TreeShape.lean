import MiniPostgres.TreeFile
import MiniPostgres.Lib.SearchTrees
/-!
# TreeShape — the tree that stands in the pages

`Holds` reads a search tree off the internal pages, and `Strung` the list of its leaves off the leaf pages, with the sibling
pointers.  What a page write changes of either is one lemma; a context of `SearchTrees` goes with a path of `_find_leaf`.
-/
namespace MiniPostgres

open BTreePages Executors SearchTree

namespace TreeFile

/-- Byte strings in their order. -/
scoped instance : LinearOrder Key where
  le a b := a ≤ b
  lt a b := a < b
  le_refl := List.le_refl
  le_trans _ _ _ := List.le_trans
  lt_iff_le_not_ge a b := ⟨fun h => ⟨List.le_of_lt h, List.not_le.2 h⟩, fun h => List.not_le.1 h.2⟩
  le_antisymm _ _ := List.le_antisymm
  le_total := List.le_total
  toDecidableLE := inferInstance
  toDecidableLT := inferInstance
  toDecidableEq := inferInstance
  compare a b := compareOfLessAndEq a b

/-! ## Pages read -/

inductive Content
  | leaf (page : LeafPage)
  | internal (page : InternalPage)

def contentOf : PageKind × ByteString → Option Content
  | (.btreeLeaf, body)     => (decodeLeaf body).toOption.map .leaf
  | (.btreeInternal, body) => (decodeInternal body).toOption.map .internal
  | _                      => none

def contentAt (s : TreeFile) (id : Nat) : Option Content := s.pages[id]?.bind contentOf

def metaAt (s : TreeFile) : Option MetaPage :=
  match s.pages[0]? with
  | some (PageKind.btreeMeta, body) => (decodeMeta body).toOption
  | _                               => none

variable {s s' u : TreeFile} {id : Nat} {α β : Type}

theorem contentAt_lt {c : Content} (h : contentAt s id = some c) : id < s.pages.length := by
  by_contra hlt
  unfold contentAt at h
  rw [List.getElem?_eq_none (not_lt.1 hlt)] at h
  cases h

theorem contentAt_meta {m : MetaPage} (h : metaAt s = some m) : contentAt s 0 = none := by
  unfold metaAt at h
  unfold contentAt
  split at h
  · rename_i body hp
    rw [hp]
    rfl
  · cases h

theorem ne_zero_of_contentAt {m : MetaPage} {c : Content} (hm : metaAt s = some m) (h : contentAt s id = some c) : id ≠ 0 := by
  rintro rfl
  rw [contentAt_meta hm] at h
  cases h

theorem toOption_eq_some {r : Result α} {a : α} : r.toOption = some a ↔ r = .ok a := by
  cases r with
  | error e => exact ⟨fun h => absurd h (Option.some_ne_none a).symm, fun h => by cases h⟩
  | ok b    =>
    constructor
    · intro h
      exact congrArg Except.ok (Option.some_inj.1 h)
    · intro h
      cases h
      rfl

theorem contentAt_leaf {page : LeafPage} : contentAt s id = some (.leaf page) ↔
    ∃ body, s.pages[id]? = some (.btreeLeaf, body) ∧ decodeLeaf body = .ok page := by
  unfold contentAt
  constructor
  · intro h
    obtain ⟨⟨kind, body⟩, hp, h⟩ := Option.bind_eq_some_iff.1 h
    cases kind with
    | heap          => cases h
    | btreeMeta     => cases h
    | btreeInternal =>
      obtain ⟨_, -, h⟩ := Option.map_eq_some_iff.1 h
      cases h
    | btreeLeaf     =>
      obtain ⟨_, hd, h⟩ := Option.map_eq_some_iff.1 h
      cases h
      exact ⟨body, hp, toOption_eq_some.1 hd⟩
  · rintro ⟨body, hp, hd⟩
    rw [hp]
    show (decodeLeaf body).toOption.map Content.leaf = _
    rw [hd]
    rfl

theorem contentAt_internal {page : InternalPage} : contentAt s id = some (.internal page) ↔
    ∃ body, s.pages[id]? = some (.btreeInternal, body) ∧ decodeInternal body = .ok page := by
  unfold contentAt
  constructor
  · intro h
    obtain ⟨⟨kind, body⟩, hp, h⟩ := Option.bind_eq_some_iff.1 h
    cases kind with
    | heap          => cases h
    | btreeMeta     => cases h
    | btreeLeaf     =>
      obtain ⟨_, -, h⟩ := Option.map_eq_some_iff.1 h
      cases h
    | btreeInternal =>
      obtain ⟨_, hd, h⟩ := Option.map_eq_some_iff.1 h
      cases h
      exact ⟨body, hp, toOption_eq_some.1 hd⟩
  · rintro ⟨body, hp, hd⟩
    rw [hp]
    show (decodeInternal body).toOption.map Content.internal = _
    rw [hd]
    rfl

theorem returned_eq_ok {r : Result α} {a : α} : (returned r : Action α) s = (.ok a, u) ↔ r = .ok a ∧ u = s := by
  cases r with
  | error e =>
    constructor
    · intro h
      cases h
    · intro h
      cases h.1
  | ok b    =>
    constructor
    · intro h
      cases h
      exact ⟨rfl, rfl⟩
    · rintro ⟨h, rfl⟩
      cases h
      rfl

theorem read_eq_ok {f : TreeFile → α} {a : α} : (Program.read f : Action α) s = (.ok a, u) ↔ a = f s ∧ u = s := by
  constructor
  · intro h
    cases h
    exact ⟨rfl, rfl⟩
  · rintro ⟨rfl, rfl⟩
    rfl

theorem pure_eq_ok {a b : α} : (pure a : Action α) s = (.ok b, u) ↔ b = a ∧ u = s := by
  constructor
  · intro h
    cases h
    exact ⟨rfl, rfl⟩
  · rintro ⟨rfl, rfl⟩
    rfl

theorem raised_ne_ok {kind : ErrorClass} {message : String} {a : α} : (raised kind message : Action α) s ≠ (.ok a, u) := by
  intro h
  cases h

theorem fetchPage_eq_ok {content : PageKind × ByteString} :
    fetchPage id s = (.ok content, u) ↔ s.pages[id]? = some content ∧ u = s := by
  unfold fetchPage
  rw [Program.bind_eq_ok]
  constructor
  · rintro ⟨found, t, hr, h⟩
    obtain ⟨rfl, rfl⟩ := read_eq_ok.1 hr
    cases hp : t.pages[id]? with
    | none   =>
      rw [hp] at h
      exact absurd h raised_ne_ok
    | some c =>
      rw [hp] at h
      obtain ⟨rfl, rfl⟩ := pure_eq_ok.1 h
      exact ⟨rfl, rfl⟩
  · rintro ⟨hp, rfl⟩
    refine ⟨_, u, rfl, ?_⟩
    dsimp only
    rw [hp]
    rfl

theorem readPage_eq_ok {kind : PageKind} {body : ByteString} :
    readPage id kind s = (.ok body, u) ↔ s.pages[id]? = some (kind, body) ∧ u = s := by
  unfold readPage
  rw [Program.bind_eq_ok]
  constructor
  · rintro ⟨⟨found, b⟩, t, hf, h⟩
    obtain ⟨hp, rfl⟩ := fetchPage_eq_ok.1 hf
    dsimp only at h
    split at h
    · exact absurd h raised_ne_ok
    · rename_i hk
      obtain ⟨rfl, rfl⟩ := pure_eq_ok.1 h
      rw [not_not] at hk
      exact ⟨hk ▸ hp, rfl⟩
  · rintro ⟨hp, rfl⟩
    refine ⟨_, u, fetchPage_eq_ok.2 ⟨hp, rfl⟩, ?_⟩
    dsimp only
    rw [if_neg (not_not.2 rfl)]
    rfl

theorem readLeaf_eq_ok {page : LeafPage} : readLeaf id s = (.ok page, u) ↔ contentAt s id = some (.leaf page) ∧ u = s := by
  unfold readLeaf
  rw [Program.bind_eq_ok, contentAt_leaf]
  constructor
  · rintro ⟨body, t, hr, h⟩
    obtain ⟨hp, rfl⟩ := readPage_eq_ok.1 hr
    obtain ⟨hd, rfl⟩ := returned_eq_ok.1 h
    exact ⟨⟨body, hp, hd⟩, rfl⟩
  · rintro ⟨⟨body, hp, hd⟩, rfl⟩
    exact ⟨body, u, readPage_eq_ok.2 ⟨hp, rfl⟩, returned_eq_ok.2 ⟨hd, rfl⟩⟩

theorem readInternal_eq_ok {page : InternalPage} :
    readInternal id s = (.ok page, u) ↔ contentAt s id = some (.internal page) ∧ u = s := by
  unfold readInternal
  rw [Program.bind_eq_ok, contentAt_internal]
  constructor
  · rintro ⟨body, t, hr, h⟩
    obtain ⟨hp, rfl⟩ := readPage_eq_ok.1 hr
    obtain ⟨hd, rfl⟩ := returned_eq_ok.1 h
    exact ⟨⟨body, hp, hd⟩, rfl⟩
  · rintro ⟨⟨body, hp, hd⟩, rfl⟩
    exact ⟨body, u, readPage_eq_ok.2 ⟨hp, rfl⟩, returned_eq_ok.2 ⟨hd, rfl⟩⟩

theorem item_eq_ok {items : List α} {i : Nat} {a : α} :
    (item items i : Action α) s = (.ok a, u) ↔ items[i]? = some a ∧ u = s := by
  unfold item
  cases hi : items[i]? with
  | none   =>
    constructor
    · intro h
      exact absurd h raised_ne_ok
    · intro h
      cases h.1
  | some b =>
    rw [pure_eq_ok, Option.some_inj, eq_comm]

/-! ## Pages written -/

/-- **One page has a new content.** -/
structure Written (s u : TreeFile) (id : Nat) (c : Content) : Prop where
  content  : ∀ x, contentAt u x = if x = id then some c else contentAt s x
  length   : s.pages.length ≤ u.pages.length
  root     : u.rootPageId = s.rootPageId
  height   : u.height = s.height
  metapage : id ≠ 0 → ∀ m, metaAt s = some m → metaAt u = some m

/-- A page without content was added. -/
structure Grown (s u : TreeFile) : Prop where
  content  : ∀ x, contentAt u x = contentAt s x
  length   : u.pages.length = s.pages.length + 1
  root     : u.rootPageId = s.rootPageId
  height   : u.height = s.height
  metapage : ∀ m, metaAt s = some m → metaAt u = some m

theorem Grown.written {c : Content} (h : Grown s s') (hw : Written s' u id c) : Written s u id c := by
  refine ⟨fun x => ?_, ?_, hw.root.trans h.root, hw.height.trans h.height, fun hid m hm => hw.metapage hid m (h.metapage m hm)⟩
  · rw [hw.content, h.content]
  · have := h.length
    have := hw.length
    omega

theorem writePage_eq_ok {kind : PageKind} {body : ByteString} :
    writePage id kind body s = (.ok (), u) ↔ id < s.pages.length ∧ u = { s with pages := s.pages.set id (kind, body) } := by
  unfold writePage
  rw [Program.bind_eq_ok]
  constructor
  · rintro ⟨found, t, hf, h⟩
    obtain ⟨hp, rfl⟩ := fetchPage_eq_ok.1 hf
    cases h
    exact ⟨(List.getElem?_eq_some_iff.1 hp).1, rfl⟩
  · rintro ⟨hlt, rfl⟩
    exact ⟨_, s, fetchPage_eq_ok.2 ⟨List.getElem?_eq_getElem hlt, rfl⟩, rfl⟩

theorem written_set {kind : PageKind} {body : ByteString} {c : Content} (hlt : id < s.pages.length)
    (hc : contentOf (kind, body) = some c) :
    Written s { s with pages := s.pages.set id (kind, body) } id c := by
  refine ⟨fun x => ?_, le_of_eq List.length_set.symm, rfl, rfl, fun hid m hm => ?_⟩
  · unfold contentAt
    by_cases hx : x = id
    · rw [hx, if_pos rfl, List.getElem?_set_self hlt]
      exact hc
    · rw [if_neg hx, List.getElem?_set_ne (Ne.symm hx)]
  · unfold metaAt at hm ⊢
    rwa [List.getElem?_set_ne hid]

theorem contentOf_leaf {page : LeafPage} {body : ByteString} (h : encodeLeaf page = .ok body) :
    contentOf (.btreeLeaf, body) = some (.leaf page) := by
  show (decodeLeaf body).toOption.map Content.leaf = _
  rw [decodeLeaf_encode h]
  rfl

theorem contentOf_internal {page : InternalPage} {body : ByteString} (h : encodeInternal page = .ok body) :
    contentOf (.btreeInternal, body) = some (.internal page) := by
  show (decodeInternal body).toOption.map Content.internal = _
  rw [decodeInternal_encode h]
  rfl

theorem writeLeaf_eq_ok {page : LeafPage} (h : writeLeaf id page s = (.ok (), u)) :
    Written s u id (.leaf page) ∧ id < s.pages.length ∧ ∃ body, encodeLeaf page = .ok body := by
  obtain ⟨body, t, hr, hw⟩ := Program.bind_eq_ok.1 h
  obtain ⟨henc, rfl⟩ := returned_eq_ok.1 hr
  obtain ⟨hlt, rfl⟩ := writePage_eq_ok.1 hw
  exact ⟨written_set hlt (contentOf_leaf henc), hlt, body, henc⟩

theorem writeInternal_eq_ok {page : InternalPage} (h : writeInternal id page s = (.ok (), u)) :
    Written s u id (.internal page) ∧ id < s.pages.length ∧ ∃ body, encodeInternal page = .ok body := by
  obtain ⟨body, t, hr, hw⟩ := Program.bind_eq_ok.1 h
  obtain ⟨henc, rfl⟩ := returned_eq_ok.1 hr
  obtain ⟨hlt, rfl⟩ := writePage_eq_ok.1 hw
  exact ⟨written_set hlt (contentOf_internal henc), hlt, body, henc⟩

theorem newPage_eq_ok {kind : PageKind} (h : newPage kind s = (.ok id, u)) :
    id = s.pages.length ∧ u = { s with pages := s.pages ++ [(kind, [])] } := by
  obtain ⟨n, t, hr, hrest⟩ := Program.bind_eq_ok.1 h
  obtain ⟨rfl, rfl⟩ := read_eq_ok.1 hr
  split at hrest
  · exact absurd hrest raised_ne_ok
  · obtain ⟨_, v, hm, hp⟩ := Program.bind_eq_ok.1 hrest
    cases hm
    obtain ⟨rfl, rfl⟩ := pure_eq_ok.1 hp
    exact ⟨rfl, rfl⟩

theorem contentOf_blank (kind : PageKind) : contentOf (kind, []) = none := by cases kind <;> rfl

theorem grown_newPage (kind : PageKind) : Grown s { s with pages := s.pages ++ [(kind, [])] } := by
  refine ⟨fun x => ?_, List.length_append, rfl, rfl, fun m hm => ?_⟩
  · unfold contentAt
    rcases lt_trichotomy x s.pages.length with hx | rfl | hx
    · rw [List.getElem?_append_left hx]
    · rw [List.getElem?_concat_length, List.getElem?_eq_none (le_refl _)]
      exact contentOf_blank kind
    · rw [List.getElem?_eq_none (le_of_lt hx), List.getElem?_eq_none]
      rw [List.length_append]
      exact hx
  · unfold metaAt at hm ⊢
    cases hp : s.pages with
    | nil       =>
      rw [hp] at hm
      cases hm
    | cons p ps =>
      rw [hp] at hm
      exact hm

theorem allocatePage_eq_ok {kind : PageKind} {body : ByteString} {c : Content} (hc : contentOf (kind, body) = some c)
    (h : allocatePage kind body s = (.ok id, u)) : id = s.pages.length ∧ Written s u id c := by
  obtain ⟨page, t, hn, hrest⟩ := Program.bind_eq_ok.1 h
  obtain ⟨rfl, rfl⟩ := newPage_eq_ok hn
  obtain ⟨_, v, hw, hp⟩ := Program.bind_eq_ok.1 hrest
  obtain ⟨hlt, rfl⟩ := writePage_eq_ok.1 hw
  obtain ⟨rfl, rfl⟩ := pure_eq_ok.1 hp
  exact ⟨rfl, (grown_newPage kind).written (written_set hlt hc)⟩

theorem writeMeta_eq_ok (h : writeMeta s = (.ok (), u)) :
    (∀ x, x ≠ 0 → contentAt u x = contentAt s x) ∧ contentAt u 0 = none ∧ u.pages.length = s.pages.length ∧
      u.rootPageId = s.rootPageId ∧ u.height = s.height ∧ metaAt u = some ⟨s.rootPageId, s.height⟩ := by
  obtain ⟨page, t, hr, hrest⟩ := Program.bind_eq_ok.1 h
  obtain ⟨rfl, rfl⟩ := read_eq_ok.1 hr
  obtain ⟨body, v, hb, hw⟩ := Program.bind_eq_ok.1 hrest
  obtain ⟨henc, rfl⟩ := returned_eq_ok.1 hb
  obtain ⟨hlt, rfl⟩ := writePage_eq_ok.1 hw
  refine ⟨fun x hx => ?_, ?_, List.length_set, rfl, rfl, ?_⟩
  · unfold contentAt
    rw [List.getElem?_set_ne (Ne.symm hx)]
  · unfold contentAt
    rw [List.getElem?_set_self hlt]
    rfl
  · unfold metaAt
    rw [List.getElem?_set_self hlt]
    exact toOption_eq_some.2 (decodeMeta_encode henc)

/-! ## The tree in the pages -/

/-- The internal pages are the nodes of the tree. -/
def Holds (s : TreeFile) : {n : Nat} → Subtree Key LeafEntry n → Prop
  | 0, _     => True
  | _ + 1, t => contentAt s (Node.id t) = some (.internal ⟨Node.keys t, (Node.children t).map Subtree.id⟩) ∧
    ∀ c ∈ Node.children t, Holds s c

/-- **The internal pages on the way to a hole**, in which a page stands, and those left and right of it. -/
def HoldsAround (s : TreeFile) : {n : Nat} → Context Key LeafEntry n → Nat → Prop
  | n, .root, hole                         => s.rootPageId = hole ∧ s.height = n + 1
  | _, .frame id ks₁ cs₁ ks₂ cs₂ up, hole =>
    cs₁.length = ks₁.length ∧ contentAt s id = some (.internal ⟨ks₁ ++ ks₂, cs₁.map Subtree.id ++ hole :: cs₂.map Subtree.id⟩) ∧
      (∀ c ∈ cs₁, Holds s c) ∧ (∀ c ∈ cs₂, Holds s c) ∧ HoldsAround s up id

def firstId (leaves : List (Leaf LeafEntry)) (next : Option Nat) : Option Nat := (leaves.head?.map Leaf.id).or next

/-- **The leaf pages are a doubly linked list**, between a left and a right neighbour. -/
def Strung (s : TreeFile) : Option Nat → List (Leaf LeafEntry) → Option Nat → Prop
  | _, [], _              => True
  | left, l :: ls, right => contentAt s l.id = some (.leaf ⟨l.entries, left, firstId ls right⟩) ∧ Strung s (some l.id) ls right

theorem holds_node {n : Nat} {ks : List Key} {cs : List (Subtree Key LeafEntry n)} :
    Holds s (.node id ks cs) ↔ contentAt s id = some (.internal ⟨ks, cs.map Subtree.id⟩) ∧ ∀ c ∈ cs, Holds s c := Iff.rfl

/-- **Up and down one node**. -/
theorem holdsAround_fill {n : Nat} {ks₁ ks₂ : List Key} {cs₁ cs₂ : List (Subtree Key LeafEntry n)}
    {up : Context Key LeafEntry (n + 1)}
    {t : Subtree Key LeafEntry n} (hlen : cs₁.length = ks₁.length) :
    HoldsAround s (.frame id ks₁ cs₁ ks₂ cs₂ up) t.id ∧ Holds s t ↔
      HoldsAround s up id ∧ Holds s (Context.fill id ks₁ cs₁ ks₂ cs₂ t) := by
  unfold Context.fill
  rw [holds_node, List.map_append, List.map_cons]
  constructor
  · rintro ⟨⟨-, hc, h₁, h₂, hup⟩, ht⟩
    refine ⟨hup, hc, ?_⟩
    intro c hmem
    rcases List.mem_append.1 hmem with hmem | hmem
    · exact h₁ c hmem
    · rcases List.mem_cons.1 hmem with rfl | hmem
      · exact ht
      · exact h₂ c hmem
  · rintro ⟨hup, hc, h⟩
    exact ⟨⟨hlen, hc, fun c hmem => h c (List.mem_append_left _ hmem),
      fun c hmem => h c (List.mem_append_right _ (List.mem_cons_of_mem t hmem)), hup⟩,
        h t (List.mem_append_right _ List.mem_cons_self)⟩

/-! ## What a write leaves as it was -/

/-- A page that was internal has the content it had. -/
def KeepsInternal (s u : TreeFile) (x : Nat) : Prop :=
  ∀ p, contentAt s x = some (.internal p) → contentAt u x = some (.internal p)

theorem count_le_sum {n : Nat} {cs : List (Subtree Key LeafEntry n)} {c : Subtree Key LeafEntry n} (h : c ∈ cs) (x : Nat) :
    c.count x ≤ (cs.map (Subtree.count x)).sum := List.single_le_sum (fun _ _ => Nat.zero_le _) _ (List.mem_map_of_mem h)

theorem Holds.keeps :
    ∀ {n : Nat} {t : Subtree Key LeafEntry n}, Holds s t → (∀ x, 1 ≤ t.count x → KeepsInternal s u x) → Holds u t
  | 0, _, _, _              => trivial
  | n + 1, ⟨i, ks, cs⟩, h, hk => by
    refine ⟨hk i (Subtree.count_id (Subtree.node i ks cs)) _ h.1, ?_⟩
    intro c hc
    have hmem : c ∈ cs := hc
    refine (h.2 c hc).keeps fun x hx => hk x ?_
    show 1 ≤ (if i = x then 1 else 0) + (cs.map (Subtree.count x)).sum
    have := count_le_sum hmem x
    omega

theorem HoldsAround.keeps : ∀ {n : Nat} {ctx : Context Key LeafEntry n} {hole : Nat}, HoldsAround s ctx hole →
    (∀ x, 1 ≤ ctx.count x → KeepsInternal s u x) → u.rootPageId = s.rootPageId → u.height = s.height → HoldsAround u ctx hole
  | _, .root, _, h, _, hr, hh                          => ⟨hr.trans h.1, hh.trans h.2⟩
  | _, .frame id ks₁ cs₁ ks₂ cs₂ up, _, h, hk, hr, hh => by
    obtain ⟨hlen, hc, h₁, h₂, hup⟩ := h
    have hcount : ∀ x, (Context.frame id ks₁ cs₁ ks₂ cs₂ up).count x =
      (if id = x then 1 else 0) + (cs₁.map (Subtree.count x)).sum + (cs₂.map (Subtree.count x)).sum + up.count x := fun _ => rfl
    refine ⟨hlen, hk id ?_ _ hc, ?_, ?_, hup.keeps (fun x hx => hk x ?_) hr hh⟩
    · rw [hcount, if_pos rfl]
      omega
    · intro c hmem
      refine (h₁ c hmem).keeps fun x hx => hk x ?_
      have := count_le_sum hmem x
      rw [hcount]
      omega
    · intro c hmem
      refine (h₂ c hmem).keeps fun x hx => hk x ?_
      have := count_le_sum hmem x
      rw [hcount]
      omega
    · rw [hcount]
      omega

theorem Strung.keeps : ∀ {left right : Option Nat} {ls : List (Leaf LeafEntry)}, Strung s left ls right →
    (∀ l ∈ ls, ∀ p, contentAt s l.id = some (.leaf p) → contentAt u l.id = some (.leaf p)) → Strung u left ls right
  | _, _, [], _, _     => trivial
  | _, _, l :: _, h, hk => ⟨hk l List.mem_cons_self _ h.1, h.2.keeps fun m hm => hk m (List.mem_cons_of_mem l hm)⟩

theorem Written.keepsInternal {page : LeafPage} (h : Written s u id (.leaf page))
    (hid : ∀ p, contentAt s id ≠ some (.internal p)) (x : Nat) :
    KeepsInternal s u x := by
  intro p hp
  rw [h.content, if_neg]
  · exact hp
  · rintro rfl
    exact hid p hp

theorem Written.keeps {c d : Content} {x : Nat} (h : Written s u id c) (hx : x ≠ id) (hd : contentAt s x = some d) :
    contentAt u x = some d := by
  rw [h.content, if_neg hx, hd]

theorem Written.strung {page : InternalPage} {left right : Option Nat} {ls : List (Leaf LeafEntry)}
    (h : Written s u id (.internal page))
    (hid : ∀ p, contentAt s id ≠ some (.leaf p)) (hs : Strung s left ls right) : Strung u left ls right := by
  refine hs.keeps fun l _ p hp => h.keeps ?_ hp
  rintro rfl
  exact hid p hp

theorem firstId_append (ls ms : List (Leaf LeafEntry)) (next : Option Nat) :
    firstId (ls ++ ms) next = firstId ls (firstId ms next) := by
  cases ls with
  | nil       => rfl
  | cons l ls => rfl

def lastId (prev : Option Nat) (leaves : List (Leaf LeafEntry)) : Option Nat := (leaves.getLast?.map Leaf.id).or prev

theorem lastId_cons (prev : Option Nat) (l : Leaf LeafEntry) (ls : List (Leaf LeafEntry)) :
    lastId prev (l :: ls) = lastId (some l.id) ls := by
  cases ls with
  | nil       => rfl
  | cons m ms =>
    unfold lastId
    rw [List.getLast?_cons_cons]
    cases hl : (m :: ms).getLast? with
    | none   => exact absurd (List.getLast?_eq_none_iff.1 hl) (List.cons_ne_nil m ms)
    | some x => rfl

theorem lastId_concat (prev : Option Nat) (ls : List (Leaf LeafEntry)) (l : Leaf LeafEntry) :
    lastId prev (ls ++ [l]) = some l.id := by
  unfold lastId
  rw [List.getLast?_concat]
  rfl

/-- **A string of leaves in two.** -/
theorem strung_append : ∀ {left right : Option Nat} {ls ms : List (Leaf LeafEntry)},
    Strung s left (ls ++ ms) right ↔ Strung s left ls (firstId ms right) ∧ Strung s (lastId left ls) ms right
  | left, right, [], ms      => ⟨fun h => ⟨trivial, h⟩, fun h => h.2⟩
  | left, right, l :: ls, ms => by
    rw [List.cons_append, lastId_cons]
    show (_ ∧ Strung s (some l.id) (ls ++ ms) right) ↔ (_ ∧ Strung s (some l.id) ls (firstId ms right)) ∧ _
    rw [firstId_append, strung_append, and_assoc]

/-- **The tree stands in the pages**, cut at a subtree. -/
structure Standing (s : TreeFile) {n : Nat} (ctx : Context Key LeafEntry n) (t : Subtree Key LeafEntry n) : Prop where
  around   : HoldsAround s ctx t.id
  holds    : Holds s t
  strung   : Strung s none (ctx.leavesBefore ++ t.leaves ++ ctx.leavesAfter) none
  once     : ∀ x, ctx.count x + t.count x ≤ 1
  metapage : metaAt s = some ⟨s.rootPageId, s.height⟩

/-- **Up one node.** -/
theorem Standing.up {n : Nat} {ks₁ ks₂ : List Key} {cs₁ cs₂ : List (Subtree Key LeafEntry n)} {up : Context Key LeafEntry (n + 1)}
    {t : Subtree Key LeafEntry n} (h : Standing s (.frame id ks₁ cs₁ ks₂ cs₂ up) t) :
    Standing s up (Context.fill id ks₁ cs₁ ks₂ cs₂ t) := by
  have hfill := (holdsAround_fill h.around.1).1 ⟨h.around, h.holds⟩
  refine ⟨hfill.1, hfill.2, ?_, fun x => ?_, h.metapage⟩
  · rw [← Context.leaves_fill]
    exact h.strung
  · rw [← Context.count_fill]
    exact h.once x

/-- **Down one node.** -/
theorem Standing.down {n : Nat} {ks₁ ks₂ : List Key} {cs₁ cs₂ : List (Subtree Key LeafEntry n)}
    {up : Context Key LeafEntry (n + 1)}
    {t : Subtree Key LeafEntry n} (h : Standing s up (Context.fill id ks₁ cs₁ ks₂ cs₂ t)) (hlen : cs₁.length = ks₁.length) :
    Standing s (.frame id ks₁ cs₁ ks₂ cs₂ up) t := by
  have hfill := (holdsAround_fill hlen).2 ⟨h.around, h.holds⟩
  refine ⟨hfill.1, hfill.2, ?_, fun x => ?_, h.metapage⟩
  · rw [Context.leaves_fill]
    exact h.strung
  · rw [Context.count_fill]
    exact h.once x

/-! ## The way down -/

theorem take_takeWhile_length (p : α → Bool) : ∀ xs : List α, xs.take (xs.takeWhile p).length = xs.takeWhile p
  | []      => rfl
  | x :: xs => by
    rw [List.takeWhile_cons]
    split
    · rw [List.length_cons, List.take_succ_cons, take_takeWhile_length p xs]
    · rfl

theorem drop_takeWhile_length (p : α → Bool) : ∀ xs : List α, xs.drop (xs.takeWhile p).length = xs.dropWhile p
  | []      => rfl
  | x :: xs => by
    rw [List.takeWhile_cons, List.dropWhile_cons]
    split
    · rw [List.length_cons, List.drop_succ_cons, drop_takeWhile_length p xs]
    · rfl

/-- **The keys up to the place of a key, and behind it.** -/
theorem bisectRight_spec (ks : List Key) (k : Key) : bisectRight ks k ≤ ks.length ∧ (∀ l ∈ ks.take (bisectRight ks k), l ≤ k) ∧
    ∀ l ∈ (ks.drop (bisectRight ks k)).head?, k < l := by
  unfold bisectRight
  rw [take_takeWhile_length, drop_takeWhile_length]
  refine ⟨(List.takeWhile_sublist _).length_le, ?_, ?_⟩
  · intro l hl
    have hle := List.mem_takeWhile_imp hl
    exact of_decide_eq_true hle
  · intro l hl
    have hnot := List.head?_dropWhile_not (fun l : Key => decide (l ≤ k)) ks
    rw [Option.mem_def] at hl
    rw [hl] at hnot
    exact not_le.1 (of_decide_eq_false hnot)

/-- **The descent** ends in the leaf where the key belongs. -/
theorem descend_ok {k : Key} : ∀ {n : Nat} {ctx : Context Key LeafEntry n} {t : Subtree Key LeafEntry n} {lo hi : Option Key},
    Standing s ctx t → ctx.Bounded LeafEntry.key lo hi → t.Bounded LeafEntry.key lo hi → Meets lo (some k) → Before k hi →
    ∃ (leaf : Leaf LeafEntry) (c : Context Key LeafEntry 0) (a b : Option Key),
      descend k n t.id ctx.path s = (.ok (leaf.id, c.path), s) ∧
      Standing s c (.leaf leaf.id leaf.entries) ∧ c.Bounded LeafEntry.key a b ∧
      (Subtree.leaf leaf.id leaf.entries : Subtree Key LeafEntry 0).Bounded LeafEntry.key a b ∧ Meets a (some k) ∧ Before k b ∧
      c.leavesBefore ++ leaf :: c.leavesAfter = ctx.leavesBefore ++ t.leaves ++ ctx.leavesAfter
  | 0, ctx, ⟨i, es⟩, lo, hi, h, hc, ht, hlo, hhi         => by
    refine ⟨⟨i, es⟩, ctx, lo, hi, rfl, h, hc, ht, hlo, hhi, ?_⟩
    show _ = ctx.leavesBefore ++ [(⟨i, es⟩ : Leaf LeafEntry)] ++ ctx.leavesAfter
    rw [List.append_assoc]
    rfl
  | n + 1, ctx, ⟨i, ks, cs⟩, lo, hi, h, hc, ht, hlo, hhi => by
    have ht : (Subtree.node i ks cs).Bounded LeafEntry.key lo hi := ht
    have hlen := (Subtree.bounded_node.1 ht).length
    obtain ⟨hle, hbelow, habove⟩ := bisectRight_spec ks k
    have hlt : bisectRight ks k < cs.length := by omega
    have hks : ks.take (bisectRight ks k) ++ ks.drop (bisectRight ks k) = ks := List.take_append_drop _ ks
    have hcs : cs.take (bisectRight ks k) ++ cs[bisectRight ks k] :: cs.drop (bisectRight ks k + 1) = cs := by
      rw [← List.drop_eq_getElem_cons hlt, List.take_append_drop]
    have hsame : (cs.take (bisectRight ks k)).length = (ks.take (bisectRight ks k)).length := by
      rw [List.length_take, List.length_take]
      omega
    have hfill : Context.fill i (ks.take (bisectRight ks k)) (cs.take (bisectRight ks k)) (ks.drop (bisectRight ks k))
        (cs.drop (bisectRight ks k + 1)) cs[bisectRight ks k] = Subtree.node i ks cs := by
      unfold Context.fill
      rw [hks, hcs]
    have hstand : Standing s ctx (Subtree.node i ks cs) := h
    rw [← hfill] at hstand ht
    rcases hc.down hlo hhi hsame ht hbelow habove with ⟨a, b, hc', hlo', hhi', ht'⟩
    rcases descend_ok (hstand.down hsame) hc' ht' hlo' hhi' with ⟨leaf, c, a', b', hrun, hst, hcb, htb, hlo'', hhi'', hleaves⟩
    refine ⟨leaf, c, a', b', ?_, hst, hcb, htb, hlo'', hhi'', ?_⟩
    rotate_left
    · rw [hleaves, Context.leaves_fill, hfill]
      rfl
    have hread : readInternal i s = (.ok ⟨ks, cs.map Subtree.id⟩, s) := readInternal_eq_ok.2 ⟨h.holds.1, rfl⟩
    have hitem : (item (cs.map Subtree.id) (bisectRight ks k) : Action Nat) s = (.ok cs[bisectRight ks k].id, s) := by
      refine item_eq_ok.2 ⟨?_, rfl⟩
      rw [List.getElem?_map, List.getElem?_eq_getElem hlt]
      rfl
    have hpath : (i, bisectRight ks k) :: ctx.path = (Context.frame i (ks.take (bisectRight ks k)) (cs.take (bisectRight ks k))
        (ks.drop (bisectRight ks k)) (cs.drop (bisectRight ks k + 1)) ctx).path := by
      show _ = (i, (cs.take (bisectRight ks k)).length) :: ctx.path
      rw [List.length_take, min_eq_left (le_of_lt hlt)]
    show descend k (n + 1) i ctx.path s = _
    unfold descend
    rw [Program.bind_ok hread, Program.bind_ok hitem, hpath]
    exact hrun

/-- **`_find_leaf`** -/
theorem findLeaf_ok {k : Key} {n : Nat} {t : Subtree Key LeafEntry n} (h : Standing s .root t)
    (ht : t.Bounded LeafEntry.key none none) :
    ∃ (leaf : Leaf LeafEntry) (c : Context Key LeafEntry 0) (a b : Option Key), findLeaf k s = (.ok (leaf.id, c.path), s) ∧
      Standing s c (.leaf leaf.id leaf.entries) ∧ c.Bounded LeafEntry.key a b ∧
      (Subtree.leaf leaf.id leaf.entries : Subtree Key LeafEntry 0).Bounded LeafEntry.key a b ∧ Meets a (some k) ∧ Before k b ∧
      c.leavesBefore ++ leaf :: c.leavesAfter = t.leaves := by
  rcases descend_ok (k := k) h ⟨rfl, rfl⟩ ht (fun l hl => absurd hl (Option.not_mem_none _))
    (fun l hl => absurd hl (Option.not_mem_none _))
    with ⟨leaf, c, a, b, hrun, hst, hcb, htb, hlo, hhi, hleaves⟩
  refine ⟨leaf, c, a, b, ?_, hst, hcb, htb, hlo, hhi, ?_⟩
  rotate_left
  · rw [hleaves]
    show [] ++ t.leaves ++ [] = _
    rw [List.nil_append, List.append_nil]
  have hroot : s.rootPageId = t.id := h.around.1
  have hheight : s.height - 1 = n := by
    have := h.around.2
    omega
  show descend k (s.height - 1) s.rootPageId [] s = _
  rw [hroot, hheight]
  exact hrun

end TreeFile
end MiniPostgres
