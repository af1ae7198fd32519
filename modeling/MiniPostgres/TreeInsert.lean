import MiniPostgres.TreeSearch
/-!
# TreeInsert — insertion and both splits

`insert` puts an entry into the leaf its descent ends in; a leaf that is full is split, and so is every full node on the way up.
On that way the pages hold a tree with two subtrees in one hole (`Parted`), and the induction is on the context of the hole.
-/
namespace MiniPostgres

open BTreePages Executors SearchTree

namespace TreeFile

variable {s u : TreeFile} {id : Nat}

/-! ## An entry among the others -/

theorem insertIdx_length {α : Type} (x : α) (ys : List α) : ∀ xs : List α, (xs ++ ys).insertIdx xs.length x = xs ++ x :: ys
  | []      => rfl
  | y :: xs => by
    rw [List.cons_append, List.length_cons, List.insertIdx_succ_cons, insertIdx_length x ys xs, List.cons_append]

theorem key_le_of_greater {a b : LeafEntry} (h : entryGreater a b = true) : b.key ≤ a.key := by
  rcases of_decide_eq_true h with hlt | ⟨heq, -⟩
  · exact le_of_lt (show b.key < a.key from hlt)
  · exact le_of_eq heq.symm

theorem key_le_of_not_greater {a b : LeafEntry} (h : entryGreater a b = false) : a.key ≤ b.key := by
  refine not_lt.1 fun hlt => ?_
  exact of_decide_eq_false h (Or.inl hlt)

/-- `entries.insert(position, entry)` -/
def withEntry (es : List LeafEntry) (entry : LeafEntry) : List LeafEntry := es.insertIdx (bisectLeft es entry) entry

theorem withEntry_eq (es : List LeafEntry) (entry : LeafEntry) : withEntry es entry =
    (es.takeWhile fun item => entryGreater entry item) ++ entry :: es.dropWhile fun item => entryGreater entry item := by
  unfold withEntry bisectLeft
  have h := insertIdx_length entry (es.dropWhile fun item => entryGreater entry item)
    (es.takeWhile fun item => entryGreater entry item)
  rwa [List.takeWhile_append_dropWhile] at h

theorem withEntry_perm (es : List LeafEntry) (entry : LeafEntry) : (withEntry es entry).Perm (entry :: es) := by
  rw [withEntry_eq]
  refine List.perm_middle.trans ?_
  rw [List.takeWhile_append_dropWhile]

/-- **The leaf stays sorted, and in its range.** -/
theorem withEntry_bounded {es : List LeafEntry} (entry : LeafEntry) {lo hi : Option Key}
    (h : (Subtree.leaf id es : Subtree Key LeafEntry 0).Bounded LeafEntry.key lo hi) (hlo : Meets lo (some entry.key))
    (hhi : Meets (some entry.key) hi) :
    (Subtree.leaf id (withEntry es entry) : Subtree Key LeafEntry 0).Bounded LeafEntry.key lo hi := by
  have hsorted : es.Pairwise fun a b => a.key ≤ b.key := h.1
  refine ⟨?_, ?_⟩
  · show (withEntry es entry).Pairwise fun a b => a.key ≤ b.key
    have hsplit := hsorted
    rw [← List.takeWhile_append_dropWhile (p := fun item => entryGreater entry item) (l := es), List.pairwise_append] at hsplit
    rw [withEntry_eq, List.pairwise_append, List.pairwise_cons]
    have hbelow : ∀ a ∈ es.takeWhile (fun item => entryGreater entry item), a.key ≤ entry.key := by
      intro a ha
      have hg := List.mem_takeWhile_imp ha
      exact key_le_of_greater hg
    have habove : ∀ a ∈ es.dropWhile (fun item => entryGreater entry item), entry.key ≤ a.key := by
      have hnot := List.head?_dropWhile_not (fun item => entryGreater entry item) es
      intro a ha
      cases hd : es.dropWhile (fun item => entryGreater entry item) with
      | nil       =>
        rw [hd] at ha
        exact absurd ha List.not_mem_nil
      | cons d ds =>
        rw [hd] at ha hnot hsplit
        have hfirst : entry.key ≤ d.key := key_le_of_not_greater hnot
        rcases List.mem_cons.1 ha with rfl | ha
        · exact hfirst
        · exact le_trans hfirst ((List.pairwise_cons.1 hsplit.2.1).1 a ha)
    refine ⟨hsplit.1, ⟨habove, hsplit.2.1⟩, ?_⟩
    intro a ha b hb
    rcases List.mem_cons.1 hb with rfl | hb
    · exact hbelow a ha
    · exact le_trans (hbelow a ha) (habove b hb)
  · intro e he
    have he : e ∈ withEntry es entry := he
    rcases List.mem_cons.1 ((withEntry_perm es entry).mem_iff.1 he) with rfl | he
    · exact ⟨hlo, hhi⟩
    · exact h.2 e he

/-! ## To the root -/

theorem Standing.toRoot : ∀ {n : Nat} {ctx : Context Key LeafEntry n} {t : Subtree Key LeafEntry n} {lo hi : Option Key},
    Standing s ctx t → ctx.Bounded LeafEntry.key lo hi → Meets lo hi → t.Bounded LeafEntry.key lo hi →
    ∃ (m : Nat) (t' : Subtree Key LeafEntry m), Standing s .root t' ∧ t'.Bounded LeafEntry.key none none ∧
      t'.leaves = ctx.leavesBefore ++ t.leaves ++ ctx.leavesAfter
  | n, .root, t, lo, hi, h, hc, _, ht                     => by
    obtain ⟨rfl, rfl⟩ := hc
    exact ⟨n, t, h, ht, (List.append_nil t.leaves).symm⟩
  | _, .frame i ks₁ cs₁ ks₂ cs₂ up, t, lo, hi, h, hc, hm, ht => by
    rcases Context.bounded_fill hc hm ht with ⟨lo₀, hi₀, hup, hm₀, ht₀⟩
    rcases h.up.toRoot hup hm₀ ht₀ with ⟨m, t', hst, hb, hl⟩
    exact ⟨m, t', hst, hb, by rw [hl, Context.leaves_fill]⟩

/-! ## Numbers in use -/

theorem exists_of_sum {n : Nat} {x : Nat} : ∀ {cs : List (Subtree Key LeafEntry n)}, 1 ≤ (cs.map (Subtree.count x)).sum →
    ∃ c ∈ cs, 1 ≤ c.count x
  | [], h      => absurd h (Nat.not_succ_le_zero 0)
  | c :: cs, h => by
    rw [List.map_cons, List.sum_cons] at h
    by_cases hc : 1 ≤ c.count x
    · exact ⟨c, List.mem_cons_self, hc⟩
    · have hrest : 1 ≤ (cs.map (Subtree.count x)).sum := by omega
      obtain ⟨d, hd, hx⟩ := exists_of_sum hrest
      exact ⟨d, List.mem_cons_of_mem c hd, hx⟩

/-- **Every number of the tree is that of a page with content.** -/
theorem Holds.used {x : Nat} :
    ∀ {n : Nat} {t : Subtree Key LeafEntry n}, Holds s t → (∀ l ∈ t.leaves, ∃ p, contentAt s l.id = some (.leaf p)) →
    1 ≤ t.count x → ∃ c, contentAt s x = some c
  | 0, ⟨i, es⟩, _, hl, hx         => by
    have hx : 1 ≤ if i = x then 1 else 0 := hx
    split at hx
    · rename_i hi
      obtain ⟨p, hp⟩ := hl ⟨i, es⟩ (List.mem_singleton_self _)
      exact ⟨_, hi ▸ hp⟩
    · exact absurd hx (Nat.not_succ_le_zero 0)
  | n + 1, ⟨i, ks, cs⟩, h, hl, hx => by
    have hx : 1 ≤ (if i = x then 1 else 0) + (cs.map (Subtree.count x)).sum := hx
    by_cases hi : i = x
    · exact ⟨_, hi ▸ h.1⟩
    · rw [if_neg hi, Nat.zero_add] at hx
      obtain ⟨c, hc, hcx⟩ := exists_of_sum hx
      exact (h.2 c hc).used (fun l hm => hl l (List.mem_flatMap_of_mem hc hm)) hcx

theorem HoldsAround.used {x : Nat} : ∀ {n : Nat} {ctx : Context Key LeafEntry n} {hole : Nat}, HoldsAround s ctx hole →
    (∀ l ∈ ctx.leavesBefore ++ ctx.leavesAfter, ∃ p, contentAt s l.id = some (.leaf p)) → 1 ≤ ctx.count x →
      ∃ c, contentAt s x = some c
  | _, .root, _, _, _, hx                          => absurd hx (Nat.not_succ_le_zero 0)
  | _, .frame i ks₁ cs₁ ks₂ cs₂ up, hole, h, hl, hx => by
    obtain ⟨-, hc, h₁, h₂, hup⟩ := h
    have hx : 1 ≤ (if i = x then 1 else 0) + (cs₁.map (Subtree.count x)).sum + (cs₂.map (Subtree.count x)).sum + up.count x := hx
    have hl : ∀ l ∈ (up.leavesBefore ++ cs₁.flatMap Subtree.leaves) ++ (cs₂.flatMap Subtree.leaves ++ up.leavesAfter),
      ∃ p, contentAt s l.id = some (.leaf p) := hl
    by_cases hi : i = x
    · exact ⟨_, hi ▸ hc⟩
    rw [if_neg hi, Nat.zero_add] at hx
    by_cases hx₁ : 1 ≤ (cs₁.map (Subtree.count x)).sum
    · obtain ⟨c, hmem, hcx⟩ := exists_of_sum hx₁
      exact (h₁ c hmem).used (fun l hm => hl l (List.mem_append_left _
        (List.mem_append_right _ (List.mem_flatMap_of_mem hmem hm)))) hcx
    by_cases hx₂ : 1 ≤ (cs₂.map (Subtree.count x)).sum
    · obtain ⟨c, hmem, hcx⟩ := exists_of_sum hx₂
      exact (h₂ c hmem).used (fun l hm => hl l (List.mem_append_right _
        (List.mem_append_left _ (List.mem_flatMap_of_mem hmem hm)))) hcx
    refine hup.used (fun l hm => hl l ?_) (by omega)
    rcases List.mem_append.1 hm with hm | hm
    · exact List.mem_append_left _ (List.mem_append_left _ hm)
    · exact List.mem_append_right _ (List.mem_append_right _ hm)

/-! ## Two subtrees in one hole -/

/-- **The tree in the pages, with two subtrees for one.** -/
structure Parted (s : TreeFile) {n : Nat} (ctx : Context Key LeafEntry n) (l r : Subtree Key LeafEntry n) : Prop where
  around   : HoldsAround s ctx l.id
  left     : Holds s l
  right    : Holds s r
  strung   : Strung s none (ctx.leavesBefore ++ (l.leaves ++ r.leaves) ++ ctx.leavesAfter) none
  once     : ∀ x, ctx.count x + (l.count x + r.count x) ≤ 1
  metapage : metaAt s = some ⟨s.rootPageId, s.height⟩

theorem contentAt_none (h : s.pages.length ≤ id) : contentAt s id = none := by
  unfold contentAt
  rw [List.getElem?_eq_none h]
  rfl

theorem pages_pos {m : MetaPage} (h : metaAt s = some m) : 0 < s.pages.length := by
  by_contra hlt
  unfold metaAt at h
  rw [List.getElem?_eq_none (not_lt.1 hlt)] at h
  cases h

theorem Parted.unused {n : Nat} {ctx : Context Key LeafEntry n} {l r : Subtree Key LeafEntry n} (h : Parted s ctx l r) :
    ctx.count s.pages.length = 0 ∧ l.count s.pages.length = 0 ∧ r.count s.pages.length = 0 := by
  have hnone : ¬∃ c, contentAt s s.pages.length = some c := by
    rintro ⟨c, hc⟩
    rw [contentAt_none (le_refl _)] at hc
    cases hc
  have hl := h.strung.content
  refine ⟨?_, ?_, ?_⟩
  · by_contra hx
    refine hnone (h.around.used (fun l hm => hl l ?_) (Nat.one_le_iff_ne_zero.2 hx))
    rcases List.mem_append.1 hm with hm | hm
    · exact List.mem_append_left _ (List.mem_append_left _ hm)
    · exact List.mem_append_right _ hm
  · by_contra hx
    exact hnone (h.left.used (fun l hm => hl l (List.mem_append_left _ (List.mem_append_right _ (List.mem_append_left _ hm))))
      (Nat.one_le_iff_ne_zero.2 hx))
  · by_contra hx
    exact hnone (h.right.used (fun l hm => hl l (List.mem_append_left _ (List.mem_append_right _ (List.mem_append_right _ hm))))
      (Nat.one_le_iff_ne_zero.2 hx))

/-! ## Up the path -/

variable {n : Nat} {ctx : Context Key LeafEntry n} {l r : Subtree Key LeafEntry n} {k : Key} {lo hi : Option Key}

/-- **The root is split**: a new root above the two. -/
theorem newRoot_ok {l r : Subtree Key LeafEntry n} (h : Parted s .root l r)
    (hrun : propagateSplit [] l.id k r.id s = (.ok (), u)) :
    ∃ root, Standing u .root (.node root [k] [l, r]) := by
  unfold propagateSplit at hrun
  obtain ⟨body, s₁, hb, hrun₁⟩ := Program.bind_eq_ok.1 hrun
  obtain ⟨henc, rfl⟩ := returned_eq_ok.1 hb
  obtain ⟨root, s₂, ha, hrun₂⟩ := Program.bind_eq_ok.1 hrun₁
  obtain ⟨rfl, hw⟩ := allocatePage_eq_ok (contentOf_internal henc) ha
  obtain ⟨_, s₃, hm, hrun₃⟩ := Program.bind_eq_ok.1 hrun₂
  cases hm
  obtain ⟨hsame, -, -, hroot, hheight, hmeta⟩ := writeMeta_eq_ok hrun₃
  have hpos := pages_pos h.metapage
  have hat : ∀ x, x ≠ 0 → contentAt u x = if x = s₁.pages.length then some (.internal ⟨[k], [l.id, r.id]⟩) else contentAt s₁ x :=
    fun x hx => (hsame x hx).trans (hw.content x)
  have hkeep : ∀ {x : Nat} {c : Content}, contentAt s₁ x = some c → contentAt u x = some c := by
    intro x c hc
    rw [hat x (ne_zero_of_contentAt h.metapage hc), if_neg (ne_of_lt (contentAt_lt hc)), hc]
  obtain ⟨-, hul, hur⟩ := h.unused
  refine ⟨s₁.pages.length, ?_, ?_, ?_, ?_, ?_⟩
  · refine ⟨hroot, hheight.trans ?_⟩
    show s₂.height + 1 = n + 1 + 1
    rw [hw.height, h.around.2]
  · refine holds_node.2 ⟨?_, ?_⟩
    · rw [hat _ (by omega), if_pos rfl]
      rfl
    · intro c hc
      rcases List.mem_cons.1 hc with rfl | hc
      · exact h.left.keeps fun x _ p hp => hkeep hp
      · rw [List.mem_singleton.1 hc]
        exact h.right.keeps fun x _ p hp => hkeep hp
  · show Strung u none ([] ++ [l, r].flatMap Subtree.leaves ++ []) none
    have hs : Strung s₁ none ([] ++ (l.leaves ++ r.leaves) ++ []) none := h.strung
    rw [List.flatMap_cons, List.flatMap_singleton]
    exact hs.keeps fun m _ p hp => hkeep hp
  · intro x
    have hx := h.once x
    show 0 + ((if s₁.pages.length = x then 1 else 0) + ([l, r].map (Subtree.count x)).sum) ≤ 1
    have hzero : Context.count x (.root : Context Key LeafEntry n) = 0 := rfl
    rw [List.map_cons, List.map_cons, List.map_nil, List.sum_cons, List.sum_cons, List.sum_nil]
    split
    · rename_i heq
      rw [← heq, hul, hur]
      omega
    · omega
  · rw [hmeta, hroot, hheight]

/-- **A node takes the second subtree.** -/
theorem Parted.joined {i : Nat} {ks₁ ks₂ : List Key} {cs₁ cs₂ : List (Subtree Key LeafEntry n)}
    {up : Context Key LeafEntry (n + 1)}
    (h : Parted s (.frame i ks₁ cs₁ ks₂ cs₂ up) l r)
    (hw : Written s u i (.internal ⟨ks₁ ++ k :: ks₂, cs₁.map Subtree.id ++ l.id :: r.id :: cs₂.map Subtree.id⟩)) :
    Standing u up (.node i (ks₁ ++ k :: ks₂) (cs₁ ++ l :: r :: cs₂)) := by
  obtain ⟨hlen, hc, h₁, h₂, hup⟩ := h.around
  have hcount : ∀ x, Context.count x (.frame i ks₁ cs₁ ks₂ cs₂ up) =
    (if i = x then 1 else 0) + (cs₁.map (Subtree.count x)).sum + (cs₂.map (Subtree.count x)).sum + up.count x := fun _ => rfl
  have honce := h.once i
  rw [hcount, if_pos rfl] at honce
  have hkeep : ∀ {x : Nat}, x ≠ i → KeepsInternal s u x := fun hx p hp => hw.keeps hx hp
  have hother : ∀ {c : Subtree Key LeafEntry n}, Holds s c → c.count i = 0 → Holds u c := by
    intro c hcs hz
    refine hcs.keeps fun x hx => hkeep ?_
    rintro rfl
    omega
  have hid : i ≠ 0 := ne_zero_of_contentAt h.metapage hc
  refine ⟨?_, holds_node.2 ⟨?_, ?_⟩, ?_, ?_, ?_⟩
  · refine hup.keeps (fun x hx => hkeep ?_) hw.root hw.height
    rintro rfl
    omega
  · rw [hw.content, if_pos rfl, List.map_append, List.map_cons, List.map_cons]
  · intro c hmem
    rcases List.mem_append.1 hmem with hmem | hmem
    · have := count_le_sum hmem i
      exact hother (h₁ c hmem) (by omega)
    · rcases List.mem_cons.1 hmem with rfl | hmem
      · exact hother h.left (by omega)
      · rcases List.mem_cons.1 hmem with rfl | hmem
        · exact hother h.right (by omega)
        · have := count_le_sum hmem i
          exact hother (h₂ c hmem) (by omega)
  · have hs := hw.strung (fun p hp => by rw [hc] at hp; cases hp) h.strung
    have hleaves : up.leavesBefore ++ (Subtree.node i (ks₁ ++ k :: ks₂) (cs₁ ++ l :: r :: cs₂)).leaves ++ up.leavesAfter =
        (Context.frame i ks₁ cs₁ ks₂ cs₂ up).leavesBefore ++ (l.leaves ++ r.leaves) ++
          (Context.frame i ks₁ cs₁ ks₂ cs₂ up).leavesAfter := by
      simp only [Context.leavesBefore, Context.leavesAfter, Subtree.leaves_node, List.flatMap_append,
        List.flatMap_cons, List.append_assoc]
    rw [hleaves]
    exact hs
  · intro x
    have hx := h.once x
    rw [hcount] at hx
    simp only [Subtree.count_node, List.map_append, List.map_cons, List.sum_append, List.sum_cons]
    omega
  · rw [hw.metapage hid _ h.metapage, hw.root, hw.height]

/-- **Two nodes for one**, the right one on a new page. -/
theorem Parted.split {i : Nat} {s₁ : TreeFile} {ks₁ ks₂ ka kb : List Key} {cs₁ cs₂ ca cb : List (Subtree Key LeafEntry n)}
    {c : Subtree Key LeafEntry n} {up : Context Key LeafEntry (n + 1)} (h : Parted s (.frame i ks₁ cs₁ ks₂ cs₂ up) l r)
    (hcut : cs₁ ++ l :: r :: cs₂ = ca ++ c :: cb) (hnew : Written s s₁ s.pages.length (.internal ⟨kb, cb.map Subtree.id⟩))
    (hold : Written s₁ u i (.internal ⟨ka, (ca ++ [c]).map Subtree.id⟩)) :
    Parted u up (.node i ka (ca ++ [c])) (.node s.pages.length kb cb) := by
  obtain ⟨-, hc, h₁, h₂, hup⟩ := h.around
  have hpos := pages_pos h.metapage
  have hi : i ≠ 0 := ne_zero_of_contentAt h.metapage hc
  have hlt : i < s.pages.length := contentAt_lt hc
  have hframe : ∀ x, Context.count x (.frame i ks₁ cs₁ ks₂ cs₂ up) =
    (if i = x then 1 else 0) + (cs₁.map (Subtree.count x)).sum + (cs₂.map (Subtree.count x)).sum + up.count x := fun _ => rfl
  -- the numbers of the children are those there were
  have hsum : ∀ x, (cs₁.map (Subtree.count x)).sum + (l.count x + (r.count x + (cs₂.map (Subtree.count x)).sum)) =
      (ca.map (Subtree.count x)).sum + (c.count x + (cb.map (Subtree.count x)).sum) := by
    intro x
    have := congrArg (fun cs => (cs.map (Subtree.count x)).sum) hcut
    simpa only [List.map_append, List.map_cons, List.sum_append, List.sum_cons] using this
  have honce := fun x => hframe x ▸ h.once x
  have hunused := h.unused
  rw [hframe, if_neg (ne_of_lt hlt)] at hunused
  have hkeep : ∀ {x : Nat} {d : Content}, x ≠ i → contentAt s x = some d → contentAt u x = some d :=
    fun hx hd => hold.keeps hx (hnew.keeps (ne_of_lt (contentAt_lt hd)) hd)
  have hheld : ∀ d ∈ ca ++ c :: cb, Holds s d := by
    intro d hd
    rw [← hcut] at hd
    rcases List.mem_append.1 hd with hd | hd
    · exact h₁ d hd
    · rcases List.mem_cons.1 hd with rfl | hd
      · exact h.left
      · rcases List.mem_cons.1 hd with rfl | hd
        · exact h.right
        · exact h₂ d hd
  have hchild : ∀ d ∈ ca ++ c :: cb, Holds u d := by
    intro d hd
    refine (hheld d hd).keeps fun x hx p hp => hkeep ?_ hp
    rintro rfl
    have hle := count_le_sum hd x
    have hall := hsum x
    have hone := honce x
    rw [if_pos rfl] at hone
    rw [List.map_append, List.map_cons, List.sum_append, List.sum_cons] at hle
    omega
  refine ⟨?_, holds_node.2 ⟨?_, ?_⟩, holds_node.2 ⟨?_, ?_⟩, ?_, ?_, ?_⟩
  · refine hup.keeps (fun x hx p hp => hkeep ?_ hp) (hold.root.trans hnew.root) (hold.height.trans hnew.height)
    rintro rfl
    have hone := honce x
    rw [if_pos rfl] at hone
    omega
  · rw [hold.content, if_pos rfl]
  · intro d hd
    refine hchild d ?_
    rcases List.mem_append.1 hd with hd | hd
    · exact List.mem_append_left _ hd
    · exact List.mem_append_right _ (List.mem_singleton.1 hd ▸ List.mem_cons_self)
  · rw [hold.content, if_neg (ne_of_gt hlt), hnew.content, if_pos rfl]
  · exact fun d hd => hchild d (List.mem_append_right _ (List.mem_cons_of_mem c hd))
  · have hs := h.strung.keeps (u := u) fun m _ p hp => hkeep (by
      rintro rfl
      rw [hc] at hp
      cases hp) hp
    have hleaves : up.leavesBefore ++ ((Subtree.node i ka (ca ++ [c])).leaves ++ (Subtree.node s.pages.length kb cb).leaves) ++
        up.leavesAfter = (Context.frame i ks₁ cs₁ ks₂ cs₂ up).leavesBefore ++ (l.leaves ++ r.leaves) ++
          (Context.frame i ks₁ cs₁ ks₂ cs₂ up).leavesAfter := by
      have hflat := congrArg (fun cs => up.leavesBefore ++ (cs.flatMap Subtree.leaves ++ up.leavesAfter)) hcut.symm
      simpa only [Context.leavesBefore, Context.leavesAfter, Subtree.leaves_node, List.flatMap_append,
        List.flatMap_cons, List.flatMap_nil,
        List.append_assoc, List.append_nil] using hflat
    rw [hleaves]
    exact hs
  · intro x
    have hall := hsum x
    have hone := honce x
    simp only [Subtree.count_node, List.map_append, List.map_cons, List.map_nil, List.sum_append, List.sum_cons, List.sum_nil]
    by_cases hx : s.pages.length = x
    · subst hx
      rw [if_neg (ne_of_lt hlt), if_pos rfl]
      omega
    · rw [if_neg hx]
      omega
  · rw [hold.metapage hi _ (hnew.metapage (by omega) _ h.metapage), hold.root, hold.height, hnew.root, hnew.height]

/-- **A node in two**: the subtrees left and right of the middle stand in one hole above. -/
theorem splitInternal_ok {i newId : Nat} {ks₁ ks₂ keys : List Key} {cs₁ cs₂ children : List (Subtree Key LeafEntry n)}
    {up : Context Key LeafEntry (n + 1)} {promoted : Key} (h : Parted s (.frame i ks₁ cs₁ ks₂ cs₂ up) l r)
    (hchildren : children = cs₁ ++ l :: r :: cs₂) (hlen : children.length = keys.length + 1)
    (hrun : splitInternal i ⟨keys, children.map Subtree.id⟩ s = (.ok (promoted, newId), u)) :
    ∃ ka kb ca cb c, keys = ka ++ promoted :: kb ∧ children = ca ++ c :: cb ∧ ca.length = ka.length ∧
      Parted u up (.node i ka (ca ++ [c])) (.node newId kb cb) := by
  unfold splitInternal at hrun
  dsimp only at hrun
  obtain ⟨_, s₁, hitem, hrun₁⟩ := Program.bind_eq_ok.1 hrun
  obtain ⟨hget, rfl⟩ := item_eq_ok.1 hitem
  obtain ⟨_, s₂, hleft, hrun₂⟩ := Program.bind_eq_ok.1 hrun₁
  obtain ⟨-, rfl⟩ := returned_eq_ok.1 hleft
  obtain ⟨body, s₃, hright, hrun₃⟩ := Program.bind_eq_ok.1 hrun₂
  obtain ⟨henc, rfl⟩ := returned_eq_ok.1 hright
  obtain ⟨_, s₄, ha, hrun₄⟩ := Program.bind_eq_ok.1 hrun₃
  obtain ⟨_, s₅, hwrite, hrun₅⟩ := Program.bind_eq_ok.1 hrun₄
  obtain ⟨hp, rfl⟩ := pure_eq_ok.1 hrun₅
  cases hp
  have hmid := (List.getElem?_eq_some_iff.1 hget).1
  have hlt : keys.length / 2 < children.length := by omega
  have hcut : children = children.take (keys.length / 2) ++ children[keys.length / 2] :: children.drop (keys.length / 2 + 1) := by
    rw [← List.drop_eq_getElem_cons hlt, List.take_append_drop]
  have hcutKeys : keys = keys.take (keys.length / 2) ++ promoted :: keys.drop (keys.length / 2 + 1) := by
    rw [← (List.getElem?_eq_some_iff.1 hget).2, ← List.drop_eq_getElem_cons hmid, List.take_append_drop]
  have htake : (children.map Subtree.id).take (keys.length / 2 + 1) =
      (children.take (keys.length / 2) ++ [children[keys.length / 2]]).map Subtree.id := by
    rw [← List.map_take, List.take_succ_eq_append_getElem hlt]
  rw [htake] at hwrite
  rw [← List.map_drop] at henc
  obtain ⟨rfl, hnew⟩ := allocatePage_eq_ok (contentOf_internal henc) ha
  obtain ⟨hold, -, -⟩ := writeInternal_eq_ok hwrite
  have hsame : (children.take (keys.length / 2)).length = (keys.take (keys.length / 2)).length := by
    rw [List.length_take, List.length_take]
    omega
  refine ⟨keys.take (keys.length / 2), keys.drop (keys.length / 2 + 1), children.take (keys.length / 2),
    children.drop (keys.length / 2 + 1), children[keys.length / 2], hcutKeys, hcut, hsame, ?_⟩
  exact h.split (hchildren.symm.trans hcut) hnew hold

/-- **`_propagate_split`**: the tree has the two subtrees where the one was. -/
theorem propagateSplit_ok :
    ∀ {n : Nat} {ctx : Context Key LeafEntry n} {l r : Subtree Key LeafEntry n} {k : Key} {lo hi : Option Key}
    {s u : TreeFile}, Parted s ctx l r → ctx.Bounded LeafEntry.key lo hi → Meets lo (some k) → Meets (some k) hi →
    l.Bounded LeafEntry.key lo (some k) → r.Bounded LeafEntry.key (some k) hi →
      propagateSplit ctx.path l.id k r.id s = (.ok (), u) →
    ∃ (m : Nat) (t' : Subtree Key LeafEntry m), Standing u .root t' ∧ t'.Bounded LeafEntry.key none none ∧
      t'.leaves = ctx.leavesBefore ++ (l.leaves ++ r.leaves) ++ ctx.leavesAfter
  | n, .root, l, r, k, lo, hi, s, u, h, hc, hlo, hhi, hl, hr, hrun                     => by
    obtain ⟨rfl, rfl⟩ := hc
    obtain ⟨root, hst⟩ := newRoot_ok h hrun
    refine ⟨n + 1, _, hst, Subtree.bounded_node.2 ⟨hlo, hl, hhi, hr⟩, ?_⟩
    rw [Subtree.leaves_node, List.flatMap_cons, List.flatMap_singleton]
    exact (List.append_nil _).symm
  | n, .frame i ks₁ cs₁ ks₂ cs₂ up, l, r, k, lo, hi, s, u, h, hc, hlo, hhi, hl, hr, hrun => by
    obtain ⟨hlen, hpage, -, -, -⟩ := h.around
    rcases hc.two hlo hhi hl hr with ⟨lo₀, hi₀, hup, hm₀, hb⟩
    have hleaves : up.leavesBefore ++ (Subtree.node i (ks₁ ++ k :: ks₂) (cs₁ ++ l :: r :: cs₂)).leaves ++ up.leavesAfter =
        (Context.frame i ks₁ cs₁ ks₂ cs₂ up).leavesBefore ++ (l.leaves ++ r.leaves) ++
          (Context.frame i ks₁ cs₁ ks₂ cs₂ up).leavesAfter := by
      simp only [Context.leavesBefore, Context.leavesAfter, Subtree.leaves_node, List.flatMap_append,
        List.flatMap_cons, List.append_assoc]
    have hrun : propagateSplit ((i, cs₁.length) :: up.path) l.id k r.id s = (.ok (), u) := hrun
    unfold propagateSplit at hrun
    obtain ⟨parent, s₁, hread, hrun₁⟩ := Program.bind_eq_ok.1 hrun
    obtain ⟨hparent, rfl⟩ := readInternal_eq_ok.1 hread
    rw [hpage] at hparent
    cases hparent
    obtain ⟨child, s₂, hitem, hrun₂⟩ := Program.bind_eq_ok.1 hrun₁
    obtain ⟨-, rfl⟩ := item_eq_ok.1 hitem
    split at hrun₂
    · exact absurd hrun₂ raised_ne_ok
    have hkeys : (ks₁ ++ ks₂).insertIdx cs₁.length k = ks₁ ++ k :: ks₂ := by
      rw [hlen]
      exact insertIdx_length k ks₂ ks₁
    have hchildren : (cs₁.map Subtree.id ++ l.id :: cs₂.map Subtree.id).insertIdx (cs₁.length + 1) r.id =
        (cs₁ ++ l :: r :: cs₂).map Subtree.id := by
      have hat := insertIdx_length r.id (cs₂.map Subtree.id) (cs₁.map Subtree.id ++ [l.id])
      rw [List.length_append, List.length_map, List.length_singleton, List.append_assoc, List.append_assoc] at hat
      rw [List.map_append, List.map_cons, List.map_cons]
      exact hat
    dsimp only at hrun₂
    rw [hkeys, hchildren] at hrun₂
    cases henc : encodeInternal ⟨ks₁ ++ k :: ks₂, (cs₁ ++ l :: r :: cs₂).map Subtree.id⟩ with
    | ok body =>
      rw [henc] at hrun₂
      obtain ⟨hlt, rfl⟩ := writePage_eq_ok.1 hrun₂
      have hw : Written s₂ _ i (.internal ⟨ks₁ ++ k :: ks₂, (cs₁ ++ l :: r :: cs₂).map Subtree.id⟩) :=
        written_set hlt (contentOf_internal henc)
      rw [List.map_append, List.map_cons, List.map_cons] at hw
      rcases (h.joined hw).toRoot hup hm₀ hb with ⟨m, t', hst, hbt, hlt'⟩
      exact ⟨m, t', hst, hbt, hlt'.trans hleaves⟩
    | error e =>
      rw [henc] at hrun₂
      dsimp only at hrun₂
      split at hrun₂
      · obtain ⟨⟨promoted, newId⟩, s₃, hsplit, hrun₃⟩ := Program.bind_eq_ok.1 hrun₂
        rcases splitInternal_ok h rfl (Subtree.bounded_node.1 hb).length hsplit with ⟨ka, kb, ca, cb, c, hka, hca, hsame, hparted⟩
        rw [hka, hca] at hb hleaves
        rcases hb.split hsame with ⟨hbl, hbr, hml, hmr⟩
        rcases propagateSplit_ok hparted hup hml hmr hbl hbr hrun₃ with ⟨m, t', hst, hbt, hlt'⟩
        refine ⟨m, t', hst, hbt, hlt'.trans (Eq.trans ?_ hleaves)⟩
        simp only [Subtree.leaves_node, List.flatMap_append, List.flatMap_cons, List.flatMap_nil,
          List.append_assoc, List.append_nil]
      · cases hrun₂

/-! ## The leaf -/

variable {ctx₀ : Context Key LeafEntry 0} {es es' : List LeafEntry}

theorem Standing.leafPage (h : Standing s ctx₀ (.leaf id es)) : Strung s none ctx₀.leavesBefore (some id) ∧
    contentAt s id = some (.leaf ⟨es, lastId none ctx₀.leavesBefore, firstId ctx₀.leavesAfter none⟩) ∧
    Strung s (some id) ctx₀.leavesAfter none ∧ (∀ m ∈ ctx₀.leavesBefore, m.id ≠ id ∧ ∀ m' ∈ ctx₀.leavesAfter, m.id ≠ m'.id) ∧
    (∀ m ∈ ctx₀.leavesAfter, m.id ≠ id) ∧ (ctx₀.leavesAfter.map Leaf.id).Nodup := by
  have hs : Strung s none (ctx₀.leavesBefore ++ [⟨id, es⟩] ++ ctx₀.leavesAfter) none := h.strung
  have hn : ((ctx₀.leavesBefore ++ [(⟨id, es⟩ : Leaf LeafEntry)] ++ ctx₀.leavesAfter).map Leaf.id).Nodup := h.nodup
  rw [List.append_assoc, List.singleton_append] at hs hn
  obtain ⟨hbefore, hleaf, hafter⟩ := strung_append.1 hs
  rw [List.map_append, List.map_cons, List.nodup_append, List.nodup_cons] at hn
  obtain ⟨-, ⟨hid, hnodup⟩, hne⟩ := hn
  refine ⟨hbefore, hleaf, hafter, fun m hm => ⟨?_, fun m' hm' => ?_⟩, fun m hm heq => ?_, hnodup⟩
  · exact hne m.id (List.mem_map_of_mem hm) id List.mem_cons_self
  · exact hne m.id (List.mem_map_of_mem hm) m'.id (List.mem_cons_of_mem _ (List.mem_map_of_mem hm'))
  · exact hid (List.mem_map.2 ⟨m, hm, heq⟩)

/-- **A leaf written again**, with its siblings. -/
theorem Standing.rewritten (h : Standing s ctx₀ (.leaf id es))
    (hw : Written s u id (.leaf ⟨es', lastId none ctx₀.leavesBefore, firstId ctx₀.leavesAfter none⟩)) :
    Standing u ctx₀ (.leaf id es') := by
  obtain ⟨hbefore, hleaf, hafter, hneb, hnea, -⟩ := h.leafPage
  have hid : id ≠ 0 := ne_zero_of_contentAt h.metapage hleaf
  have hkeeps := hw.keepsInternal fun p hp => by
    rw [hleaf] at hp
    cases hp
  refine ⟨h.around.keeps (fun x _ => hkeeps x) hw.root hw.height, trivial, ?_, h.once, ?_⟩
  · show Strung u none (ctx₀.leavesBefore ++ [⟨id, es'⟩] ++ ctx₀.leavesAfter) none
    rw [List.append_assoc, List.singleton_append]
    refine strung_append.2 ⟨hbefore.keeps fun m hm p hp => hw.keeps (hneb m hm).1 hp, ?_,
      hafter.keeps fun m hm p hp => hw.keeps (hnea m hm) hp⟩
    rw [hw.content, if_pos rfl]
  · rw [hw.metapage hid _ h.metapage, hw.root, hw.height]

/-- **Two leaves for one**, the right one on a new page. -/
theorem Standing.parted {es₁ es₂ : List LeafEntry} (h : Standing s ctx₀ (.leaf id es)) (hroot : u.rootPageId = s.rootPageId)
    (hheight : u.height = s.height) (hmeta : ∀ m, metaAt s = some m → metaAt u = some m) (hinternal : ∀ x, KeepsInternal s u x)
    (hleft : contentAt u id = some (.leaf ⟨es₁, lastId none ctx₀.leavesBefore, some s.pages.length⟩))
    (hright : contentAt u s.pages.length = some (.leaf ⟨es₂, some id, firstId ctx₀.leavesAfter none⟩))
    (hbefore : Strung u none ctx₀.leavesBefore (some id)) (hafter : Strung u (some s.pages.length) ctx₀.leavesAfter none) :
    Parted u ctx₀ (.leaf id es₁) (.leaf s.pages.length es₂) := by
  have hunused : ctx₀.count s.pages.length = 0 := by
    by_contra hx
    obtain ⟨c, hc⟩ := h.around.used (fun l hm => h.strung.content l (by
      rcases List.mem_append.1 hm with hm | hm
      · exact List.mem_append_left _ (List.mem_append_left _ hm)
      · exact List.mem_append_right _ hm)) (Nat.one_le_iff_ne_zero.2 hx)
    rw [contentAt_none (le_refl _)] at hc
    cases hc
  have hlt : id < s.pages.length := contentAt_lt h.leafPage.2.1
  refine ⟨h.around.keeps (fun x _ => hinternal x) hroot hheight, trivial, trivial, ?_, fun x => ?_, ?_⟩
  · show Strung u none (ctx₀.leavesBefore ++ ([⟨id, es₁⟩] ++ [⟨s.pages.length, es₂⟩]) ++ ctx₀.leavesAfter) none
    rw [List.append_assoc, List.append_assoc, List.singleton_append, List.singleton_append]
    exact strung_append.2 ⟨hbefore, hleft, hright, hafter⟩
  · have hone := h.once x
    rw [Subtree.count_leaf] at hone
    rw [Subtree.count_leaf, Subtree.count_leaf]
    by_cases hx : s.pages.length = x
    · subst hx
      rw [if_neg (ne_of_lt hlt), if_pos rfl, hunused]
    · rw [if_neg hx]
      exact hone
  · rw [hmeta _ h.metapage, hroot, hheight]

theorem leafSplitPosition_bounds {entries : List LeafEntry} {position : Nat} (h : leafSplitPosition entries = .ok position) :
    1 ≤ position ∧ position < entries.length := by
  unfold leafSplitPosition at h
  split at h
  · exact absurd h raise_ne_ok
  split at h
  · exact absurd h raise_ne_ok
  · rename_i c cs hcs
    cases h
    have hmem := foldl_leastPair_mem cs c
    rw [← hcs] at hmem
    obtain ⟨position, hin, heq⟩ := List.mem_map.1 hmem
    have hrange := List.mem_range'_1.1 (List.mem_filter.1 hin).1
    rw [← heq]
    dsimp only
    omega

/-- **A leaf in two**: a new page behind it, and the neighbour pointed to that. -/
theorem splitLeaf_ok {newId : Nat} {separator : Key} (h : Standing s ctx₀ (.leaf id es))
    (hrun : splitLeaf id ⟨es', lastId none ctx₀.leavesBefore, firstId ctx₀.leavesAfter none⟩ s = (.ok (separator, newId), u)) :
    ∃ es₁ e es₂, es' = es₁ ++ e :: es₂ ∧ es₁ ≠ [] ∧ e.key = separator ∧ Parted u ctx₀ (.leaf id es₁)
    (.leaf newId (e :: es₂)) := by
  obtain ⟨hbefore, hleaf, hafter, hneb, hnea, hnodup⟩ := h.leafPage
  have hid : id ≠ 0 := ne_zero_of_contentAt h.metapage hleaf
  have hlt := contentAt_lt hleaf
  unfold splitLeaf at hrun
  dsimp only at hrun
  obtain ⟨position, s₁, hposition, hrun₁⟩ := Program.bind_eq_ok.1 hrun
  obtain ⟨hsplit, rfl⟩ := returned_eq_ok.1 hposition
  obtain ⟨rightId, s₂, hpage, hrun₂⟩ := Program.bind_eq_ok.1 hrun₁
  obtain ⟨rfl, rfl⟩ := newPage_eq_ok hpage
  obtain ⟨_, s₃, hw₁, hrun₃⟩ := Program.bind_eq_ok.1 hrun₂
  obtain ⟨_, s₄, hw₂, hrun₄⟩ := Program.bind_eq_ok.1 hrun₃
  have hnew := (grown_newPage (s := s₁) .btreeLeaf).written (writeLeaf_eq_ok hw₁).1
  have hold := (writeLeaf_eq_ok hw₂).1
  have hpos := leafSplitPosition_bounds hsplit
  have hfinish : ∀ {v : TreeFile}, (do
      let first ← item (es'.drop position) 0
      pure (first.key, s₁.pages.length) : Action (Key × Nat)) v = (.ok (separator, newId), u) →
      Parted v ctx₀ (.leaf id (es'.take position)) (.leaf s₁.pages.length (es'.drop position)) →
      ∃ es₁ e es₂, es' = es₁ ++ e :: es₂ ∧ es₁ ≠ [] ∧ e.key = separator ∧
        Parted u ctx₀ (.leaf id es₁) (.leaf newId (e :: es₂)) := by
    intro v hv hparted
    obtain ⟨first, v', hitem, hlast⟩ := Program.bind_eq_ok.1 hv
    obtain ⟨hget, rfl⟩ := item_eq_ok.1 hitem
    obtain ⟨hp, rfl⟩ := pure_eq_ok.1 hlast
    cases hp
    cases hd : es'.drop position with
    | nil        =>
      rw [hd] at hget
      cases hget
    | cons e es₂ =>
      rw [hd] at hget hparted
      cases hget
      refine ⟨es'.take position, first, es₂, ?_, ?_, rfl, hparted⟩
      · rw [← hd, List.take_append_drop]
      · intro hnil
        have := congrArg List.length hnil
        rw [List.length_take, List.length_nil] at this
        omega
  have hkeep : ∀ {x : Nat} {d : Content}, x ≠ id → contentAt s₁ x = some d → contentAt s₄ x = some d :=
    fun hx hd => hold.keeps hx (hnew.keeps (ne_of_lt (contentAt_lt hd)) hd)
  have hinternal : ∀ x, KeepsInternal s₁ s₄ x := by
    intro x p hp
    refine hkeep ?_ hp
    rintro rfl
    rw [hleaf] at hp
    cases hp
  have hleft : contentAt s₄ id = some (.leaf ⟨es'.take position, lastId none ctx₀.leavesBefore, some s₁.pages.length⟩) := by
    rw [hold.content, if_pos rfl]
  have hright : contentAt s₄ s₁.pages.length =
      some (.leaf ⟨es'.drop position, some id, firstId ctx₀.leavesAfter none⟩) := by
    rw [hold.content, if_neg (ne_of_gt hlt), hnew.content, if_pos rfl]
  have hmeta : ∀ m, metaAt s₁ = some m → metaAt s₄ = some m :=
    fun m hm => hold.metapage hid m (hnew.metapage (by omega) m hm)
  have hleftOf : Strung s₄ none ctx₀.leavesBefore (some id) := hbefore.keeps fun m hm p hp => hkeep (hneb m hm).1 hp
  cases hctx : ctx₀.leavesAfter with
  | nil       =>
    rw [hctx] at hrun₄
    refine hfinish (v := s₄) hrun₄ (h.parted (hold.root.trans hnew.root)
      (hold.height.trans hnew.height) hmeta hinternal hleft hright
      hleftOf ?_)
    rw [hctx]
    trivial
  | cons b bs =>
    rw [hctx] at hrun₄ hafter hnea hnodup
    obtain ⟨oldRight, s₅, hread, hrun₅⟩ := Program.bind_eq_ok.1 (show (do
        let oldRight ← readLeaf b.id
        writeLeaf b.id { oldRight with leftSibling := some s₁.pages.length }
        let first ← item (es'.drop position) 0
        pure (first.key, s₁.pages.length) : Action (Key × Nat)) s₄ = _ from hrun₄)
    obtain ⟨hat, rfl⟩ := readLeaf_eq_ok.1 hread
    rw [hkeep (hnea b List.mem_cons_self) hafter.1] at hat
    cases hat
    obtain ⟨_, s₆, hw₃, hrun₆⟩ := Program.bind_eq_ok.1 hrun₅
    have hsibling := (writeLeaf_eq_ok hw₃).1
    have hb₄ := hkeep (hnea b List.mem_cons_self) hafter.1
    have hkeep' : ∀ {x : Nat} {d : Content}, x ≠ b.id → contentAt s₅ x = some d → contentAt s₆ x = some d := hsibling.keeps
    have hb : b.id < s₁.pages.length := contentAt_lt hafter.1
    have hidb : b.id ≠ 0 := ne_zero_of_contentAt h.metapage hafter.1
    rw [List.map_cons, List.nodup_cons] at hnodup
    refine hfinish (v := s₆) hrun₆ (h.parted (hsibling.root.trans (hold.root.trans hnew.root))
      (hsibling.height.trans (hold.height.trans hnew.height)) (fun m hm => hsibling.metapage hidb m (hmeta m hm)) ?_
      (hkeep' (hnea b List.mem_cons_self).symm hleft) (hkeep' (ne_of_gt hb) hright) ?_ ?_)
    · intro x p hp
      refine hkeep' ?_ (hinternal x p hp)
      rintro rfl
      rw [hafter.1] at hp
      cases hp
    · exact hleftOf.keeps fun m hm p hp => hkeep' ((hneb m hm).2 b (hctx ▸ List.mem_cons_self)) hp
    · rw [hctx]
      refine ⟨?_, ?_⟩
      · rw [hsibling.content, if_pos rfl]
      · refine hafter.2.keeps fun m hm p hp => hkeep' (fun heq => hnodup.1 (List.mem_map.2 ⟨m, hm, heq⟩))
          (hkeep (hnea m (List.mem_cons_of_mem b hm)) hp)

/-! ## `insert` -/

/-- **An entry more, in one leaf or in the two made of it.** -/
theorem Valid.withEntry {m : Nat} {t : Subtree Key LeafEntry n} {t' : Subtree Key LeafEntry m} {tid : TID}
    {before after : List (Leaf LeafEntry)} {leaf : Leaf LeafEntry} (ls : List (Leaf LeafEntry)) (h : Valid s t)
    (hsplit : t.leaves = before ++ leaf :: after)
    (hnot : tid ∉ (pairs t.leaves).search k) (hst : Standing u .root t') (hb : t'.Bounded LeafEntry.key none none)
    (hleaves : t'.leaves = before ++ ls ++ after) (hentries : ls.flatMap Leaf.entries = withEntry leaf.entries ⟨k, tid⟩)
    (hfilled : ∀ l ∈ ls, l.entries ≠ []) : Valid u t' ∧ (pairs t'.leaves).Perm ((pairs t.leaves).insert k tid) := by
  have hperm : (pairs t'.leaves).Perm ((k, tid) :: pairs t.leaves) := by
    unfold pairs
    rw [hleaves, hsplit, List.append_assoc, List.flatMap_append, List.flatMap_append, hentries,
      List.flatMap_append, List.flatMap_cons]
    have hone := ((withEntry_perm leaf.entries ⟨k, tid⟩).append_right (after.flatMap Leaf.entries)).append_left
      (before.flatMap Leaf.entries)
    exact (hone.trans List.perm_middle).map fun e => (e.key, e.tid)
  have hfresh : (k, tid) ∉ pairs t.leaves := fun hmem => hnot (BTree.mem_search.2 hmem)
  refine ⟨⟨hst, hb, ?_, hperm.nodup_iff.2 (List.nodup_cons.2 ⟨hfresh, h.nodup⟩)⟩, ?_⟩
  · intro l hl
    have hold := h.filled
    rw [hleaves, List.append_assoc] at hl
    rw [hsplit] at hold
    cases before with
    | nil       =>
      rw [List.nil_append] at hl hold
      rcases List.mem_append.1 (List.mem_of_mem_tail hl) with hl | hl
      · exact hfilled l hl
      · exact hold l hl
    | cons b bs =>
      rcases List.mem_append.1 hl with hl | hl
      · exact hold l (List.mem_append_left _ hl)
      · rcases List.mem_append.1 hl with hl | hl
        · exact hfilled l hl
        · exact hold l (List.mem_append_right _ (List.mem_cons_of_mem leaf hl))
  · unfold BTree.insert
    rw [if_neg hnot]
    exact hperm.trans (List.perm_append_singleton _ _).symm

theorem withEntry_ne_nil (es : List LeafEntry) (entry : LeafEntry) : withEntry es entry ≠ [] := by
  intro hnil
  have := (withEntry_perm es entry).length_eq
  rw [hnil] at this
  cases this

/-- **`insert` is the insertion into the multimap**, whichever pages are split. -/
theorem insert_ok {t : Subtree Key LeafEntry n} {tid : TID} (h : Valid s t) (hrun : insert k tid s = (.ok (), u)) :
    ∃ (m : Nat) (t' : Subtree Key LeafEntry m), Valid u t' ∧ (pairs t'.leaves).Perm ((pairs t.leaves).insert k tid) := by
  unfold insert at hrun
  obtain ⟨found, s₁, hsearch, hrun₁⟩ := Program.bind_eq_ok.1 hrun
  rw [search_ok h] at hsearch
  cases hsearch
  split at hrun₁
  · rename_i hin
    obtain ⟨-, rfl⟩ := pure_eq_ok.1 hrun₁
    refine ⟨n, t, h, ?_⟩
    unfold BTree.insert
    rw [if_pos hin]
  rename_i hnot
  rcases findLeaf_ok (k := k) h.standing h.bounded with ⟨leaf, c, lo, hi, hfind, hst, hc, hbounded, hlo, hhi, hleaves⟩
  obtain ⟨_, s₂, hf, hrun₂⟩ := Program.bind_eq_ok.1 hrun₁
  rw [hfind] at hf
  cases hf
  obtain ⟨page, s₃, hread, hrun₃⟩ := Program.bind_eq_ok.1 hrun₂
  obtain ⟨hpage, rfl⟩ := readLeaf_eq_ok.1 hread
  rw [hst.leafPage.2.1] at hpage
  cases hpage
  have hnew := withEntry_bounded ⟨k, tid⟩ hbounded hlo hhi.meets
  have hroom : Meets lo hi := hlo.trans hhi.meets
  dsimp only at hrun₃
  rw [show leaf.entries.insertIdx (bisectLeft leaf.entries ⟨k, tid⟩) ⟨k, tid⟩ = withEntry leaf.entries ⟨k, tid⟩ from rfl] at hrun₃
  cases henc : encodeLeaf ⟨withEntry leaf.entries ⟨k, tid⟩, lastId none c.leavesBefore, firstId c.leavesAfter none⟩ with
  | ok body =>
    rw [henc] at hrun₃
    obtain ⟨hlt, rfl⟩ := writePage_eq_ok.1 hrun₃
    rcases (hst.rewritten (written_set hlt (contentOf_leaf henc))).toRoot hc hroom hnew with ⟨m, t', hst', hb', hl'⟩
    refine ⟨m, t', h.withEntry [⟨leaf.id, withEntry leaf.entries ⟨k, tid⟩⟩] hleaves.symm hnot hst' hb' hl'
      (List.flatMap_singleton _ _) fun l hl => ?_⟩
    rw [List.mem_singleton.1 hl]
    exact withEntry_ne_nil _ _
  | error e =>
    rw [henc] at hrun₃
    dsimp only at hrun₃
    split at hrun₃
    · obtain ⟨⟨separator, newId⟩, s₄, hsplit, hrun₄⟩ := Program.bind_eq_ok.1 hrun₃
      rcases splitLeaf_ok hst hsplit with ⟨es₁, e, es₂, hes, hne, rfl, hparted⟩
      rw [hes] at hnew
      rcases hnew.splitLeaf with ⟨hbl, hbr, hml, hmr⟩
      rcases propagateSplit_ok hparted hc hml hmr hbl hbr hrun₄ with ⟨m, t', hst', hb', hl'⟩
      refine ⟨m, t', h.withEntry [⟨leaf.id, es₁⟩, ⟨newId, e :: es₂⟩] hleaves.symm hnot hst' hb' hl' ?_ ?_⟩
      · rw [hes, List.flatMap_cons, List.flatMap_singleton]
      · intro l hl
        rcases List.mem_cons.1 hl with rfl | hl
        · exact hne
        · rw [List.mem_singleton.1 hl]
          exact List.cons_ne_nil _ _
    · cases hrun₃

end TreeFile
end MiniPostgres
