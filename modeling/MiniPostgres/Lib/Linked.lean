import Mathlib
/-!
# Linked — walking links in a finite partial map

A store maps nodes to records (`look`) and a record may name a next node (`next`).  `Path` is the list of records met
from a start, `walk` is the loop that follows the links with a visited set, and a rank that grows along every link is
enough for the loop to return the path.
-/
namespace Linked

variable {α β : Type}

/-- The records met from a start: until there is no next node, or the next node has no record. -/
inductive Path (look : α → Option β) (next : β → Option α) : Option α → List (α × β) → Prop
  | nil : Path look next none []
  | stop (a : α) (h : look a = none) : Path look next (some a) []
  | cons (a : α) (b : β) (l : List (α × β)) (h : look a = some b) (t : Path look next (next b) l) :
      Path look next (some a) ((a, b) :: l)

/-- Following the links with a visited set; `none` when a node is met again (or the fuel ends first). -/
def walk [DecidableEq α] (look : α → Option β) (next : β → Option α) : Nat → List α → Option α → Option (List (α × β))
  | _, _, none => some []
  | 0, _, some _ => none
  | n + 1, seen, some a =>
    if a ∈ seen then none
    else
      match look a with
      | none   => some []
      | some b => (walk look next n (a :: seen) (next b)).map ((a, b) :: ·)

/-- Following a predecessor map back with a visited set, to the first node without one. -/
def climb [DecidableEq α] (pred : α → Option α) : Nat → List α → α → Option α
  | 0, _, _ => none
  | n + 1, seen, a =>
    match pred a with
    | none   => some a
    | some b => if a ∈ seen then none else climb pred n (a :: seen) b

variable {look : α → Option β} {next : β → Option α}

theorem Path.unique {s : Option α} {l₁ l₂ : List (α × β)} (h₁ : Path look next s l₁) (h₂ : Path look next s l₂) :
    l₁ = l₂ := by
  induction h₁ generalizing l₂ with
  | nil => cases h₂; rfl
  | stop a ha =>
    cases h₂ with
    | stop => rfl
    | cons _ b l hb => rw [ha] at hb; cases hb
  | cons a b l hb _ ih =>
    cases h₂ with
    | stop _ ha => rw [ha] at hb; cases hb
    | cons _ b' l' hb' t =>
      obtain rfl : b = b' := by rw [hb] at hb'; cases hb'; rfl
      rw [ih t]

theorem Path.look_of_mem {s : Option α} {l : List (α × β)} (h : Path look next s l) {p : α × β} (hp : p ∈ l) :
    look p.1 = some p.2 := by
  induction h with
  | nil => cases hp
  | stop => cases hp
  | cons a b l hb _ ih =>
    rcases List.mem_cons.1 hp with rfl | hp
    · exact hb
    · exact ih hp

theorem Path.mem_of_look {s : Option α} {l : List (α × β)} (h : Path look next s l) {p : α × β} {a : α} {b : β}
    (hp : p ∈ l) (hn : next p.2 = some a) (hb : look a = some b) : (a, b) ∈ l := by
  induction h with
  | nil => cases hp
  | stop => cases hp
  | cons c d l hd t ih =>
    rcases List.mem_cons.1 hp with rfl | hp
    · simp only at hn
      rw [hn] at t
      cases t with
      | stop _ ha => rw [ha] at hb; cases hb
      | cons _ b' l' hb' t' =>
        obtain rfl : b = b' := by rw [hb] at hb'; cases hb'; rfl
        exact List.mem_cons_of_mem _ List.mem_cons_self
    · exact List.mem_cons_of_mem _ (ih hp)

theorem Path.head_mem {a : α} {b : β} {l : List (α × β)} (h : Path look next (some a) l) (hb : look a = some b) :
    (a, b) ∈ l := by
  cases h with
  | stop _ ha => rw [ha] at hb; cases hb
  | cons _ b' l' hb' t =>
    obtain rfl : b = b' := by rw [hb] at hb'; cases hb'; rfl
    exact List.mem_cons_self

/-- A path that ends at a record without a next node. -/
inductive Complete (look : α → Option β) (next : β → Option α) : Option α → List (α × β) → Prop
  | nil : Complete look next none []
  | cons (a : α) (b : β) (l : List (α × β)) (h : look a = some b) (t : Complete look next (next b) l) :
      Complete look next (some a) ((a, b) :: l)

theorem Complete.path {s : Option α} {l : List (α × β)} (h : Complete look next s l) : Path look next s l := by
  induction h with
  | nil => exact .nil
  | cons a b l hb _ ih => exact .cons a b l hb ih

theorem Complete.transfer {look' : α → Option β} {s : Option α} {l : List (α × β)} (h : Complete look next s l)
    (hl : ∀ p ∈ l, look' p.1 = some p.2) : Complete look' next s l := by
  induction h with
  | nil => exact .nil
  | cons a b l _ _ ih =>
    exact .cons a b l (hl (a, b) List.mem_cons_self) (ih (fun p hp => hl p (List.mem_cons_of_mem _ hp)))

theorem Complete.next_ne_none {s : Option α} {l : List (α × β)} (h : Complete look next s l) {p : α × β} (hp : p ∈ l)
    (hne : (l.getLast?).map Prod.fst ≠ some p.1) : next p.2 ≠ none := by
  induction h with
  | nil => cases hp
  | cons a b l _ t ih =>
    cases l with
    | nil =>
      rw [List.mem_singleton] at hp
      subst hp
      exact absurd rfl hne
    | cons q l =>
      rw [List.getLast?_cons_cons] at hne
      rcases List.mem_cons.1 hp with rfl | hp
      · intro hn
        simp only at hn
        rw [hn] at t
        cases t
      · exact ih hp hne

theorem Complete.next_mem {s : Option α} {l : List (α × β)} (h : Complete look next s l) {p : α × β} (hp : p ∈ l) {a : α}
    (hn : next p.2 = some a) : ∃ b, (a, b) ∈ l := by
  induction h with
  | nil => cases hp
  | cons c b l _ t ih =>
    rcases List.mem_cons.1 hp with rfl | hp
    · simp only at hn
      rw [hn] at t
      cases t with
      | cons _ b' l' _ _ => exact ⟨b', List.mem_cons_of_mem _ List.mem_cons_self⟩
    · obtain ⟨b', hb'⟩ := ih hp
      exact ⟨b', List.mem_cons_of_mem _ hb'⟩

theorem Complete.last_next {s : Option α} {l : List (α × β)} (h : Complete look next s l) {p : α × β}
    (hp : l.getLast? = some p) : next p.2 = none := by
  induction h with
  | nil => cases hp
  | cons a b l _ t ih =>
    cases l with
    | nil =>
      cases hp
      show next b = none
      cases hn : next b with
      | none => exact rfl
      | some c => rw [hn] at t; cases t
    | cons q l =>
      rw [List.getLast?_cons_cons] at hp
      exact ih hp

theorem Path.mem_cases {s : Option α} {l : List (α × β)} (h : Path look next s l) {p : α × β} (hp : p ∈ l) :
    s = some p.1 ∨ ∃ q ∈ l, next q.2 = some p.1 := by
  induction h with
  | nil => cases hp
  | stop => cases hp
  | cons a b l hb _ ih =>
    rcases List.mem_cons.1 hp with rfl | hp
    · exact Or.inl rfl
    · rcases ih hp with h | ⟨q, hq, h⟩
      · exact Or.inr ⟨(a, b), List.mem_cons_self, h⟩
      · exact Or.inr ⟨q, List.mem_cons_of_mem _ hq, h⟩

/-- **A property handed along the links holds on the whole path.** -/
theorem Path.forall_mem {P : α → β → Prop} {s : Option α} {l : List (α × β)} (h : Path look next s l)
    (h0 : ∀ a b, s = some a → look a = some b → P a b)
    (hstep : ∀ a b c d, look a = some b → P a b → next b = some c → look c = some d → P c d) :
    ∀ p ∈ l, P p.1 p.2 := by
  induction h with
  | nil => simp
  | stop => simp
  | cons a b l hb _ ih =>
    have hab := h0 a b rfl hb
    intro p hp
    rcases List.mem_cons.1 hp with rfl | hp
    · exact hab
    · exact ih (fun c d hc hd => hstep a b c d hb hab hc hd) p hp

/-- A rank that grows along every link between recorded nodes. -/
def Ranked (look : α → Option β) (next : β → Option α) (rank : α → Nat) : Prop :=
  ∀ a b c d, look a = some b → next b = some c → look c = some d → rank a < rank c

theorem Path.pairwise_rank {rank : α → Nat} (hr : Ranked look next rank) {s : Option α} {l : List (α × β)}
    (h : Path look next s l) : l.Pairwise (fun p q => rank p.1 < rank q.1) := by
  induction h with
  | nil => exact .nil
  | stop => exact .nil
  | cons a b l hb t ih =>
    refine List.pairwise_cons.2 ⟨?_, ih⟩
    refine t.forall_mem (P := fun c _ => rank a < rank c) (fun c d hc hd => hr a b c d hb hc hd) ?_
    intro c d e f hd hlt he hf
    exact Nat.lt_trans hlt (hr c d e f hd he hf)

theorem Path.nodup {rank : α → Nat} (hr : Ranked look next rank) {s : Option α} {l : List (α × β)}
    (h : Path look next s l) : (l.map Prod.fst).Nodup := by
  rw [List.Nodup, List.pairwise_map]
  exact (h.pairwise_rank hr).imp (fun hlt heq => by rw [heq] at hlt; exact Nat.lt_irrefl _ hlt)

/-- **Under a bounded rank every start has a path.** -/
theorem exists_path {rank : α → Nat} (hr : Ranked look next rank) {bound : Nat}
    (hb : ∀ a b, look a = some b → rank a < bound) (s : Option α) : ∃ l, Path look next s l := by
  have key : ∀ (n : Nat) (a : α), bound - rank a ≤ n → ∃ l, Path look next (some a) l := by
    intro n
    induction n with
    | zero =>
      intro a hn
      cases ha : look a with
      | none => exact ⟨[], .stop a ha⟩
      | some b => have := hb a b ha; omega
    | succ n ih =>
      intro a hn
      cases ha : look a with
      | none => exact ⟨[], .stop a ha⟩
      | some b =>
        cases hc : next b with
        | none => exact ⟨[(a, b)], .cons a b [] ha (by rw [hc]; exact .nil)⟩
        | some c =>
          cases hd : look c with
          | none => exact ⟨[(a, b)], .cons a b [] ha (by rw [hc]; exact .stop c hd)⟩
          | some d =>
            have h1 := hr a b c d ha hc hd
            have h2 := hb a b ha
            obtain ⟨l, hl⟩ := ih c (by omega)
            exact ⟨(a, b) :: l, .cons a b l ha (by rw [hc]; exact hl)⟩
  cases s with
  | none => exact ⟨[], .nil⟩
  | some a => exact key _ a (Nat.le_refl _)

/-- Under a bounded rank, where every named node is recorded, a start that is recorded has a complete path. -/
theorem exists_complete {rank : α → Nat} (hr : Ranked look next rank) {bound : Nat}
    (hb : ∀ a b, look a = some b → rank a < bound) (hn : ∀ a b c, look a = some b → next b = some c → look c ≠ none)
    {s : Option α} (hs : ∀ a, s = some a → look a ≠ none) : ∃ l, Complete look next s l := by
  obtain ⟨l, hl⟩ := exists_path hr hb s
  refine ⟨l, ?_⟩
  induction hl with
  | nil => exact .nil
  | stop a ha => exact absurd ha (hs a rfl)
  | cons a b l hb' _ ih => exact .cons a b l hb' (ih (fun c hc => hn a b c hb' hc))

theorem look_of_mem_walk [DecidableEq α] : ∀ (n : Nat) (seen : List α) (s : Option α) {l : List (α × β)},
    walk look next n seen s = some l → ∀ p ∈ l, look p.1 = some p.2
  | n, seen, none, l, h, p, hp => by
    cases n <;> · cases h; cases hp
  | 0, _, some _, _, h, _, _ => by cases h
  | n + 1, seen, some a, l, h, p, hp => by
    simp only [walk] at h
    split at h
    · cases h
    · split at h
      · cases h; cases hp
      · rename_i b hb
        obtain ⟨l', hl', rfl⟩ := Option.map_eq_some_iff.1 h
        rcases List.mem_cons.1 hp with rfl | hp
        · exact hb
        · exact look_of_mem_walk n _ _ hl' p hp

/-- **The loop returns the path**, when no node of it repeats, the visited nodes are recorded ones off the path, and the
fuel exceeds its length. -/
theorem walk_eq_some [DecidableEq α] {s : Option α} {l : List (α × β)} (h : Path look next s l) :
    ∀ (n : Nat) (seen : List α), (l.map Prod.fst).Nodup → (∀ a ∈ seen, look a ≠ none ∧ a ∉ l.map Prod.fst) →
      l.length < n → walk look next n seen s = some l := by
  induction h with
  | nil => intro n seen _ _ hn; cases n <;> rfl
  | stop a ha =>
    intro n seen _ hs hn
    obtain ⟨n, rfl⟩ : ∃ k, n = k + 1 := ⟨n - 1, by simp at hn; omega⟩
    have hns : a ∉ seen := fun hm => (hs a hm).1 ha
    simp only [walk, if_neg hns, ha]
  | cons a b l hb t ih =>
    intro n seen hnd hs hn
    obtain ⟨n, rfl⟩ : ∃ k, n = k + 1 := ⟨n - 1, by simp at hn; omega⟩
    have hns : a ∉ seen := fun hm => (hs a hm).2 (by simp)
    rw [List.map_cons, List.nodup_cons] at hnd
    have htail : walk look next n (a :: seen) (next b) = some l := by
      refine ih n (a :: seen) hnd.2 (fun c hc => ?_) (by simp at hn; omega)
      rcases List.mem_cons.1 hc with rfl | hc
      · exact ⟨by rw [hb]; simp, hnd.1⟩
      · exact ⟨(hs c hc).1, fun hm => (hs c hc).2 (by rw [List.map_cons]; exact List.mem_cons_of_mem _ hm)⟩
    simp only [walk, if_neg hns, hb, htail, Option.map_some]

/-! ## Reachability and roots -/

/-- The record at `a` names the recorded node `c`. -/
def Link (look : α → Option β) (next : β → Option α) (a c : α) : Prop :=
  ∃ b, look a = some b ∧ next b = some c ∧ look c ≠ none

/-- Following links from `a` meets `c`. -/
abbrev Reach (look : α → Option β) (next : β → Option α) : α → α → Prop := Relation.ReflTransGen (Link look next)

theorem Path.mem_of_reach {a c : α} {d : β} {l : List (α × β)} (h : Path look next (some a) l)
    (hr : Reach look next a c) (hd : look c = some d) : (c, d) ∈ l := by
  induction hr generalizing d with
  | refl => exact h.head_mem hd
  | @tail x y hxy hlink ih =>
    obtain ⟨e, he, hn, -⟩ := hlink
    exact h.mem_of_look (ih he) hn hd

theorem Path.reach_of_mem {a : α} {l : List (α × β)} (h : Path look next (some a) l) {p : α × β} (hp : p ∈ l) :
    Reach look next a p.1 := by
  refine h.forall_mem (P := fun c _ => Reach look next a c) ?_ ?_ p hp
  · rintro c d hc -
    cases hc
    exact .refl
  · intro c d e f hd hreach he hf
    exact hreach.tail ⟨d, hd, he, by rw [hf]; simp⟩

/-- No node is named by two records. -/
def Unshared (look : α → Option β) (next : β → Option α) : Prop :=
  ∀ a b a' b' c, look a = some b → look a' = some b' → next b = some c → next b' = some c → a = a'

/-- **Two starts that meet a node, both named by no record, are one.** -/
theorem root_unique (hu : Unshared look next) {r r' c : α} (hr : Reach look next r c) (hr' : Reach look next r' c)
    (h : ∀ a, ¬ Link look next a r) (h' : ∀ a, ¬ Link look next a r') : r = r' := by
  induction hr generalizing r' with
  | refl =>
    cases Relation.ReflTransGen.cases_tail hr' with
    | inl he => exact he
    | inr hx =>
      obtain ⟨x, -, hx⟩ := hx
      exact absurd hx (h x)
  | @tail x y hxy hlink ih =>
    rcases Relation.ReflTransGen.cases_tail hr' with he | ⟨z, hz, hlink'⟩
    · subst he; exact absurd hlink (h' x)
    · obtain ⟨b, hb, hn, -⟩ := hlink
      obtain ⟨b', hb', hn', -⟩ := hlink'
      obtain rfl := hu x b z b' y hb hb' hn hn'
      exact ih hz h'

/-- **Climbing returns a start named by no record that reaches the node**, when ranks grow along links and the fuel
exceeds the number of recorded nodes not seen yet. -/
theorem climb_eq_some [DecidableEq α] {pred : α → Option α} {rank : α → Nat} (hr : Ranked look next rank)
    {keys : List α} (hk : ∀ a, look a ≠ none → a ∈ keys)
    (hpred : ∀ a b, look a ≠ none → pred a = some b → Link look next b a) :
    ∀ (n : Nat) (seen : List α) (a : α), look a ≠ none → seen.Nodup → (∀ c ∈ seen, look c ≠ none ∧ rank a < rank c) →
      keys.length < n + seen.length → ∃ r, climb pred n seen a = some r ∧ Reach look next r a ∧ pred r = none := by
  intro n
  induction n with
  | zero =>
    intro seen a ha hnd hs hn
    have := (List.subperm_of_subset hnd (fun c hc => hk c (hs c hc).1)).length_le
    omega
  | succ n ih =>
    intro seen a ha hnd hs hn
    simp only [climb]
    cases hp : pred a with
    | none => exact ⟨a, rfl, .refl, hp⟩
    | some b =>
      have hns : a ∉ seen := fun hm => Nat.lt_irrefl _ (hs a hm).2
      obtain ⟨e, he, hnx, -⟩ := hpred a b ha hp
      obtain ⟨d, hd⟩ := Option.ne_none_iff_exists'.1 ha
      have hlt := hr b e a d he hnx hd
      simp only [if_neg hns]
      obtain ⟨r, h1, h2, h3⟩ := ih (a :: seen) b (by rw [he]; simp) (List.nodup_cons.2 ⟨hns, hnd⟩)
        (fun c hc => by
          rcases List.mem_cons.1 hc with rfl | hc
          · exact ⟨ha, hlt⟩
          · exact ⟨(hs c hc).1, Nat.lt_trans hlt (hs c hc).2⟩) (by simp; omega)
      exact ⟨r, h1, h2.tail (hpred a b ha hp), h3⟩

/-- **The loop from a recorded or unrecorded start returns its path**, when ranks grow along links and the fuel exceeds
the number of recorded nodes. -/
theorem walk_ranked [DecidableEq α] {rank : α → Nat} (hr : Ranked look next rank) {keys : List α}
    (hk : ∀ a, look a ≠ none → a ∈ keys) {n : Nat} (hn : keys.length < n) (s : Option α) :
    ∃ l, Path look next s l ∧ walk look next n [] s = some l := by
  have hbound : ∀ a b, look a = some b → rank a < (keys.map rank).sum + 1 := fun a b hb => by
    have := List.single_le_sum (l := keys.map rank) (fun _ _ => Nat.zero_le _) (rank a)
      (List.mem_map_of_mem (hk a (by rw [hb]; simp)))
    omega
  obtain ⟨l, hl⟩ := exists_path hr hbound s
  refine ⟨l, hl, walk_eq_some hl n [] (hl.nodup hr) (by simp) ?_⟩
  have hsub : l.map Prod.fst ⊆ keys := by
    intro a ha
    obtain ⟨p, hp, rfl⟩ := List.mem_map.1 ha
    exact hk p.1 (by rw [hl.look_of_mem hp]; simp)
  have := (List.subperm_of_subset (hl.nodup hr) hsub).length_le
  rw [List.length_map] at this
  omega

/-! ## Unlinking a node -/

section Unlink

variable [DecidableEq α] {p c : α} {b d b' : β}

/-- The store after the node `c`, named by the record `b` of `p`, is taken out and `p` gets the record `b'`. -/
def unlink (look : α → Option β) (p c : α) (b' : β) : α → Option β :=
  Function.update (Function.update look p (some b')) c none

theorem unlink_self : unlink look p c b' c = none := Function.update_self _ _ _

theorem unlink_pred (hpc : p ≠ c) : unlink look p c b' p = some b' := by
  rw [unlink, Function.update_of_ne hpc, Function.update_self]

theorem unlink_other {a : α} (hc : a ≠ c) (hp : a ≠ p) : unlink look p c b' a = look a := by
  rw [unlink, Function.update_of_ne hc, Function.update_of_ne hp]

theorem unlink_ne_none {a : α} (hp : look p = some b) (h : unlink look p c b' a ≠ none) : look a ≠ none ∧ a ≠ c := by
  have hac : a ≠ c := by
    rintro rfl
    exact h unlink_self
  refine ⟨?_, hac⟩
  by_cases hap : a = p
  · rw [hap, hp]; simp
  · rw [unlink_other hac hap] at h; exact h

variable (hp : look p = some b) (hc : look c = some d) (hn : next b = some c) (hn' : next b' = next d)
include hp hc hn hn'

omit hn in
theorem link_of_unlink {a e : α} (h : Link (unlink look p c b') next a e) :
    Link look next a e ∨ (a = p ∧ Link look next c e) := by
  obtain ⟨x, hx, hxe, hstored⟩ := h
  obtain ⟨hne, hac⟩ := unlink_ne_none hp (by rw [hx]; simp)
  have hel := (unlink_ne_none hp hstored).1
  by_cases hap : a = p
  · subst hap
    rw [unlink_pred hac] at hx
    cases hx
    exact Or.inr ⟨rfl, d, hc, hn' ▸ hxe, hel⟩
  · rw [unlink_other hac hap] at hx
    exact Or.inl ⟨x, hx, hxe, hel⟩

theorem reach_of_unlink {a e : α} (h : Reach (unlink look p c b') next a e) : Reach look next a e := by
  induction h with
  | refl => exact .refl
  | tail _ hlink ih =>
    rcases link_of_unlink hp hc hn' hlink with hl | ⟨rfl, hl⟩
    · exact ih.tail hl
    · exact (ih.tail ⟨b, hp, hn, by rw [hc]; simp⟩).tail hl

theorem Ranked.unlink {rank : α → Nat} (hr : Ranked look next rank) : Ranked (unlink look p c b') next rank := by
  intro a x e y hx hxe hy
  obtain ⟨hne, hac⟩ := unlink_ne_none hp (by rw [hx]; simp)
  obtain ⟨z, hz⟩ := Option.ne_none_iff_exists'.1 (unlink_ne_none hp (a := e) (by rw [hy]; simp)).1
  by_cases hap : a = p
  · subst hap
    rw [unlink_pred hac] at hx
    cases hx
    exact Nat.lt_trans (hr a b c d hp hn hc) (hr c d e z hc (hn' ▸ hxe) hz)
  · rw [unlink_other hac hap] at hx
    exact hr a x e z hx hxe hz

omit hn in
theorem Unshared.unlink (hu : Unshared look next) : Unshared (unlink look p c b') next := by
  -- a record of the new store stands for `a` itself, or for `c` when `a` is `p`
  have hold : ∀ {a e : α} {x : β}, Linked.unlink look p c b' a = some x → next x = some e →
      a ≠ c ∧ ((a = p ∧ next d = some e) ∨ (a ≠ p ∧ look a = some x)) := by
    intro a e x hx hxe
    obtain ⟨-, hac⟩ := unlink_ne_none hp (by rw [hx]; simp)
    refine ⟨hac, ?_⟩
    by_cases hap : a = p
    · subst hap
      rw [unlink_pred hac] at hx
      cases hx
      exact Or.inl ⟨rfl, hn' ▸ hxe⟩
    · rw [unlink_other hac hap] at hx
      exact Or.inr ⟨hap, hx⟩
  intro a x a' x' e hx hx' hxe hxe'
  obtain ⟨hac, h⟩ := hold hx hxe
  obtain ⟨hac', h'⟩ := hold hx' hxe'
  rcases h with ⟨rfl, hde⟩ | ⟨-, hl⟩
  · rcases h' with ⟨rfl, -⟩ | ⟨-, hl'⟩
    · rfl
    · exact absurd (hu a' x' c d e hl' hc hxe' hde) hac'
  · rcases h' with ⟨rfl, hde'⟩ | ⟨-, hl'⟩
    · exact absurd (hu a x c d e hl hc hxe hde') hac
    · exact hu a x a' x' e hl hl' hxe hxe'

/-- **The nodes that stay are reached as before.** -/
theorem reach_unlink {rank : α → Nat} (hr : Ranked look next rank) (hu : Unshared look next) {a e : α} (ha : a ≠ c) (he : e ≠ c)
    (h : Reach look next a e) : Reach (unlink look p c b') next a e := by
  have hpc : p ≠ c := by
    rintro rfl
    exact Nat.lt_irrefl _ (hr p b p d hp hn hc)
  -- from `c` itself, the walk goes on from `p`
  have key : (a ≠ c → Reach (unlink look p c b') next a e) ∧ (a = c → Reach (unlink look p c b') next p e) := by
    clear ha
    induction h using Relation.ReflTransGen.head_induction_on with
    | refl => exact ⟨fun _ => .refl, fun h => absurd h he⟩
    | @head x y hlink _ ih =>
      obtain ⟨z, hz, hzy, hy⟩ := hlink
      refine ⟨fun hxc => ?_, fun hxc => ?_⟩
      · by_cases hxp : x = p
        · subst hxp
          rw [hp] at hz
          cases hz
          rw [hn] at hzy
          cases hzy
          exact ih.2 rfl
        · have hyc : y ≠ c := by
            rintro rfl
            exact hxp (hu x z p b y hz hp hzy hn)
          refine .head ⟨z, by rw [unlink_other hxc hxp]; exact hz, hzy, ?_⟩ (ih.1 hyc)
          by_cases hyp : y = p
          · rw [hyp, unlink_pred hpc]; simp
          · rw [unlink_other hyc hyp]; exact hy
      · subst hxc
        rw [hc] at hz
        cases hz
        obtain ⟨w, hw⟩ := Option.ne_none_iff_exists'.1 hy
        have hyx : y ≠ x := by
          rintro rfl
          exact Nat.lt_irrefl _ (hr y d y w hc hzy hw)
        have hyp : y ≠ p := by
          rintro rfl
          have h1 := hr y b x d hp hn hc
          have h2 := hr x d y w hc hzy hw
          omega
        refine .head ⟨b', unlink_pred hpc, hn' ▸ hzy, ?_⟩ (ih.1 hyx)
        rw [unlink_other hyx hyp]
        exact hy
  exact key.1 ha

end Unlink

end Linked
