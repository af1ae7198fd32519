import Mathlib
/-!
# Comparators — three-way comparisons and the stable sort they make

A comparator gives a negative number, zero or a positive number.  `TotalPreorderOn` is what a sort asks of it on the items it is
given.  Comparators with that property are made from a linear order of keys, by turning one around, by putting some items before
or behind all others, and by asking a second one where the first ties.  A stable insertion sort by such a comparator gives the
one list that is in order and keeps ties as they came (`stable_unique`).
-/
namespace Comparators

variable {α β : Type}

/-- **A total preorder** on the items of `P`: turning the arguments around negates the result, and `≤` is transitive. -/
structure TotalPreorderOn (P : α → Prop) (c : α → α → Int) : Prop where
  swap  : ∀ {a b}, P a → P b → c b a = -c a b
  trans : ∀ {a b d}, P a → P b → P d → c a b ≤ 0 → c b d ≤ 0 → c a d ≤ 0

namespace TotalPreorderOn

variable {P : α → Prop} {c d : α → α → Int}

theorem refl (h : TotalPreorderOn P c) {a : α} (ha : P a) : c a a = 0 := by
  have := h.swap ha ha
  omega

theorem total (h : TotalPreorderOn P c) {a b : α} (ha : P a) (hb : P b) : c a b ≤ 0 ∨ c b a ≤ 0 := by
  have := h.swap ha hb
  omega

theorem lt_of_lt_of_le (h : TotalPreorderOn P c) {x y z : α} (hx : P x) (hy : P y) (hz : P z)
    (hxy : c x y < 0) (hyz : c y z ≤ 0) :
    c x z < 0 := by
  by_contra hle
  have hzx : c z x ≤ 0 := by
    have := h.swap hx hz
    omega
  have hyx := h.trans hy hz hx hyz hzx
  have := h.swap hx hy
  omega

theorem lt_of_le_of_lt (h : TotalPreorderOn P c) {x y z : α} (hx : P x) (hy : P y) (hz : P z)
    (hxy : c x y ≤ 0) (hyz : c y z < 0) :
    c x z < 0 := by
  by_contra hle
  have hzx : c z x ≤ 0 := by
    have := h.swap hx hz
    omega
  have hzy := h.trans hz hx hy hzx hxy
  have := h.swap hy hz
  omega

theorem comap {Q : β → Prop} {k : β → β → Int} (h : TotalPreorderOn Q k) (f : α → β) (hf : ∀ a, P a → Q (f a)) :
    TotalPreorderOn P (fun a b => k (f a) (f b)) :=
  ⟨fun ha hb => h.swap (hf _ ha) (hf _ hb), fun ha hb hd => h.trans (hf _ ha) (hf _ hb) (hf _ hd)⟩

end TotalPreorderOn

/-! ## Making comparators -/

/-- The comparator of a linear order. -/
def threeWay [LT β] [DecidableLT β] (a b : β) : Int := if a < b then -1 else if b < a then 1 else 0

section linear

variable [LinearOrder β] {a b : β}

theorem threeWay_nonpos : threeWay a b ≤ 0 ↔ a ≤ b := by
  unfold threeWay
  rcases lt_trichotomy a b with h | rfl | h
  · rw [if_pos h]
    exact ⟨fun _ => h.le, fun _ => by decide⟩
  · rw [if_neg (lt_irrefl _), if_neg (lt_irrefl _)]
    exact ⟨fun _ => le_refl _, fun _ => le_refl _⟩
  · rw [if_neg h.not_gt, if_pos h]
    exact ⟨fun hn => absurd hn (by decide), fun hn => absurd hn h.not_ge⟩

theorem threeWay_neg : threeWay a b < 0 ↔ a < b := by
  unfold threeWay
  split
  · rename_i h
    exact ⟨fun _ => h, fun _ => by decide⟩
  · rename_i h
    split <;> exact ⟨fun hn => absurd hn (by decide), fun hn => absurd hn h⟩

theorem threeWay_zero : threeWay a b = 0 ↔ ¬a < b ∧ ¬b < a := by
  unfold threeWay
  split
  · rename_i h
    exact ⟨fun hn => absurd hn (by decide), fun hn => absurd h hn.1⟩
  · rename_i h
    split
    · rename_i h'
      exact ⟨fun hn => absurd hn (by decide), fun hn => absurd h' hn.2⟩
    · rename_i h'
      exact ⟨fun _ => ⟨h, h'⟩, fun _ => rfl⟩

theorem threeWay_swap : threeWay b a = -threeWay a b := by
  unfold threeWay
  rcases lt_trichotomy a b with h | rfl | h
  · rw [if_pos h, if_neg h.not_gt, if_pos h]
    rfl
  · rw [if_neg (lt_irrefl _), if_neg (lt_irrefl _)]
    rfl
  · rw [if_pos h, if_neg h.not_gt, if_pos h]

theorem totalPreorderOn_threeWay (P : β → Prop) : TotalPreorderOn P threeWay :=
  ⟨fun _ _ => threeWay_swap, fun _ _ _ hab hbd => threeWay_nonpos.2 ((threeWay_nonpos.1 hab).trans (threeWay_nonpos.1 hbd))⟩

end linear

variable {P : α → Prop} {c d : α → α → Int}

/-- **Turned around**, a comparator keeps its ties. -/
theorem TotalPreorderOn.neg (h : TotalPreorderOn P c) : TotalPreorderOn P (fun a b => -c a b) := by
  refine ⟨fun ha hb => ?_, fun {a b e} ha hb hd hab hbd => ?_⟩
  · rw [h.swap ha hb]
  · have := h.swap ha hb
    have := h.swap hb hd
    have := h.swap ha hd
    have := h.trans hd hb ha (by omega) (by omega)
    omega

/-- The items of `apart` tie, and stand before or behind all others. -/
def setApart (apart : α → Bool) (first : Bool) (c : α → α → Int) (a b : α) : Int :=
  if apart a || apart b then
    if apart a && apart b then 0
    else if apart a then (if first then -1 else 1)
    else (if first then 1 else -1)
  else c a b

/-- **Items set apart** do not disturb the order of the others. -/
theorem TotalPreorderOn.setApart {apart : α → Bool} (h : TotalPreorderOn (fun a => P a ∧ apart a = false) c) (first : Bool) :
    TotalPreorderOn P (setApart apart first c) := by
  refine ⟨fun {a b} ha hb => ?_, fun {a b e} ha hb hd hab hbd => ?_⟩
  · unfold Comparators.setApart
    cases hpa : apart a <;> cases hpb : apart b
    · exact h.swap ⟨ha, hpa⟩ ⟨hb, hpb⟩
    all_goals cases first <;> rfl
  · unfold Comparators.setApart at hab hbd ⊢
    cases hpa : apart a <;> cases hpb : apart b <;> cases hpd : apart e <;> rw [hpa, hpb] at hab <;> rw [hpb, hpd] at hbd
    · exact h.trans ⟨ha, hpa⟩ ⟨hb, hpb⟩ ⟨hd, hpd⟩ hab hbd
    all_goals cases first <;> simp at hab hbd ⊢

/-- The second comparator decides where the first ties. -/
def thenBy (c d : α → α → Int) (a b : α) : Int := if c a b ≠ 0 then c a b else d a b

/-- **One comparator after another.** -/
theorem TotalPreorderOn.thenBy (hc : TotalPreorderOn P c) (hd : TotalPreorderOn P d) : TotalPreorderOn P (thenBy c d) := by
  refine ⟨fun {a b} ha hb => ?_, fun {a b e} ha hb he hab hbe => ?_⟩
  · unfold Comparators.thenBy
    rw [hc.swap ha hb, hd.swap ha hb]
    by_cases h : c a b = 0
    · rw [if_neg (by omega), if_neg (by omega)]
    · rw [if_pos (by omega), if_pos h]
  · have hab' : c a b < 0 ∨ (c a b = 0 ∧ d a b ≤ 0) := by
      unfold Comparators.thenBy at hab
      split at hab <;> omega
    have hbe' : c b e < 0 ∨ (c b e = 0 ∧ d b e ≤ 0) := by
      unfold Comparators.thenBy at hbe
      split at hbe <;> omega
    have hle := hc.trans ha hb he (by omega) (by omega)
    unfold Comparators.thenBy
    split
    · exact hle
    · -- a tie of the outer two is a tie of both pairs
      have hno : ¬c a b < 0 := fun hlt => by
        have := hc.lt_of_lt_of_le ha hb he hlt (by omega)
        omega
      have hno' : ¬c b e < 0 := fun hlt => by
        have := hc.lt_of_le_of_lt ha hb he (by omega) hlt
        omega
      exact hd.trans ha hb he (by omega) (by omega)

theorem totalPreorderOn_zero (P : α → Prop) : TotalPreorderOn P (fun _ _ => 0) := ⟨fun _ _ => rfl, fun _ _ _ _ _ => le_refl _⟩

/-! ## The stable sort -/

/-- An item put behind those before it, and in front of those it ties with. -/
def insertBy {ε : Type} (c : α → α → Except ε Int) (x : α) : List α → Except ε (List α)
  | []      => .ok [x]
  | y :: ys => do
    let comparison ← c y x
    if comparison < 0 then do
      let rest ← insertBy c x ys
      .ok (y :: rest)
    else .ok (x :: y :: ys)

/-- A stable sort, by a comparison that may fail. -/
def sortBy {ε : Type} (c : α → α → Except ε Int) : List α → Except ε (List α)
  | []      => .ok []
  | x :: xs => do
    let sorted ← sortBy c xs
    insertBy c x sorted

/-- Whether `x` may stand in front of `y`. -/
def notBehind (c : α → α → Int) (x y : α) : Prop := 0 ≤ c y x

instance decidableNotBehind (c : α → α → Int) : DecidableRel (notBehind c) := fun x y => inferInstanceAs (Decidable (0 ≤ c y x))

theorem insertBy_ok {ε : Type} {k : α → α → Except ε Int} {x : α} : ∀ {ys : List α}, (∀ y ∈ ys, k y x = .ok (c y x)) →
    insertBy k x ys = .ok (ys.orderedInsert (notBehind c) x)
  | [], _      => rfl
  | y :: ys, h => by
    rw [insertBy, h y List.mem_cons_self, List.orderedInsert_cons]
    simp only [bind, Except.bind]
    by_cases hy : c y x < 0
    · rw [if_pos hy, if_neg (show ¬notBehind c x y from not_le.2 hy), insertBy_ok (fun z hz => h z (List.mem_cons_of_mem _ hz))]
    · rw [if_neg hy, if_pos (show notBehind c x y from not_lt.1 hy)]

/-- **A sort whose comparisons return** is the insertion sort by their results. -/
theorem sortBy_ok {ε : Type} {k : α → α → Except ε Int} : ∀ {xs : List α}, (∀ x ∈ xs, ∀ y ∈ xs, k x y = .ok (c x y)) →
    sortBy k xs = .ok (xs.insertionSort (notBehind c))
  | [], _      => rfl
  | x :: xs, h => by
    rw [sortBy, sortBy_ok (fun a ha b hb => h a (List.mem_cons_of_mem _ ha) b (List.mem_cons_of_mem _ hb)),
      List.insertionSort_cons]
    exact insertBy_ok (fun y hy => h y (List.mem_cons_of_mem _ ((List.mem_insertionSort _).1 hy)) x List.mem_cons_self)

/-- In order, with ties as they came: the second components are the positions. -/
def Stable (c : α → α → Int) (a b : α × Nat) : Prop := c a.1 b.1 < 0 ∨ (c a.1 b.1 = 0 ∧ a.2 < b.2)

theorem map_orderedInsert (p : α × Nat) : ∀ tagged : List (α × Nat),
    (tagged.orderedInsert (fun a b => notBehind c a.1 b.1) p).map Prod.fst = (tagged.map Prod.fst).orderedInsert (notBehind c) p.1
  | []      => rfl
  | q :: qs => by
    rw [List.orderedInsert_cons, List.map_cons, List.orderedInsert_cons]
    split
    · rfl
    · rw [List.map_cons, map_orderedInsert p qs]

theorem pairwise_orderedInsert (h : TotalPreorderOn P c) {p : α × Nat} (hp : P p.1) : ∀ {tagged : List (α × Nat)},
    (∀ q ∈ tagged, P q.1 ∧ p.2 < q.2) → tagged.Pairwise (Stable c) →
      (tagged.orderedInsert (fun a b => notBehind c a.1 b.1) p).Pairwise (Stable c)
  | [], _, _       => List.pairwise_singleton _ _
  | q :: qs, hq, hs => by
    obtain ⟨hPq, hlt⟩ := hq q List.mem_cons_self
    obtain ⟨hhead, htail⟩ := List.pairwise_cons.1 hs
    rw [List.orderedInsert_cons]
    split
    · rename_i hbehind
      have hpq : c p.1 q.1 ≤ 0 := by
        have := h.swap hPq hp
        have : 0 ≤ c q.1 p.1 := hbehind
        omega
      refine List.pairwise_cons.2 ⟨fun r hr => ?_, hs⟩
      -- what is not behind the first is not behind the others
      obtain ⟨hPr, hltr⟩ := hq r hr
      have hpr : c p.1 r.1 ≤ 0 := by
        rcases List.mem_cons.1 hr with rfl | hr
        · exact hpq
        · refine h.trans hp hPq hPr hpq ?_
          rcases hhead r hr with hlt | ⟨heq, -⟩ <;> omega
      rcases lt_or_eq_of_le hpr with hneg | hzero
      · exact .inl hneg
      · exact .inr ⟨hzero, hltr⟩
    · rename_i hbehind
      have hqp : c q.1 p.1 < 0 := not_le.1 hbehind
      refine List.pairwise_cons.2 ⟨fun r hr => ?_,
        pairwise_orderedInsert h hp (fun r hr => hq r (List.mem_cons_of_mem _ hr)) htail⟩
      rcases (List.mem_orderedInsert _).1 hr with rfl | hr
      · exact .inl hqp
      · exact hhead r hr

theorem stable_from (h : TotalPreorderOn P c) : ∀ (xs : List α) (k : Nat), (∀ x ∈ xs, P x) →
    ∃ tagged : List (α × Nat), tagged.map Prod.fst = xs.insertionSort (notBehind c) ∧ tagged.Perm (xs.zipIdx k) ∧
      tagged.Pairwise (Stable c)
  | [], _, _      => ⟨[], rfl, .nil, .nil⟩
  | x :: xs, k, hP => by
    obtain ⟨tagged, hmap, hperm, hs⟩ := stable_from h xs (k + 1) (fun y hy => hP y (List.mem_cons_of_mem _ hy))
    refine ⟨tagged.orderedInsert (fun a b => notBehind c a.1 b.1) (x, k), ?_, ?_, ?_⟩
    · rw [map_orderedInsert, hmap, List.insertionSort_cons]
    · rw [List.zipIdx_cons]
      exact (List.perm_orderedInsert _ _ _).trans (hperm.cons _)
    · refine pairwise_orderedInsert h (hP x List.mem_cons_self) (fun q hq => ?_) hs
      have hmem := hperm.mem_iff.1 hq
      exact ⟨hP _ (List.mem_cons_of_mem _ (List.fst_mem_of_mem_zipIdx hmem)), Nat.lt_of_succ_le (List.le_snd_of_mem_zipIdx hmem)⟩

/-- **The sort is stable**: a permutation of the items with their positions, in order, and ties by position. -/
theorem insertionSort_stable (h : TotalPreorderOn P c) {xs : List α} (hP : ∀ x ∈ xs, P x) :
    ∃ tagged : List (α × Nat), tagged.map Prod.fst = xs.insertionSort (notBehind c) ∧ tagged.Perm xs.zipIdx ∧
      tagged.Pairwise (Stable c) := stable_from h xs 0 hP

/-- **There is one such list**, whatever comparisons a stable sort makes. -/
theorem stable_unique (h : TotalPreorderOn P c) {xs : List α} (hP : ∀ x ∈ xs, P x) {s t : List (α × Nat)}
    (hs : s.Perm xs.zipIdx) (ht : t.Perm xs.zipIdx) (hss : s.Pairwise (Stable c)) (hst : t.Pairwise (Stable c)) : s = t := by
  refine @List.Perm.eq_of_pairwise _ (Stable c) s t (fun a b ha hb hab hba => ?_) hss hst (hs.trans ht.symm)
  have hPa := hP _ (List.fst_mem_of_mem_zipIdx (hs.mem_iff.1 ha))
  have hPb := hP _ (List.fst_mem_of_mem_zipIdx (ht.mem_iff.1 hb))
  have hswap := h.swap hPa hPb
  rcases hab with hab | ⟨hab, hlt⟩ <;> rcases hba with hba | ⟨hba, hgt⟩ <;> omega

end Comparators
