import Mathlib
/-!
# Joins — partial rows, their products and join trees

A row is a partial map, and two rows are merged by looking into the left one first.  A join tree multiplies its two sides at
each node and keeps the rows on which the condition of the node holds.  A condition may have no value on a row; once it has
one, it keeps it on every larger row.  Where every condition has a value, the shape of the tree does not matter: its rows are
those of the product of its leaves on which all its conditions hold.
-/

/-- A partial map, with values typed by their keys. -/
abbrev PartialRow {ι : Type} (ν : ι → Type) := (i : ι) → Option (ν i)

namespace PartialRow

variable {ι : Type} {ν : ι → Type}

def empty : PartialRow ν := fun _ => none

def merge (a b : PartialRow ν) : PartialRow ν := fun i => (a i).or (b i)

/-- No key has a value in both. -/
def Separate (a b : PartialRow ν) : Prop := ∀ i, a i = none ∨ b i = none

/-- The larger row has every value of the smaller one. -/
def Within (a b : PartialRow ν) : Prop := ∀ i, a i ≠ none → b i = a i

theorem merge_assoc (a b c : PartialRow ν) : merge (merge a b) c = merge a (merge b c) := by
  funext i
  simp only [merge]
  cases a i <;> rfl

theorem merge_comm {a b : PartialRow ν} (h : Separate a b) : merge a b = merge b a := by
  funext i
  simp only [merge]
  rcases h i with h | h
  · rw [h]; cases b i <;> rfl
  · rw [h]; cases a i <;> rfl

theorem merge_empty (a : PartialRow ν) : merge a empty = a := by
  funext i
  simp only [merge, empty]
  cases a i <;> rfl

theorem within_merge (a b : PartialRow ν) : Within a (merge a b) := by
  intro i hi
  obtain ⟨v, hv⟩ := Option.ne_none_iff_exists'.1 hi
  simp [merge, hv]

theorem Separate.symm {a b : PartialRow ν} (h : Separate a b) : Separate b a := fun i => (h i).symm

theorem Separate.merge_left {a b c : PartialRow ν} (h : Separate a c) (h' : Separate b c) : Separate (merge a b) c := by
  intro i
  rcases h i with ha | hc
  · rcases h' i with hb | hc
    · left; simp only [merge, ha, hb]; rfl
    · exact Or.inr hc
  · exact Or.inr hc

end PartialRow

/-! ## Products -/

namespace Rows

open PartialRow

variable {ι : Type} {ν : ι → Type}

def mul (M N : Multiset (PartialRow ν)) : Multiset (PartialRow ν) := M.bind (fun a => N.map (merge a))

/-- No row of one side has a key of a row of the other. -/
def Apart (M N : Multiset (PartialRow ν)) : Prop := ∀ a ∈ M, ∀ b ∈ N, Separate a b

variable {M N P : Multiset (PartialRow ν)}

theorem mem_mul {c : PartialRow ν} : c ∈ mul M N ↔ ∃ a ∈ M, ∃ b ∈ N, merge a b = c := by
  simp [mul, Multiset.mem_bind]

theorem Apart.symm (h : Apart M N) : Apart N M := fun b hb a ha => (h a ha b hb).symm

theorem Apart.mul_left (h : Apart M P) (h' : Apart N P) : Apart (mul M N) P := by
  intro c hc x hx
  obtain ⟨a, ha, b, hb, rfl⟩ := mem_mul.1 hc
  exact (h a ha x hx).merge_left (h' b hb x hx)

theorem Apart.mul_right (h : Apart M N) (h' : Apart M P) : Apart M (mul N P) := (h.symm.mul_left h'.symm).symm

theorem mul_assoc (M N P : Multiset (PartialRow ν)) : mul (mul M N) P = mul M (mul N P) := by
  unfold mul
  rw [Multiset.bind_assoc]
  refine Multiset.bind_congr (fun a _ => ?_)
  rw [Multiset.bind_map, Multiset.map_bind]
  refine Multiset.bind_congr (fun b _ => ?_)
  rw [Multiset.map_map]
  exact Multiset.map_congr rfl (fun c _ => merge_assoc a b c)

theorem mul_comm (h : Apart M N) : mul M N = mul N M := by
  unfold mul
  have hflip : (M.bind fun a => N.map (merge a)) = M.bind fun a => N.map (fun b => merge b a) := by
    refine Multiset.bind_congr (fun a ha => Multiset.map_congr rfl (fun b hb => ?_))
    exact merge_comm (h a ha b hb)
  rw [hflip, Multiset.bind_map_comm]

theorem mul_left_comm (h : Apart M N) (P : Multiset (PartialRow ν)) : mul M (mul N P) = mul N (mul M P) := by
  rw [← mul_assoc, mul_comm h, mul_assoc]

theorem mul_unit (M : Multiset (PartialRow ν)) : mul M {empty} = M := by
  unfold mul
  simp only [Multiset.map_singleton, merge_empty]
  rw [Multiset.bind_singleton, Multiset.map_id']

/-- The product of several sides. -/
def mulAll (Ms : List (Multiset (PartialRow ν))) : Multiset (PartialRow ν) := Ms.foldr mul {empty}

theorem unit_mul (M : Multiset (PartialRow ν)) : mul {empty} M = M := by
  unfold mul
  rw [Multiset.singleton_bind]
  have : (fun b : PartialRow ν => merge empty b) = id := by
    funext b i
    rfl
  rw [show merge empty = (id : PartialRow ν → PartialRow ν) from this, Multiset.map_id]

theorem mulAll_append (Ms Ns : List (Multiset (PartialRow ν))) : mulAll (Ms ++ Ns) = mul (mulAll Ms) (mulAll Ns) := by
  induction Ms with
  | nil => exact (unit_mul _).symm
  | cons M Ms ih =>
    show mul M (mulAll (Ms ++ Ns)) = mul (mul M (mulAll Ms)) (mulAll Ns)
    rw [ih, mul_assoc]

theorem apart_mulAll {Ms : List (Multiset (PartialRow ν))} (h : ∀ M ∈ Ms, Apart M P) : Apart (mulAll Ms) P := by
  induction Ms with
  | nil =>
    intro a ha b _ i
    rw [Multiset.mem_singleton.1 ha]
    exact Or.inl rfl
  | cons M Ms ih =>
    exact Apart.mul_left (h M List.mem_cons_self) (ih (fun N hN => h N (List.mem_cons_of_mem _ hN)))

/-- **The order of the sides of a product does not matter.** -/
theorem mulAll_perm {Ms Ns : List (Multiset (PartialRow ν))} (hp : Ms.Perm Ns) (h : Ms.Pairwise Apart) :
    mulAll Ms = mulAll Ns := by
  induction hp with
  | nil => rfl
  | cons M _ ih =>
    show mul M (mulAll _) = mul M (mulAll _)
    rw [ih (List.pairwise_cons.1 h).2]
  | swap M N Ms =>
    have hNM : Apart N M := (List.pairwise_cons.1 h).1 M List.mem_cons_self
    exact mul_left_comm hNM (mulAll Ms)
  | trans hp₁ _ ih₁ ih₂ => rw [ih₁ h, ih₂ ((hp₁.pairwise_iff Apart.symm).1 h)]

theorem filter_mul {p q : PartialRow ν → Prop} [DecidablePred p] [DecidablePred q] (h : ∀ a ∈ M, ∀ b ∈ N, (q (merge a b) ↔ p a)) :
    mul (M.filter p) N = (mul M N).filter q := by
  induction M using Multiset.induction_on with
  | empty => rfl
  | cons a M ih =>
    have hcons : ∀ S, mul (a ::ₘ S) N = N.map (merge a) + mul S N := fun S => Multiset.cons_bind a S _
    have ih := ih (fun b hb => h b (Multiset.mem_cons_of_mem hb))
    have ha := h a (Multiset.mem_cons_self a M)
    rw [hcons, Multiset.filter_add, ← ih]
    by_cases hp : p a
    · rw [Multiset.filter_cons_of_pos _ hp, hcons]
      congr 1
      rw [Multiset.filter_eq_self.2]
      intro c hc
      obtain ⟨b, hb, rfl⟩ := Multiset.mem_map.1 hc
      exact (ha b hb).2 hp
    · have hnone : (N.map (merge a)).filter q = 0 := by
        refine Multiset.filter_eq_nil.2 (fun c hc => ?_)
        obtain ⟨b, hb, rfl⟩ := Multiset.mem_map.1 hc
        exact fun hq => hp ((ha b hb).1 hq)
      rw [Multiset.filter_cons_of_neg _ hp, hnone, zero_add]

end Rows

/-! ## Trees -/

/-- A join tree over relations, with the conditions of each node. -/
inductive JoinShape {ι : Type} (ν : ι → Type) (κ : Type)
  | leaf (rows : Multiset (PartialRow ν))
  | node (left right : JoinShape ν κ) (conditions : List κ)

namespace JoinShape

open PartialRow Rows

variable {ι : Type} {ν : ι → Type} {κ : Type}

def leaves : JoinShape ν κ → List (Multiset (PartialRow ν))
  | leaf M     => [M]
  | node l r _ => leaves l ++ leaves r

def conditions : JoinShape ν κ → List κ
  | leaf _      => []
  | node l r cs => conditions l ++ conditions r ++ cs

variable (eval : κ → PartialRow ν → Option Bool)

/-- A value of a condition is kept by every larger row. -/
def Persistent : Prop := ∀ c a b v, eval c a = some v → Within a b → eval c b = some v

def rows : JoinShape ν κ → Multiset (PartialRow ν)
  | leaf M      => M
  | node l r cs => (mul (rows l) (rows r)).filter (fun a => ∀ c ∈ cs, eval c a = some true)

/-- Every condition has a value on every row that it is asked for. -/
def Defined : JoinShape ν κ → Prop
  | leaf _      => True
  | node l r cs => Defined l ∧ Defined r ∧ ∀ a ∈ mul (rows eval l) (rows eval r), ∀ c ∈ cs, eval c a ≠ none

variable {eval}

theorem apart_rows {P : Multiset (PartialRow ν)} : ∀ {t : JoinShape ν κ}, (∀ M ∈ t.leaves, Apart M P) → Apart (t.rows eval) P
  | leaf M, h => h M (List.mem_singleton_self M)
  | node l r cs, h => by
    have hl := apart_rows (t := l) (fun M hM => h M (List.mem_append_left _ hM))
    have hr := apart_rows (t := r) (fun M hM => h M (List.mem_append_right _ hM))
    exact fun a ha => hl.mul_left hr a (Multiset.mem_of_mem_filter ha)

/-- **The rows of a tree, next to other rows**: the product of its leaves, on which all its conditions hold.  By induction on
the tree; the rows of one side are among the other rows of the other. -/
theorem mul_rows (he : Persistent eval) : ∀ {t : JoinShape ν κ}, t.leaves.Pairwise Apart → t.Defined eval →
    ∀ {P : Multiset (PartialRow ν)}, (∀ M ∈ t.leaves, Apart M P) →
      mul (t.rows eval) P = (mul (mulAll t.leaves) P).filter (fun a => ∀ c ∈ t.conditions, eval c a = some true)
  | leaf M, _, _, P, _ => by
    have hone : mulAll [M] = M := mul_unit M
    rw [leaves, hone, Multiset.filter_eq_self.2 (fun a _ c hc => by cases hc)]
    rfl
  | node l r cs, hpair, hdef, P, hP => by
    obtain ⟨hpl, hpr, hlr⟩ := List.pairwise_append.1 hpair
    obtain ⟨hdl, hdr, hc⟩ := hdef
    have hPl : ∀ M ∈ l.leaves, Apart M P := fun M hM => hP M (List.mem_append_left _ hM)
    have hPr : ∀ M ∈ r.leaves, Apart M P := fun M hM => hP M (List.mem_append_right _ hM)
    have hMr : ∀ M ∈ l.leaves, Apart M (r.rows eval) := fun M hM => (apart_rows (fun N hN => (hlr M hM N hN).symm)).symm
    have hNl : ∀ N ∈ r.leaves, Apart N (mulAll l.leaves) := fun N hN => (apart_mulAll (fun M hM => hlr M hM N hN)).symm
    have hcond : ∀ a ∈ mul (l.rows eval) (r.rows eval), ∀ b ∈ P,
        ((∀ c ∈ cs, eval c (merge a b) = some true) ↔ ∀ c ∈ cs, eval c a = some true) := by
      intro a ha b _
      refine forall₂_congr (fun c hcs => ?_)
      obtain ⟨v, hv⟩ := Option.ne_none_iff_exists'.1 (hc a ha c hcs)
      rw [hv, he c a (merge a b) v hv (within_merge a b)]
    calc mul (rows eval (node l r cs)) P
        = (mul (mul (l.rows eval) (r.rows eval)) P).filter (fun a => ∀ c ∈ cs, eval c a = some true) := filter_mul hcond
      _ = (mul (l.rows eval) (mul (r.rows eval) P)).filter (fun a => ∀ c ∈ cs, eval c a = some true) := by rw [Rows.mul_assoc]
      _ = ((mul (mulAll l.leaves) (mul (r.rows eval) P)).filter (fun a => ∀ c ∈ l.conditions, eval c a = some true)).filter
            (fun a => ∀ c ∈ cs, eval c a = some true) := by
          rw [mul_rows he hpl hdl (fun M hM => (hMr M hM).mul_right (hPl M hM))]
      _ = ((mul (r.rows eval) (mul (mulAll l.leaves) P)).filter (fun a => ∀ c ∈ l.conditions, eval c a = some true)).filter
            (fun a => ∀ c ∈ cs, eval c a = some true) := by
          rw [mul_left_comm (apart_mulAll hMr)]
      _ = (((mul (mulAll r.leaves) (mul (mulAll l.leaves) P)).filter (fun a => ∀ c ∈ r.conditions, eval c a = some true)).filter
            (fun a => ∀ c ∈ l.conditions, eval c a = some true)).filter (fun a => ∀ c ∈ cs, eval c a = some true) := by
          rw [mul_rows he hpr hdr (fun N hN => (hNl N hN).mul_right (hPr N hN))]
      _ = (mul (mulAll (node l r cs).leaves) P).filter (fun a => ∀ c ∈ (node l r cs).conditions, eval c a = some true) := by
          rw [mul_left_comm (apart_mulAll (fun N hN => hNl N hN)), ← Rows.mul_assoc, ← mulAll_append, Multiset.filter_filter,
            Multiset.filter_filter]
          refine Multiset.filter_congr (fun a _ => ?_)
          simp only [conditions, List.mem_append, or_imp, forall_and]
          tauto

/-- **The shape of a tree does not matter**: two trees with the same leaves and the same conditions have the same rows. -/
theorem rows_eq_of_perm (he : Persistent eval) {t t' : JoinShape ν κ} (hl : t.leaves.Perm t'.leaves)
    (hc : t.conditions.Perm t'.conditions) (hpair : t.leaves.Pairwise Apart) (hd : t.Defined eval) (hd' : t'.Defined eval) :
    t.rows eval = t'.rows eval := by
  have hunit : ∀ M : Multiset (PartialRow ν), Apart M {empty} := by
    intro M a _ b hb i
    rw [Multiset.mem_singleton.1 hb]
    exact Or.inr rfl
  have h := mul_rows he hpair hd (fun M _ => hunit M)
  have h' := mul_rows he ((hl.pairwise_iff Apart.symm).1 hpair) hd' (fun M _ => hunit M)
  rw [mul_unit, mul_unit] at h h'
  rw [h, h', mulAll_perm hl hpair]
  exact Multiset.filter_congr (fun a _ => forall_congr' (fun c => by rw [hc.mem_iff]))

end JoinShape
