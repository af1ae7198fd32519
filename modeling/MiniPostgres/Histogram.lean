import MiniPostgres.Statistics
import MiniPostgres.Lib.Spacing
/-!
# Histogram — equi-depth bounds

`equi_depth_bounds` of `maintenance/analyze.py` for values of any type with a `<`: the bounds are taken from the sorted list, at
positions that are evenly spaced between its two ends.
-/
namespace MiniPostgres

open Spacing Operators

variable {T : Type}

/-- `equi_depth_bounds`. -/
def equiDepthBoundsOf (lt : T → T → Bool) (values : List T) (bucketCount : Nat) : Result (List T) :=
  if bucketCount = 0 then raise .valueError "bucket_count must be positive"
  else if values.isEmpty then .ok []
  else
    let ordered := values.insertionSort (fun a b => lt b a = false)
    if ordered.length = 1 then do
      let only ← subscript ordered 0
      .ok [only]
    else
      let buckets := min bucketCount (ordered.length - 1)
      (List.range (buckets + 1)).mapM (fun index => subscript ordered (index * (ordered.length - 1) / buckets))

/-- `<` orders the values totally, up to ties. -/
structure TotallyOrdered (lt : T → T → Bool) (values : List T) : Prop where
  asymm : ∀ a ∈ values, ∀ b ∈ values, lt a b = true → lt b a = false
  trans : ∀ a ∈ values, ∀ b ∈ values, ∀ c ∈ values, lt b a = false → lt c b = false → lt c a = false

/-- **Equi-depth bounds**: so many, in order, from the least value to the greatest, and taken from a sorting of the values at
increasing positions, of which no two successive distances differ by more than one. -/
structure EquiDepth (lt : T → T → Bool) (values : List T) (bucketCount : Nat) (bounds : List T) : Prop where
  length   : bounds.length = min bucketCount (values.length - 1) + 1
  elements : ∀ b ∈ bounds, b ∈ values
  sorted   : bounds.Pairwise (fun a b => lt b a = false)
  least    : ∃ m ∈ values, bounds.head? = some m ∧ ∀ v ∈ values, lt v m = false
  greatest : ∃ m ∈ values, bounds.getLast? = some m ∧ ∀ v ∈ values, lt m v = false
  spaced   : ∃ (ordered : List T) (position : Nat → Nat), ordered.Perm values ∧ ordered.Pairwise (fun a b => lt b a = false) ∧
    (∀ i < bounds.length, bounds[i]? = ordered[position i]?) ∧ position 0 = 0 ∧
    position (bounds.length - 1) = values.length - 1 ∧ (∀ i, i + 1 < bounds.length → position i < position (i + 1)) ∧
    ∀ i j, i + 1 < bounds.length → j + 1 < bounds.length → position (i + 1) - position i ≤ position (j + 1) - position j + 1

section Sorted

variable {lt : T → T → Bool} {values : List T}

theorem TotallyOrdered.irrefl (h : TotallyOrdered lt values) {a : T} (ha : a ∈ values) : lt a a = false := by
  cases haa : lt a a with
  | false => rfl
  | true => rw [h.asymm a ha a ha haa] at haa; cases haa

theorem TotallyOrdered.sorted (h : TotallyOrdered lt values) :
    (values.insertionSort (fun a b => lt b a = false)).Pairwise (fun a b => lt b a = false) := by
  refine List.pairwise_insertionSort_of (fun a b ha hb => ?_)
    (fun a b c ha hb hc hab hbc => h.trans a ha b hb c hc hab hbc) values
    (fun _ ha => ha)
  cases hba : lt b a with
  | false => exact .inl rfl
  | true => exact .inr (h.asymm b hb a ha hba)

theorem TotallyOrdered.at_le (h : TotallyOrdered lt values) {ordered : List T} (hperm : ordered.Perm values)
    (hs : ordered.Pairwise (fun a b => lt b a = false)) {i j : Nat} (hij : i ≤ j) {a b : T} (ha : ordered[i]? = some a)
    (hb : ordered[j]? = some b) : lt b a = false := by
  obtain ⟨hi, rfl⟩ := List.getElem?_eq_some_iff.1 ha
  obtain ⟨hj, rfl⟩ := List.getElem?_eq_some_iff.1 hb
  rcases Nat.eq_or_lt_of_le hij with rfl | hlt
  · exact h.irrefl (hperm.mem_iff.1 (List.getElem_mem hi))
  · exact List.pairwise_iff_getElem.1 hs i j hi hj hlt

theorem TotallyOrdered.equiDepth (h : TotallyOrdered lt values) {ordered : List T} (hperm : ordered.Perm values)
    (hs : ordered.Pairwise (fun a b => lt b a = false)) (hne : values ≠ []) {bucketCount : Nat} (hb : 0 < bucketCount)
    {bounds : List T} (hlen : bounds.length = min bucketCount (values.length - 1) + 1)
    (hat : ∀ i < bounds.length, bounds[i]? = ordered[cut (values.length - 1) (min bucketCount (values.length - 1)) i]?) :
    EquiDepth lt values bucketCount bounds := by
  have hn : 0 < values.length := List.length_pos_iff.2 hne
  have hlast : bounds.length - 1 = min bucketCount (values.length - 1) := by omega
  -- With one value there is one bound, at position 0.
  have hend : cut (values.length - 1) (min bucketCount (values.length - 1)) (bounds.length - 1) = values.length - 1 := by
    rw [hlast]
    rcases Nat.eq_zero_or_pos (min bucketCount (values.length - 1)) with h0 | hpos
    · rw [h0, cut_zero]
      omega
    · exact cut_last hpos _
  have hsteps : ∀ i, i + 1 < bounds.length → 0 < min bucketCount (values.length - 1) := fun i hi => by omega
  have helement : ∀ b ∈ bounds, b ∈ values := by
    intro b hb
    obtain ⟨i, hi, rfl⟩ := List.mem_iff_getElem.1 hb
    have hget := hat i hi
    rw [List.getElem?_eq_getElem hi] at hget
    exact hperm.mem_iff.1 (List.mem_of_getElem? hget.symm)
  have hplace : ∀ v ∈ values, ∃ j, j ≤ values.length - 1 ∧ ordered[j]? = some v := by
    intro v hv
    obtain ⟨j, hj, hjv⟩ := List.mem_iff_getElem.1 (hperm.mem_iff.2 hv)
    exact ⟨j, by rw [← hperm.length_eq]; omega, by rw [List.getElem?_eq_getElem hj, hjv]⟩
  have hfirst : bounds[0]? = ordered[0]? := by
    rw [hat 0 (by omega), cut_zero]
  have hfinal : bounds[bounds.length - 1]? = ordered[values.length - 1]? := by
    rw [hat (bounds.length - 1) (by omega), hend]
  refine ⟨hlen, helement, ?_, ?_, ?_, ordered, cut (values.length - 1) (min bucketCount (values.length - 1)), hperm, hs, hat,
    cut_zero _ _, hend, fun i hi => cut_lt_succ (hsteps i hi) (min_le_right _ _) i, fun i j hi _ => steps_even (hsteps i hi) i j⟩
  · rw [List.pairwise_iff_getElem]
    intro i j hi hj hij
    have hgi := hat i hi
    have hgj := hat j hj
    rw [List.getElem?_eq_getElem hi] at hgi
    rw [List.getElem?_eq_getElem hj] at hgj
    exact h.at_le hperm hs (cut_mono hij.le) hgi.symm hgj.symm
  · have h0 : 0 < bounds.length := by omega
    refine ⟨bounds[0], helement _ (List.getElem_mem h0), by rw [List.head?_eq_getElem?, List.getElem?_eq_getElem h0],
      fun v hv => ?_⟩
    obtain ⟨j, -, hj⟩ := hplace v hv
    rw [List.getElem?_eq_getElem h0] at hfirst
    exact h.at_le hperm hs (Nat.zero_le j) hfirst.symm hj
  · have hl : bounds.length - 1 < bounds.length := by omega
    refine ⟨bounds[bounds.length - 1], helement _ (List.getElem_mem hl),
      by rw [List.getLast?_eq_getElem?, List.getElem?_eq_getElem hl], fun v hv => ?_⟩
    obtain ⟨j, hle, hj⟩ := hplace v hv
    rw [List.getElem?_eq_getElem hl] at hfinal
    exact h.at_le hperm hs hle hj hfinal.symm

end Sorted

/-- **Histogram bounds are equi-depth.** -/
theorem equi_depth_bounds {lt : T → T → Bool} {values : List T} (h : TotallyOrdered lt values) (hne : values ≠ [])
    {bucketCount : Nat} (hb : 0 < bucketCount) :
    ∃ bounds, equiDepthBoundsOf lt values bucketCount = .ok bounds ∧ EquiDepth lt values bucketCount bounds := by
  have hperm : (values.insertionSort (fun a b => lt b a = false)).Perm values := List.perm_insertionSort _ _
  have hs := h.sorted
  unfold equiDepthBoundsOf
  rw [if_neg (by omega), if_neg (by rw [List.isEmpty_iff]; exact hne)]
  generalize values.insertionSort (fun a b => lt b a = false) = ordered at hperm hs ⊢
  have hlen := hperm.length_eq
  have hn : 0 < values.length := List.length_pos_iff.2 hne
  by_cases h1 : ordered.length = 1
  · obtain ⟨v, rfl⟩ := List.length_eq_one_iff.1 h1
    refine ⟨[v], rfl, h.equiDepth hperm hs hne hb (by rw [← hlen]; simp) (fun i hi => ?_)⟩
    obtain rfl : i = 0 := by simpa using hi
    rw [cut_zero]
  · simp only [if_neg h1]
    have hpos : 0 < min bucketCount (ordered.length - 1) := by omega
    have hin : ∀ index ∈ List.range (min bucketCount (ordered.length - 1) + 1),
        ∃ v, subscript ordered (index * (ordered.length - 1) / min bucketCount (ordered.length - 1)) = .ok v := by
      intro index hi
      have hle := cut_le (m := ordered.length - 1) hpos (Nat.le_of_lt_succ (List.mem_range.1 hi))
      unfold cut at hle
      exact ⟨_, subscript_eq_ok.2 (List.getElem?_eq_getElem (by omega))⟩
    obtain ⟨bounds, hbounds, hall⟩ := mapM_returns _ hin
    have hcount : bounds.length = min bucketCount (values.length - 1) + 1 := by
      rw [← hall.length_eq, List.length_range, hlen]
    refine ⟨bounds, hbounds, h.equiDepth hperm hs hne hb hcount (fun i hi => ?_)⟩
    have hget := List.Forall₂.get hall (by rw [List.length_range, hlen]; omega) hi
    rw [subscript_eq_ok, List.get_eq_getElem, List.getElem_range] at hget
    rw [List.getElem?_eq_getElem hi, ← hlen]
    exact hget.symm

/-- Three bounds of four numbers. -/
theorem equi_depth_bounds_four : ∃ bounds, equiDepthBoundsOf (fun a b : Nat => decide (a < b)) [3, 1, 4, 1] 2 = .ok bounds ∧
    EquiDepth (fun a b : Nat => decide (a < b)) [3, 1, 4, 1] 2 bounds :=
  equi_depth_bounds ⟨by decide, by decide⟩ (by decide) (by decide)

end MiniPostgres
