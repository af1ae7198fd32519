import MiniPostgres.Lib.Groups
/-!
# Tally — how often the items of a list occur, and its quantiles

The groups of items with one image count how often each image occurs.  A stable sort by an order that is only total on the
items at hand still sorts them, and the cut points of a sorted list are sorted.
-/

namespace Groups

variable {α β : Type} [DecidableEq β]

/-- Items with one image are alike. -/
def same (f : α → β) (a b : α) : Bool := decide (f a = f b)

/-- **A group is its first item with every item like it.** -/
theorem mem_firstGroups_same (f : α → β) : ∀ (n : Nat) (l : List α), l.length ≤ n → ∀ g ∈ firstGroups (same f) l,
    g.1 ∈ l ∧ g.2 = l.filter (same f g.1)
  | _, [], _, g, hg => by rw [firstGroups] at hg; cases hg
  | 0, _ :: _, hn, _, _ => absurd hn (by simp)
  | n + 1, x :: xs, hn, g, hg => by
    rw [firstGroups] at hg
    rcases List.mem_cons.1 hg with rfl | hg
    · refine ⟨List.mem_cons_self, ?_⟩
      rw [List.filter_cons_of_pos (by simp [same])]
    · have hlen : (xs.filter (fun y => !same f x y)).length ≤ n :=
        (List.length_filter_le _ _).trans (Nat.le_of_succ_le_succ hn)
      obtain ⟨hmem, hmembers⟩ := mem_firstGroups_same f n _ hlen g hg
      obtain ⟨hxs, hother⟩ := List.mem_filter.1 hmem
      have hne : f x ≠ f g.1 := by simpa [same] using hother
      refine ⟨List.mem_cons_of_mem _ hxs, ?_⟩
      rw [hmembers, List.filter_cons_of_neg (by simpa [same] using Ne.symm hne), List.filter_filter]
      refine List.filter_congr (fun y _ => ?_)
      by_cases hy : f g.1 = f y
      · simp [same, hy, hy ▸ hne]
      · simp [same, hy]

theorem exists_firstGroup (f : α → β) : ∀ (n : Nat) (l : List α), l.length ≤ n → ∀ a ∈ l,
    ∃ g ∈ firstGroups (same f) l, f g.1 = f a
  | _, [], _, _, ha => by cases ha
  | 0, _ :: _, hn, _, _ => absurd hn (by simp)
  | n + 1, x :: xs, hn, a, ha => by
    rw [firstGroups]
    by_cases hx : f x = f a
    · exact ⟨_, List.mem_cons_self, hx⟩
    · have hxs : a ∈ xs := (List.mem_cons.1 ha).resolve_left (fun h => hx (h ▸ rfl))
      have hlen : (xs.filter (fun y => !same f x y)).length ≤ n :=
        (List.length_filter_le _ _).trans (Nat.le_of_succ_le_succ hn)
      obtain ⟨g, hg, hga⟩ := exists_firstGroup f n _ hlen a (List.mem_filter.2 ⟨hxs, by simpa [same] using hx⟩)
      exact ⟨g, List.mem_cons_of_mem _ hg, hga⟩

/-- **No two groups have one image.** -/
theorem nodup_firstGroups (f : α → β) : ∀ (n : Nat) (l : List α), l.length ≤ n →
    ((firstGroups (same f) l).map (fun g => f g.1)).Nodup
  | _, [], _ => by rw [firstGroups]; exact List.nodup_nil
  | 0, _ :: _, hn => absurd hn (by simp)
  | n + 1, x :: xs, hn => by
    have hlen : (xs.filter (fun y => !same f x y)).length ≤ n :=
      (List.length_filter_le _ _).trans (Nat.le_of_succ_le_succ hn)
    rw [firstGroups, List.map_cons, List.nodup_cons]
    refine ⟨fun hm => ?_, nodup_firstGroups f n _ hlen⟩
    obtain ⟨g, hg, hgx⟩ := List.mem_map.1 hm
    have hother := (List.mem_filter.1 (mem_firstGroups_same f n _ hlen g hg).1).2
    simp [same, hgx] at hother

/-- **The groups have as many items as the list.** -/
theorem sum_firstGroups (like : α → α → Bool) : ∀ (n : Nat) (l : List α), l.length ≤ n → (∀ a, like a a = true) →
    ((firstGroups like l).map (fun g => g.2.length)).sum = l.length
  | _, [], _, _ => by rw [firstGroups]; rfl
  | 0, _ :: _, hn, _ => absurd hn (by simp)
  | n + 1, x :: xs, hn, hlike => by
    have hlen : (xs.filter (fun y => !like x y)).length ≤ n :=
      (List.length_filter_le _ _).trans (Nat.le_of_succ_le_succ hn)
    rw [firstGroups, List.map_cons, List.sum_cons, sum_firstGroups like n _ hlen hlike, List.length_cons, List.length_cons]
    have hsplit := List.length_eq_length_filter_add (l := xs) (like x)
    omega

theorem length_firstGroups (f : α → β) (l : List α) : (firstGroups (same f) l).length = ((l.map f).dedup).length := by
  have hnd := nodup_firstGroups f l.length l le_rfl
  have hperm : ((firstGroups (same f) l).map (fun g => f g.1)).Perm (l.map f).dedup := by
    refine (List.perm_ext_iff_of_nodup hnd (List.nodup_dedup _)).2 (fun b => ?_)
    rw [List.mem_dedup, List.mem_map, List.mem_map]
    constructor
    · rintro ⟨g, hg, rfl⟩
      exact ⟨g.1, (mem_firstGroups_same f l.length l le_rfl g hg).1, rfl⟩
    · rintro ⟨a, ha, rfl⟩
      exact exists_firstGroup f l.length l le_rfl a ha
  rw [← hperm.length_eq, List.length_map]

end Groups

namespace List

variable {α : Type}

/-- **Sorting by an order that is total and transitive on the items of the list sorts it.** -/
theorem pairwise_insertionSort_of {r : α → α → Prop} [DecidableRel r] {P : α → Prop}
    (htotal : ∀ a b, P a → P b → r a b ∨ r b a) (htrans : ∀ a b c, P a → P b → P c → r a b → r b c → r a c) :
    ∀ l : List α, (∀ a ∈ l, P a) → (l.insertionSort r).Pairwise r
  | [], _ => Pairwise.nil
  | a :: l, hl => by
    have hinsert : ∀ l : List α, (∀ b ∈ l, P b) → l.Pairwise r → (l.orderedInsert r a).Pairwise r := by
      intro l
      induction l with
      | nil => exact fun _ _ => pairwise_singleton r a
      | cons b l ih =>
        intro hP hs
        have ha := hl a mem_cons_self
        have hb := hP b mem_cons_self
        rw [orderedInsert]
        split
        · rename_i hab
          refine pairwise_cons.2 ⟨fun c hc => ?_, hs⟩
          rcases mem_cons.1 hc with rfl | hc
          · exact hab
          · exact htrans a b c ha hb (hP c (mem_cons_of_mem _ hc)) hab (rel_of_pairwise_cons hs hc)
        · rename_i hab
          refine pairwise_cons.2 ⟨fun c hc => ?_, ih (fun c hc => hP c (mem_cons_of_mem _ hc)) hs.of_cons⟩
          rcases mem_cons.1 ((perm_orderedInsert r a l).mem_iff.1 hc) with rfl | hc
          · exact (htotal c b ha hb).resolve_left hab
          · exact rel_of_pairwise_cons hs hc
    rw [insertionSort_cons]
    refine hinsert _ (fun b hb => ?_) (pairwise_insertionSort_of htotal htrans l (fun b hb => hl b (mem_cons_of_mem _ hb)))
    exact hl b (mem_cons_of_mem _ ((perm_insertionSort r l).mem_iff.1 hb))

/-- `bounds` cuts `ordered` at equal distances, both ends among the cut points, into at most `buckets` parts. -/
def QuantilesOf (buckets : Nat) (ordered bounds : List α) : Prop :=
  bounds.length = min (buckets + 1) ordered.length ∧
    ∀ i < bounds.length, bounds[i]? = ordered[i * (ordered.length - 1) / (bounds.length - 1)]?

end List
