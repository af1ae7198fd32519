import Mathlib
/-!
# Groups — the items of a list by what they have in common

`firstGroups` takes the first item with all items like it, and goes on with the others.  A loop that puts every item into the
first group whose first item is like it makes the same groups, whatever "like" is.
-/

namespace Groups

variable {α : Type}

/-- The groups of a list in the order of their first items. -/
def firstGroups (like : α → α → Bool) : List α → List (α × List α)
  | []      => []
  | x :: xs => (x, x :: xs.filter (like x)) :: firstGroups like (xs.filter (fun y => !like x y))
  termination_by xs => xs.length
  decreasing_by
    rw [List.length_unattach]
    exact Nat.lt_succ_of_le ((List.length_filter_le _ _).trans_eq List.length_attach)

/-- One turn of the loop. -/
def put (like : α → α → Bool) (x : α) : List (α × List α) → List (α × List α)
  | []      => [(x, [x])]
  | g :: gs => if like g.1 x then (g.1, g.2 ++ [x]) :: gs else g :: put like x gs

/-- Some groups, and the items that are still to be put. -/
def spread (like : α → α → Bool) : List (α × List α) → List α → List (α × List α)
  | [], xs      => firstGroups like xs
  | g :: gs, xs => (g.1, g.2 ++ xs.filter (like g.1)) :: spread like gs (xs.filter (fun y => !like g.1 y))

theorem spread_nil (like : α → α → Bool) : ∀ gs : List (α × List α), spread like gs [] = gs
  | []      => by rw [spread, firstGroups]
  | g :: gs => by rw [spread, List.filter_nil, List.append_nil, List.filter_nil, spread_nil like gs]

theorem spread_put (like : α → α → Bool) (x : α) : ∀ (gs : List (α × List α)) (xs : List α),
    spread like (put like x gs) xs = spread like gs (x :: xs)
  | [], xs      => by rw [put, spread, spread, spread, firstGroups, List.singleton_append]
  | g :: gs, xs => by
    rw [put]
    cases hx : like g.1 x with
    | true =>
      simp only [if_true, spread, List.filter_cons, hx, Bool.not_true, Bool.false_eq_true, if_false, List.append_assoc,
        List.singleton_append]
    | false =>
      simp only [Bool.false_eq_true, if_false, spread, List.filter_cons, hx, Bool.not_false, if_true]
      rw [spread_put like x gs]

/-- **The loop makes the groups of the list.** -/
theorem foldl_put (like : α → α → Bool) (xs : List α) : xs.foldl (fun gs x => put like x gs) [] = firstGroups like xs := by
  have hloop : ∀ (xs : List α) (gs : List (α × List α)), xs.foldl (fun gs x => put like x gs) gs = spread like gs xs := by
    intro xs
    induction xs with
    | nil => exact fun gs => (spread_nil like gs).symm
    | cons x xs ih =>
      intro gs
      rw [List.foldl_cons, ih, spread_put]
  exact (hloop xs []).trans (by rw [spread])

end Groups
