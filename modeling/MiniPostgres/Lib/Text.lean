import Mathlib
/-!
# Text — positions and runs

A text is a list over any alphabet with a line break.  The place after a text is the 1-based line and column of what follows
it; a run is the longest beginning of a text whose characters all have a property.
-/
namespace Text

variable {α : Type} [DecidableEq α]

/-! ## Lines and columns -/

/-- The line of what follows the text. -/
def lineAfter (newline : α) (before : List α) : Nat := 1 + before.count newline

/-- The column of what follows the text: one more than its characters since the last line break. -/
def columnAfter (newline : α) (before : List α) : Nat := 1 + (before.reverse.takeWhile (fun c => decide (c ≠ newline))).length

variable {newline : α}

theorem lineAfter_newline (before : List α) : lineAfter newline (before ++ [newline]) = lineAfter newline before + 1 := by
  unfold lineAfter
  rw [List.count_append, List.count_singleton_self]
  omega

theorem columnAfter_newline (before : List α) : columnAfter newline (before ++ [newline]) = 1 := by
  unfold columnAfter
  rw [List.reverse_append, List.reverse_singleton, List.singleton_append, List.takeWhile_cons_of_neg (by simp)]
  rfl

theorem lineAfter_other {c : α} (h : c ≠ newline) (before : List α) :
    lineAfter newline (before ++ [c]) = lineAfter newline before := by
  unfold lineAfter
  rw [List.count_append, List.count_eq_zero.2 (fun hm => h (List.mem_singleton.1 hm).symm), Nat.add_zero]

theorem columnAfter_other {c : α} (h : c ≠ newline) (before : List α) :
    columnAfter newline (before ++ [c]) = columnAfter newline before + 1 := by
  unfold columnAfter
  rw [List.reverse_append, List.reverse_singleton, List.singleton_append, List.takeWhile_cons_of_pos (by simpa using h),
    List.length_cons]
  omega

/-! ## Runs -/

omit [DecidableEq α]

variable {p : α → Bool}

/-- The length of the longest beginning with the property. -/
def runLength (p : α → Bool) (text : List α) : Nat := (text.takeWhile p).length

theorem runLength_le (p : α → Bool) (text : List α) : runLength p text ≤ text.length :=
  (List.takeWhile_prefix p).length_le

theorem runLength_pos {c : α} {text : List α} (h : p c = true) : 0 < runLength p (c :: text) := by
  unfold runLength
  rw [List.takeWhile_cons_of_pos h]
  exact Nat.succ_pos _

theorem runLength_all {text : List α} (h : ∀ c ∈ text, p c = true) : runLength p text = text.length := by
  unfold runLength
  rw [List.takeWhile_eq_self_iff.2 h]

end Text
