import Mathlib
/-!
# Spacing — cut points at even distances

The integer division `i * m / b` cuts the numbers from 0 to `m` into `b` parts: the cuts begin at 0, end at `m`, and the lengths
of two parts differ by at most one.
-/
namespace Spacing

/-- The `i`-th of `b + 1` cuts of the numbers up to `m`. -/
def cut (m b i : Nat) : Nat := i * m / b

variable {m b : Nat}

@[simp] theorem cut_zero (m b : Nat) : cut m b 0 = 0 := by
  unfold cut
  rw [Nat.zero_mul, Nat.zero_div]

theorem cut_last (hb : 0 < b) (m : Nat) : cut m b b = m := Nat.mul_div_cancel_left m hb

theorem cut_mono {i j : Nat} (h : i ≤ j) : cut m b i ≤ cut m b j := Nat.div_le_div_right (Nat.mul_le_mul_right m h)

theorem cut_le (hb : 0 < b) {i : Nat} (h : i ≤ b) : cut m b i ≤ m := (cut_mono h).trans (cut_last hb m).le

theorem cut_succ (hb : 0 < b) (i : Nat) : cut m b i + m / b ≤ cut m b (i + 1) ∧ cut m b (i + 1) ≤ cut m b i + m / b + 1 := by
  unfold cut
  rw [Nat.succ_mul, Nat.add_div hb]
  split <;> omega

/-- **Two parts differ in length by at most one.** -/
theorem steps_even (hb : 0 < b) (i j : Nat) : cut m b (i + 1) - cut m b i ≤ cut m b (j + 1) - cut m b j + 1 := by
  have hi := (cut_succ (m := m) hb i).2
  have hj := (cut_succ (m := m) hb j).1
  omega

theorem cut_lt_succ (hb : 0 < b) (hm : b ≤ m) (i : Nat) : cut m b i < cut m b (i + 1) := by
  have hpos : 0 < m / b := Nat.div_pos hm hb
  have hstep := (cut_succ (m := m) hb i).1
  omega

end Spacing
