import Mathlib
/-!
# Floats — the order of binary floating-point patterns

A pattern without its sign is an exponent and a fraction of `p` bits.  In units of the least positive number, its magnitude grows
strictly with the pattern, across the subnormal numbers and from each exponent to the next; so a pattern with its sign is in the
place of its number.
-/
namespace Floats

variable (p : Nat)

/-- The magnitude of a pattern in units of the least positive number: subnormal below exponent 1. -/
def units (n : Nat) : Nat := if n / 2 ^ p = 0 then n % 2 ^ p else (2 ^ p + n % 2 ^ p) * 2 ^ (n / 2 ^ p - 1)

variable {p}

theorem units_subnormal {n : Nat} (h : n / 2 ^ p = 0) : units p n = n % 2 ^ p := if_pos h

theorem units_normal {n : Nat} (h : n / 2 ^ p ≠ 0) : units p n = (2 ^ p + n % 2 ^ p) * 2 ^ (n / 2 ^ p - 1) := if_neg h

theorem succ_cases (n : Nat) :
    ((n + 1) / 2 ^ p = n / 2 ^ p ∧ (n + 1) % 2 ^ p = n % 2 ^ p + 1) ∨
      ((n + 1) / 2 ^ p = n / 2 ^ p + 1 ∧ (n + 1) % 2 ^ p = 0 ∧ n % 2 ^ p + 1 = 2 ^ p) := by
  have hpos : 0 < 2 ^ p := Nat.two_pow_pos p
  have hn := Nat.div_add_mod n (2 ^ p)
  have hlt := Nat.mod_lt n hpos
  by_cases hfull : n % 2 ^ p + 1 = 2 ^ p
  · have hnext : n + 1 = 2 ^ p * (n / 2 ^ p + 1) := by
      rw [Nat.mul_add, Nat.mul_one]
      omega
    refine .inr ⟨?_, ?_, hfull⟩
    · rw [hnext, Nat.mul_div_cancel_left _ hpos]
    · rw [hnext, Nat.mul_mod_right]
  · have hnext : n + 1 = (n % 2 ^ p + 1) + 2 ^ p * (n / 2 ^ p) := by omega
    have hsmall : n % 2 ^ p + 1 < 2 ^ p := by omega
    refine .inl ⟨?_, ?_⟩
    · rw [hnext, Nat.add_mul_div_left _ _ hpos, Nat.div_eq_of_lt hsmall, Nat.zero_add]
    · conv_lhs => rw [hnext]
      rw [Nat.add_mul_mod_self_left, Nat.mod_eq_of_lt hsmall]

/-- **Magnitudes grow strictly with the pattern.** -/
theorem units_strictMono (p : Nat) : StrictMono (units p) := by
  refine strictMono_nat_of_lt_succ (fun n => ?_)
  rcases succ_cases (p := p) n with ⟨hdiv, hmod⟩ | ⟨hdiv, hmod, hfull⟩
  · by_cases h0 : n / 2 ^ p = 0
    · rw [units_subnormal h0, units_subnormal (hdiv.trans h0), hmod]
      exact Nat.lt_succ_self _
    · rw [units_normal h0, units_normal (by rw [hdiv]; exact h0), hdiv, hmod]
      exact Nat.mul_lt_mul_of_pos_right (by omega) (Nat.two_pow_pos _)
  · rw [units_normal (n := n + 1) (by rw [hdiv]; exact Nat.succ_ne_zero _), hdiv, hmod, Nat.add_zero, Nat.add_sub_cancel]
    by_cases h0 : n / 2 ^ p = 0
    · rw [units_subnormal h0, h0, Nat.pow_zero, Nat.mul_one]
      exact Nat.mod_lt n (Nat.two_pow_pos p)
    · obtain ⟨e, he⟩ := Nat.exists_eq_succ_of_ne_zero h0
      rw [units_normal h0, he, Nat.succ_sub_one, Nat.pow_succ, ← Nat.mul_assoc, Nat.mul_right_comm]
      exact Nat.mul_lt_mul_of_pos_right (by omega) (Nat.two_pow_pos _)

/-! ## Signed places -/

variable (p)

/-- The number of a place: a negative place has the opposite number. -/
def number (place : Int) : Int := if place < 0 then -(units p place.natAbs) else units p place.natAbs

variable {p}

theorem number_strictMono (p : Nat) : StrictMono (number p) := by
  intro a b hab
  have hmono := units_strictMono p
  unfold number
  by_cases ha : a < 0
  · rw [if_pos ha]
    have hpos : 0 < units p a.natAbs := (Nat.zero_le _).trans_lt (hmono (Int.natAbs_pos.2 (ne_of_lt ha)))
    by_cases hb : b < 0
    · rw [if_pos hb]
      have hlt := hmono (show b.natAbs < a.natAbs by omega)
      omega
    · rw [if_neg hb]
      omega
  · rw [if_neg ha, if_neg (by omega)]
    have hlt := hmono (show a.natAbs < b.natAbs by omega)
    omega

theorem number_lt_iff {a b : Int} : number p a < number p b ↔ a < b := (number_strictMono p).lt_iff_lt

end Floats
