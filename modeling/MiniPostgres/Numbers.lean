import MiniPostgres.Volcano
import MiniPostgres.Lib.Floats
/-!
# Numbers — the order of floats is that of their numbers

`floatPlace` orders the patterns of floats as signed integers.  Here is that this is the numeric order: the exact value of a
pattern that is not a NaN, with the two infinities at the ends, grows with its place.
-/
namespace MiniPostgres

/-- The exponent field. -/
def exponentOf (bits : BitVec 64) : Nat := bits.toNat / 2 ^ 52 % 2 ^ 11

/-- **The value of a float**, exactly. -/
def floatValue (bits : BitVec 64) : WithBot (WithTop ℚ) :=
  if exponentOf bits = 2047 then (if 2 ^ 63 ≤ bits.toNat then ⊥ else ((⊤ : WithTop ℚ) : WithBot (WithTop ℚ)))
  else ((floatNumber bits : WithTop ℚ) : WithBot (WithTop ℚ))

theorem natAbs_floatPlace (bits : BitVec 64) : (floatPlace bits).natAbs = bits.toNat % 2 ^ 63 := by
  have hlt := bits.isLt
  unfold floatPlace
  split <;> omega

theorem floatPlace_neg_iff (bits : BitVec 64) : floatPlace bits < 0 ↔ 2 ^ 63 < bits.toNat := by
  have hlt := bits.isLt
  unfold floatPlace
  split <;> omega

theorem units_eq (bits : BitVec 64) : (Floats.units 52 (bits.toNat % 2 ^ 63) : ℚ) / 2 ^ 1074 =
    if exponentOf bits = 0 then ((bits.toNat % 2 ^ 52 : Nat) : ℚ) / 2 ^ 1074
    else ((2 ^ 52 + bits.toNat % 2 ^ 52 : Nat) : ℚ) * 2 ^ exponentOf bits / 2 ^ 1075 := by
  have hdiv : bits.toNat % 2 ^ 63 / 2 ^ 52 = exponentOf bits := by
    unfold exponentOf
    omega
  have hmod : bits.toNat % 2 ^ 63 % 2 ^ 52 = bits.toNat % 2 ^ 52 := by omega
  by_cases h0 : exponentOf bits = 0
  · rw [if_pos h0, Floats.units_subnormal (hdiv.trans h0), hmod]
  · rw [if_neg h0, Floats.units_normal (by rw [hdiv]; exact h0), hdiv, hmod]
    obtain ⟨e, he⟩ := Nat.exists_eq_succ_of_ne_zero h0
    generalize 2 ^ 52 + bits.toNat % 2 ^ 52 = significand
    rw [he, Nat.succ_sub_one, Nat.cast_mul, Nat.cast_pow, Nat.cast_ofNat, Nat.succ_eq_add_one, pow_succ (2 : ℚ) e,
      show (2 : ℚ) ^ 1075 = 2 ^ 1074 * 2 from pow_succ _ _, ← mul_assoc, mul_div_mul_right _ _ (two_ne_zero)]

/-- **The number of a finite float** is that of its place. -/
theorem floatNumber_eq (bits : BitVec 64) : floatNumber bits = (Floats.number 52 (floatPlace bits) : ℚ) / 2 ^ 1074 := by
  have hunits := units_eq bits
  have hlt := bits.isLt
  unfold floatNumber
  simp only
  rw [show bits.toNat / 2 ^ 52 % 2 ^ 11 = exponentOf bits from rfl, ← hunits, Floats.number, natAbs_floatPlace]
  by_cases hneg : floatPlace bits < 0
  · have hsign := (floatPlace_neg_iff bits).1 hneg
    rw [if_pos hneg, if_pos hsign.le, Int.cast_neg, Int.cast_natCast, neg_div]
  · rw [if_neg hneg, Int.cast_natCast]
    split
    · -- the negative zero
      rename_i hsign
      have hzero : bits.toNat % 2 ^ 63 = 0 := by
        have := mt (floatPlace_neg_iff bits).2 hneg
        omega
      rw [hzero, show Floats.units 52 0 = 0 from rfl]
      simp
    · rfl

theorem floatNumber_lt_iff {a b : BitVec 64} : floatNumber a < floatNumber b ↔ floatPlace a < floatPlace b := by
  rw [floatNumber_eq, floatNumber_eq, div_lt_div_iff_of_pos_right (by positivity), Int.cast_lt, Floats.number_lt_iff]

theorem exponent_infinite_iff (bits : BitVec 64) :
    exponentOf bits = 2047 ↔ 2047 * 2 ^ 52 ≤ (floatPlace bits).natAbs := by
  rw [natAbs_floatPlace]
  unfold exponentOf
  omega

theorem place_infinite {bits : BitVec 64} (h : isNan bits = false) (he : exponentOf bits = 2047) :
    floatPlace bits = if 2 ^ 63 ≤ bits.toNat then -(2047 * 2 ^ 52) else 2047 * 2 ^ 52 := by
  have hlt := bits.isLt
  have hfraction : bits.toNat % 2 ^ 52 = 0 := by
    have hn : ¬(bits.toNat / 2 ^ 52 % 2 ^ 11 = 2 ^ 11 - 1 ∧ bits.toNat % 2 ^ 52 ≠ 0) := by simpa [isNan] using h
    by_contra hne
    exact hn ⟨he, hne⟩
  unfold exponentOf at he
  unfold floatPlace
  split <;> omega

/-- **Floats that are not NaN are in the order of their places.** -/
theorem floatValue_lt_iff {a b : BitVec 64} (ha : isNan a = false) (hb : isNan b = false) :
    floatValue a < floatValue b ↔ floatPlace a < floatPlace b := by
  have hfa := exponent_infinite_iff a
  have hfb := exponent_infinite_iff b
  unfold floatValue
  by_cases hia : exponentOf a = 2047
  · have hpa := place_infinite ha hia
    rw [if_pos hia]
    by_cases hib : exponentOf b = 2047
    · have hpb := place_infinite hb hib
      rw [if_pos hib, hpa, hpb]
      by_cases hsa : 2 ^ 63 ≤ a.toNat <;> by_cases hsb : 2 ^ 63 ≤ b.toNat
      · rw [if_pos hsa, if_pos hsb, if_pos hsa, if_pos hsb, lt_self_iff_false, lt_self_iff_false]
      · rw [if_pos hsa, if_neg hsb, if_pos hsa, if_neg hsb]
        exact ⟨fun _ => by decide, fun _ => WithBot.bot_lt_coe _⟩
      · rw [if_neg hsa, if_pos hsb, if_neg hsa, if_pos hsb]
        exact ⟨fun hlt => absurd hlt not_lt_bot, fun hlt => absurd hlt (by decide)⟩
      · rw [if_neg hsa, if_neg hsb, if_neg hsa, if_neg hsb, lt_self_iff_false, lt_self_iff_false]
    · rw [if_neg hib, hpa]
      have hsmall := mt hfb.2 hib
      by_cases hsa : 2 ^ 63 ≤ a.toNat
      · rw [if_pos hsa, if_pos hsa]
        exact ⟨fun _ => by omega, fun _ => WithBot.bot_lt_coe _⟩
      · rw [if_neg hsa, if_neg hsa]
        refine ⟨fun hlt => absurd (WithBot.coe_lt_coe.1 hlt) not_top_lt, fun hlt => ?_⟩
        omega
  · rw [if_neg hia]
    have hsmall := mt hfa.2 hia
    by_cases hib : exponentOf b = 2047
    · have hpb := place_infinite hb hib
      rw [if_pos hib, hpb]
      by_cases hsb : 2 ^ 63 ≤ b.toNat
      · rw [if_pos hsb, if_pos hsb]
        refine ⟨fun hlt => absurd hlt not_lt_bot, fun hlt => ?_⟩
        omega
      · rw [if_neg hsb, if_neg hsb]
        exact ⟨fun _ => by omega, fun _ => WithBot.coe_lt_coe.2 (WithTop.coe_lt_top _)⟩
    · rw [if_neg hib, WithBot.coe_lt_coe, WithTop.coe_lt_coe, floatNumber_lt_iff]

end MiniPostgres
