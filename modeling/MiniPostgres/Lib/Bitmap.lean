import Mathlib
/-!
# Bitmap — bits of a list of bytes, the lowest of each byte first
-/
namespace Bitmap

/-- Bit `i`; the bits after the end are not set. -/
def getBit (bytes : List UInt8) (i : Nat) : Bool := ((bytes[i / 8]?).map (fun b => b.toNat.testBit (i % 8))).getD false

def setBit (bytes : List UInt8) (i : Nat) : List UInt8 :=
  bytes.modify (i / 8) (fun b => UInt8.ofNat (b.toNat ||| 1 <<< (i % 8)))

@[simp] theorem length_setBit (bytes : List UInt8) (i : Nat) : (setBit bytes i).length = bytes.length := List.length_modify _ _ _

theorem testBit_or (b : UInt8) {k : Nat} (hk : k < 8) (j : Nat) :
    (UInt8.ofNat (b.toNat ||| 1 <<< k)).toNat.testBit j = (b.toNat.testBit j || decide (j = k)) := by
  have hlt : b.toNat ||| 1 <<< k < 2 ^ 8 := by
    refine Nat.or_lt_two_pow b.toNat_lt ?_
    rw [Nat.one_shiftLeft]
    exact Nat.pow_lt_pow_right (by decide) hk
  rw [UInt8.toNat_ofNat', Nat.mod_eq_of_lt hlt, Nat.testBit_or, Nat.one_shiftLeft, Nat.testBit_two_pow]
  congr 1
  exact decide_eq_decide.2 eq_comm

/-- **A bit that is set is that bit and those that were.** -/
theorem getBit_setBit {bytes : List UInt8} {i : Nat} (hi : i < 8 * bytes.length) (j : Nat) :
    getBit (setBit bytes i) j = (getBit bytes j || decide (j = i)) := by
  unfold getBit setBit
  rw [List.getElem?_modify]
  by_cases hbyte : i / 8 = j / 8
  · have hlt : j / 8 < bytes.length := by omega
    rw [List.getElem?_eq_getElem hlt]
    simp only [if_pos hbyte, Option.map_eq_map, Option.map_some, Option.getD_some]
    rw [testBit_or _ (Nat.mod_lt _ (by decide))]
    congr 1
    exact decide_eq_decide.2 ⟨fun h => by omega, fun h => by rw [h]⟩
  · have hne : j ≠ i := fun h => hbyte (by rw [h])
    rw [decide_eq_false hne, Bool.or_false]
    simp only [if_neg hbyte, Option.map_eq_map, Option.map_id']

/-- **The bits determine the bytes.** -/
theorem ext_getBit {a b : List UInt8} (hl : a.length = b.length)
    (h : ∀ j, j < 8 * a.length → getBit a j = getBit b j) : a = b := by
  refine List.ext_getElem hl (fun k hk hk' => ?_)
  apply UInt8.toNat_inj.1
  apply Nat.eq_of_testBit_eq
  intro i
  by_cases hi : i < 8
  · have hbit := h (8 * k + i) (by omega)
    unfold getBit at hbit
    rw [show (8 * k + i) / 8 = k by omega, show (8 * k + i) % 8 = i by omega, List.getElem?_eq_getElem hk,
      List.getElem?_eq_getElem hk'] at hbit
    exact hbit
  · have hbig : 2 ^ 8 ≤ 2 ^ i := Nat.pow_le_pow_right (by decide) (not_lt.1 hi)
    rw [Nat.testBit_lt_two_pow (lt_of_lt_of_le a[k].toNat_lt hbig), Nat.testBit_lt_two_pow (lt_of_lt_of_le b[k].toNat_lt hbig)]

theorem setBit_append {bytes : List UInt8} {i : Nat} (hi : i < 8 * bytes.length) (rest : List UInt8) :
    setBit (bytes ++ rest) i = setBit bytes i ++ rest := by
  unfold setBit
  refine List.ext_getElem? (fun k => ?_)
  by_cases hk : k < bytes.length
  · rw [List.getElem?_append_left (by rw [List.length_modify]; exact hk), List.getElem?_modify, List.getElem?_modify,
      List.getElem?_append_left hk]
  · have hne : ¬i / 8 = k := by omega
    rw [List.getElem?_append_right (by rw [List.length_modify]; omega), List.length_modify, List.getElem?_modify,
      List.getElem?_append_right (by omega)]
    simp only [if_neg hne, Option.map_eq_map, Option.map_id']

theorem getBit_zeros (n i : Nat) : getBit (List.replicate n 0) i = false := by
  unfold getBit
  rw [List.getElem?_replicate]
  split <;> simp

end Bitmap
