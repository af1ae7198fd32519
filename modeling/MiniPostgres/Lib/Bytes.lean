import Mathlib
/-!
# Bytes — big-endian words and CRC-32

`beBytes` and `beNat` are the unsigned big-endian fields of a packed record: a field that fits is read back as it was written,
and a field of a given width determines its bytes.  `crc32` is the reflected CRC with polynomial `0xEDB88320`, bit by bit.
Each of its steps is injective, so two messages that differ in one byte have different checksums (`crc32_change`).
-/
namespace Bytes

/-! ## Big-endian words -/

/-- The `width` bytes of a word, most significant first. -/
def beBytes : Nat → Nat → List UInt8
  | 0, _         => []
  | width + 1, n => beBytes width (n / 256) ++ [UInt8.ofNat (n % 256)]

def beNat (bytes : List UInt8) : Nat := bytes.foldl (fun n b => n * 256 + b.toNat) 0

theorem beNat_concat (bytes : List UInt8) (b : UInt8) : beNat (bytes ++ [b]) = beNat bytes * 256 + b.toNat := by
  simp [beNat]

@[simp] theorem length_beBytes : ∀ (width n : Nat), (beBytes width n).length = width
  | 0, _ => rfl
  | width + 1, n => by simp [beBytes, length_beBytes width]

/-- **A word that fits its field is read back.** -/
theorem beNat_beBytes : ∀ (width n : Nat), n < 256 ^ width → beNat (beBytes width n) = n
  | 0, n, h => by
    have : n = 0 := by simpa using h
    subst this
    rfl
  | width + 1, n, h => by
    have hdiv : n / 256 < 256 ^ width := by
      rw [Nat.pow_succ] at h
      omega
    have hmod : (UInt8.ofNat (n % 256)).toNat = n % 256 := by
      rw [UInt8.toNat_ofNat']
      omega
    simp only [beBytes]
    rw [beNat_concat, beNat_beBytes width (n / 256) hdiv, hmod]
    omega

theorem beNat_lt (bytes : List UInt8) : beNat bytes < 256 ^ bytes.length := by
  induction bytes using List.reverseRecOn with
  | nil => simp [beNat]
  | append_singleton bytes b ih =>
    have hb := b.toNat_lt
    rw [beNat_concat, List.length_append, List.length_singleton, Nat.pow_succ]
    omega

/-- **A field determines its bytes.** -/
theorem beNat_inj : ∀ {a b : List UInt8}, a.length = b.length → beNat a = beNat b → a = b := by
  intro a
  induction a using List.reverseRecOn with
  | nil => intro b hl _; exact (List.eq_nil_of_length_eq_zero hl.symm).symm
  | append_singleton a x ih =>
    intro b
    induction b using List.reverseRecOn with
    | nil => intro hl _; simp at hl
    | append_singleton b y _ =>
      intro hl he
      rw [beNat_concat, beNat_concat] at he
      have hx := x.toNat_lt
      have hy := y.toNat_lt
      have hxy : x = y := UInt8.toNat_inj.1 (by omega)
      rw [hxy, ih (by simpa using hl) (by omega)]

/-! ## CRC-32 -/

/-- One bit of the register. -/
def crcBit (s : BitVec 32) : BitVec 32 := if s.getLsbD 0 then (s >>> 1) ^^^ 0xEDB88320#32 else s >>> 1

def crcByte (s : BitVec 32) (b : UInt8) : BitVec 32 := crcBit^[8] (s ^^^ b.toBitVec.setWidth 32)

def crc32 (bytes : List UInt8) : BitVec 32 := bytes.foldl crcByte 0xFFFFFFFF#32 ^^^ 0xFFFFFFFF#32

theorem crcBit_top (s : BitVec 32) : (crcBit s).getLsbD 31 = s.getLsbD 0 := by
  have hshift : (s >>> 1).getLsbD 31 = false := by
    rw [BitVec.getLsbD_ushiftRight]
    exact BitVec.getLsbD_of_ge s 32 (by decide)
  have hpoly : (0xEDB88320#32).getLsbD 31 = true := by decide
  unfold crcBit
  split
  · rename_i h; rw [BitVec.getLsbD_xor, hshift, hpoly, h]; rfl
  · rename_i h; rw [hshift]; simpa using h

theorem crcBit_injective : Function.Injective crcBit := by
  intro s t h
  have hlow : s.getLsbD 0 = t.getLsbD 0 := by rw [← crcBit_top s, ← crcBit_top t, h]
  have hshift : s >>> 1 = t >>> 1 := by
    unfold crcBit at h
    rw [hlow] at h
    split at h
    · exact (BitVec.xor_left_inj _).1 h
    · exact h
  apply BitVec.eq_of_getLsbD_eq
  intro i _
  cases i with
  | zero => exact hlow
  | succ i =>
    have hi := congrArg (fun v => v.getLsbD i) hshift
    simp only [BitVec.getLsbD_ushiftRight] at hi
    rw [Nat.add_comm]
    exact hi

theorem crcByte_injective (b : UInt8) : Function.Injective (fun s => crcByte s b) := by
  intro s t h
  exact (BitVec.xor_left_inj _).1 (crcBit_injective.iterate 8 h)

theorem crcByte_inj {s : BitVec 32} {b c : UInt8} (h : crcByte s b = crcByte s c) : b = c := by
  have hw := (BitVec.xor_right_inj _).1 (crcBit_injective.iterate 8 h)
  apply UInt8.toBitVec_inj.1
  apply BitVec.eq_of_getLsbD_eq
  intro i hi
  have := congrArg (fun v => v.getLsbD i) hw
  simpa [BitVec.getLsbD_setWidth, show i < 32 by omega] using this

theorem foldl_crcByte_injective : ∀ (bytes : List UInt8), Function.Injective (fun s => bytes.foldl crcByte s)
  | [], _, _, h => h
  | b :: bytes, _, _, h => crcByte_injective b (foldl_crcByte_injective bytes h)

/-- **A change of one byte changes the checksum.** -/
theorem crc32_change {pre post : List UInt8} {b c : UInt8} (h : crc32 (pre ++ b :: post) = crc32 (pre ++ c :: post)) :
    b = c := by
  have h := (BitVec.xor_left_inj _).1 h
  rw [List.foldl_append, List.foldl_append] at h
  exact crcByte_inj (foldl_crcByte_injective post h)

theorem crc32_set {bytes : List UInt8} {j : Nat} {b : UInt8} (hj : j < bytes.length) (hb : bytes[j]? ≠ some b) :
    crc32 (bytes.set j b) ≠ crc32 bytes := by
  intro h
  have hsplit : bytes = bytes.take j ++ bytes[j] :: bytes.drop (j + 1) := by
    rw [List.getElem_cons_drop, List.take_append_drop]
  rw [List.set_eq_take_append_cons_drop, if_pos hj] at h
  nth_rewrite 3 [hsplit] at h
  rw [crc32_change h, List.getElem?_eq_getElem hj] at hb
  exact hb rfl

end Bytes
