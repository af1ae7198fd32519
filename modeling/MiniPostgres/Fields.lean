import MiniPostgres.WalCodec
/-!
# Fields — a packed record is the sum of its fields

The reading direction of the packed formats: bytes that are read as the fields of a layout are those fields, written one behind
the other.  A decoder that reads every byte and compares what it does not return is the inverse of its encoder.
-/
namespace MiniPostgres

open Bytes (beBytes beNat length_beBytes beNat_beBytes beNat_lt beNat_inj)

/-- **A field that is read is written back.** -/
theorem beBytes_beNat {bytes : ByteString} {width : Nat} (h : bytes.length = width) : beBytes width (beNat bytes) = bytes := by
  subst h
  exact beNat_inj (length_beBytes _ _) (beNat_beBytes _ _ (beNat_lt bytes))

theorem beBytes_field {bytes : ByteString} {offset width : Nat} (h : offset + width ≤ bytes.length) :
    beBytes width (field bytes offset width) = slice bytes offset width := by
  rw [field_eq]
  exact beBytes_beNat (length_slice h)

theorem field_lt {bytes : ByteString} {offset width : Nat} (h : offset + width ≤ bytes.length) :
    field bytes offset width < 256 ^ width := by
  have hlt := beNat_lt (slice bytes offset width)
  rw [length_slice h] at hlt
  rwa [field_eq]

theorem slice_byte {bytes : ByteString} {offset : Nat} {b : UInt8} (h : offset + 1 ≤ bytes.length)
    (hf : field bytes offset 1 = b.toNat) : slice bytes offset 1 = [b] := by
  rw [← beBytes_field h, hf]
  have hb : b.toNat % 256 = b.toNat := Nat.mod_eq_of_lt b.toNat_lt
  simp only [beBytes, List.nil_append, hb, UInt8.ofNat_toNat]

theorem take_slice (bytes : ByteString) (offset width : Nat) :
    bytes.take offset ++ slice bytes offset width = bytes.take (offset + width) := by
  unfold slice
  rw [← List.take_add]

theorem slice_add (bytes : ByteString) (offset m n : Nat) :
    slice bytes offset (m + n) = slice bytes offset m ++ slice bytes (offset + m) n := by
  unfold slice
  rw [← List.drop_drop, List.take_add]

end MiniPostgres
