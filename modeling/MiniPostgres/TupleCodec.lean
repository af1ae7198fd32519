import MiniPostgres.CatalogFile
import MiniPostgres.Slotted
import MiniPostgres.Lib.Bitmap
/-!
# TupleCodec — the bytes of a stored version

`storage/tuple.py`.  After a header of 44 bytes come a bitmap of the nulls and the values that are not null, each as its column's
type says.  `Heap.lean` has only the lengths; here are the bytes, and that they are read back as the version they were made from.
-/
namespace MiniPostgres
namespace CatalogFile

open Bytes (beBytes beNat beNat_beBytes length_beBytes crc32)
open Bitmap (getBit setBit)

variable {K : Casing}

/-! ## The codec of a schema -/

/-- The schema as `validate_row` reads it. -/
def Schema.rows (s : Schema K) : MiniPostgres.Schema := ⟨s.columns.map (fun c => ⟨c.name, c.dataType, c.nullable⟩)⟩

def Schema.validateRow (s : Schema K) (values : Values) : Result Values := s.rows.validateRow values

def flagByte (b : Bool) : UInt8 := if b then 1 else 0

/-- One column of the fingerprint; `to_bytes(4)` raises on a name that is too long. -/
def columnPrint (c : Column) : Option ByteString :=
  if (utf8 c.name).length < 256 ^ 4 then
    some (beBytes 4 (utf8 c.name).length ++ utf8 c.name ++ utf8 c.dataType.value.toList ++
      [flagByte c.nullable, flagByte c.primaryKey, flagByte c.unique])
  else none

def schemaFingerprint (s : Schema K) : Option Nat := (s.columns.mapM columnPrint).map (fun prints => (crc32 prints.flatten).toNat)

variable (K) in
/-- `TupleCodec`, with the fingerprint that its constructor makes. -/
structure TupleCodec where
  schema     : Schema K
  schemaHash : Nat
  hashed     : schemaFingerprint schema = some schemaHash

/-! ## Encoding -/

def tupleMagic : ByteString := [0x54, 0x55, 0x50, 0x31]

/-- The pattern of a signed 64-bit integer. -/
def packInt64 (n : Int) : Result ByteString :=
  if int64Min ≤ n ∧ n ≤ int64Max then .ok (beBytes 8 (n % 2 ^ 64).toNat) else raise .structError "argument out of range"

def encodeScalar : DataType → Scalar → Result ByteString
  | .int64, .int n      => packInt64 n
  | .float64, .float b  => .ok (beBytes 8 b.toNat)
  | .boolean, .bool b   => .ok [flagByte b]
  | .text, .text s      =>
    if (utf8 s).length > 2 ^ 32 - 1 then raise .rowTooLarge "TEXT value exceeds encoded length limit"
    else .ok (beBytes 4 (utf8 s).length ++ utf8 s)
  | _, _                => raise .runtimeError "assertion failed"

/-- The loop of `encode` over the columns and the values; `payload` begins with the bitmap. -/
def encodeValues : List (Column × Scalar) → Nat → ByteString → Result ByteString
  | [], _, payload                          => .ok payload
  | (column, value) :: rest, index, payload =>
    if value = .null then encodeValues rest (index + 1) (setBit payload index)
    else do
      let bytes ← encodeScalar column.dataType value
      encodeValues rest (index + 1) (payload ++ bytes)

def validateUint (value maximum : Nat) (field : String) : Result Unit :=
  if value > maximum then raise .valueError (field ++ " is outside the encoded integer domain") else .ok ()

/-- The checks of a chain link. -/
def validateLink : Option TID → Result Unit
  | none     => .ok ()
  | some tid => do
    validateUint tid.pageId (2 ^ 64 - 1) "next page"
    validateUint tid.slotId (2 ^ 32 - 1) "next slot"

namespace TupleCodec

/-- `_HEADER.pack` -/
def packHeader (codec : TupleCodec K) (version : TupleVersion) (columnCount payloadLength : Nat) : Result ByteString := do
  let count ← packField 2 columnCount
  let xmin ← packField 8 version.xmin
  let xmax ← packField 8 version.xmax
  let nextPage ← packField 8 ((version.nextTid.map TID.pageId).getD 0)
  let nextSlot ← packField 4 ((version.nextTid.map TID.slotId).getD 0)
  let hash ← packField 4 codec.schemaHash
  let length ← packField 4 payloadLength
  .ok (tupleMagic ++ [1] ++ [flagByte version.nextTid.isSome] ++ count ++ xmin ++ xmax ++ nextPage ++ nextSlot ++ hash ++ length)

def encode (codec : TupleCodec K) (version : TupleVersion) : Result ByteString := do
  validateUint version.xmin maxUint64 "xmin"
  validateUint version.xmax maxUint64 "xmax"
  let values ← codec.schema.validateRow version.values
  validateLink version.nextTid
  let payload ← encodeValues (codec.schema.columns.zip values) 0 (List.replicate ((values.length + 7) / 8) 0)
  let header ← codec.packHeader version values.length payload.length
  if (header ++ payload).length > maxSlotPayload then
    raise .rowTooLarge
      ("encoded tuple is " ++ toString (header ++ payload).length ++ " bytes; maximum is " ++ toString maxSlotPayload)
  else .ok (header ++ payload)

end TupleCodec

/-! ## Decoding -/

/-- `bytes.decode("utf-8")` -/
def utf8Decode (bytes : ByteString) : Option (List Char) := (bytes.toByteArray.utf8Decode?).map Array.toList

theorem utf8Decode_utf8 (s : List Char) : utf8Decode (utf8 s) = some s := by
  have h : (utf8 s).toByteArray = s.utf8Encode := rfl
  unfold utf8Decode
  rw [h, List.utf8Decode?_utf8Encode]
  rfl

def requireBytes (payload : ByteString) (cursor size : Nat) : Result Nat :=
  if cursor + size > payload.length then raise .corruptPage "truncated fixed-width tuple value" else .ok (cursor + size)

/-- The signed integer of a 64-bit pattern. -/
def signed64 (n : Nat) : Int := if n < 2 ^ 63 then n else (n : Int) - 2 ^ 64

def decodeScalar (dataType : DataType) (payload : ByteString) (cursor : Nat) : Result (Scalar × Nat) :=
  match dataType with
  | .int64   => do
    let stop ← requireBytes payload cursor 8
    .ok (.int (signed64 (field payload cursor 8)), stop)
  | .float64 => do
    let stop ← requireBytes payload cursor 8
    .ok (.float (BitVec.ofNat 64 (field payload cursor 8)), stop)
  | .boolean =>
    match payload[cursor]? with
    | none   => raise .corruptPage "truncated boolean value"
    | some b => if b ≠ 0 ∧ b ≠ 1 then raise .corruptPage "invalid boolean value" else .ok (.bool (decide (b = 1)), cursor + 1)
  | .text    => do
    let start ← requireBytes payload cursor 4
    let rawLength := field payload cursor 4
    if start + rawLength > payload.length then raise .corruptPage "truncated TEXT value"
    else
      match utf8Decode (slice payload start rawLength) with
      | none   => raise .corruptPage "invalid UTF-8 TEXT value"
      | some s => .ok (.text s, start + rawLength)

/-- The loop of `decode` over the columns. -/
def decodeValues (payload bitmap : ByteString) : List Column → Nat → Nat → Result (Values × Nat)
  | [], _, cursor              => .ok ([], cursor)
  | column :: rest, index, cursor =>
    if getBit bitmap index then do
      let (values, stop) ← decodeValues payload bitmap rest (index + 1) cursor
      .ok (.null :: values, stop)
    else do
      let (value, next) ← decodeScalar column.dataType payload cursor
      let (values, stop) ← decodeValues payload bitmap rest (index + 1) next
      .ok (value :: values, stop)

/-- The chain link of the header. -/
def decodeLink (flags nextPage nextSlot : Nat) : Result (Option TID) :=
  if flags = 1 then .ok (some ⟨nextPage, nextSlot⟩)
  else if nextPage ≠ 0 ∨ nextSlot ≠ 0 then raise .corruptPage "tuple has hidden next-TID fields"
  else .ok none

def TupleCodec.decode (codec : TupleCodec K) (encoded : ByteString) : Result TupleVersion :=
  if encoded.length < tupleHeaderSize then raise .corruptPage "truncated tuple header"
  else if slice encoded 0 4 ≠ tupleMagic ∨ field encoded 4 1 ≠ 1 then raise .corruptPage "unsupported tuple format"
  else if field encoded 5 1 > 1 then raise .corruptPage "invalid tuple flags"
  else if field encoded 6 2 ≠ codec.schema.columns.length then raise .corruptPage "tuple schema column count does not match"
  else if field encoded 36 4 ≠ codec.schemaHash then raise .corruptPage "tuple schema fingerprint does not match"
  else if encoded.length ≠ tupleHeaderSize + field encoded 40 4 then raise .corruptPage "tuple payload length does not match"
  else if field encoded 40 4 < (field encoded 6 2 + 7) / 8 then raise .corruptPage "truncated tuple null bitmap"
  else do
    let payload := encoded.drop tupleHeaderSize
    let bitmapLength := (field encoded 6 2 + 7) / 8
    let (values, cursor) ← decodeValues payload (payload.take bitmapLength) codec.schema.columns 0 bitmapLength
    if cursor ≠ payload.length then raise .corruptPage "tuple payload has trailing bytes"
    else do
      let nextTid ← decodeLink (field encoded 5 1) (field encoded 24 8) (field encoded 32 4)
      match codec.schema.validateRow values with
      | .error _ => raise .corruptPage "tuple values violate the encoded schema"
      | .ok _    => .ok ⟨field encoded 8 8, field encoded 16 8, nextTid, values⟩

/-! ## One value -/

theorem slice_middle (pre x post : ByteString) : slice (pre ++ x ++ post) pre.length x.length = x := by
  rw [List.append_assoc, slice_skip (le_refl _), Nat.sub_self]
  exact slice_head rfl

theorem field_middle {pre x post : ByteString} {width : Nat} (h : x.length = width) :
    field (pre ++ x ++ post) pre.length width = beNat x := by
  rw [field_eq, ← h, slice_middle]

theorem requireBytes_ok {payload : ByteString} {cursor size : Nat} (h : cursor + size ≤ payload.length) :
    requireBytes payload cursor size = .ok (cursor + size) := if_neg (not_lt.2 h)

theorem signed64_pattern {n : Int} (h : int64Min ≤ n ∧ n ≤ int64Max) : signed64 (n % 2 ^ 64).toNat = n := by
  unfold int64Min int64Max at h
  unfold signed64
  split <;> omega

/-- The values that a column takes: those `validate_row` lets through, and no text that is too long. -/
def Stored (dataType : DataType) : Scalar → Prop
  | .null    => True
  | .int n   => dataType = .int64 ∧ int64Min ≤ n ∧ n ≤ int64Max
  | .float _ => dataType = .float64
  | .bool _  => dataType = .boolean
  | .text s  => dataType = .text ∧ (utf8 s).length ≤ 2 ^ 32 - 1

theorem encodeScalar_stored {d : DataType} {v : Scalar} (h : Stored d v) (hv : v ≠ .null) :
    ∃ x, encodeScalar d v = .ok x ∧ x.length = scalarSize v := by
  cases v with
  | null => exact absurd rfl hv
  | int n =>
    obtain ⟨rfl, hn⟩ := h
    exact ⟨_, if_pos hn, length_beBytes _ _⟩
  | float b =>
    cases h
    exact ⟨_, rfl, length_beBytes _ _⟩
  | bool b =>
    cases h
    exact ⟨_, rfl, rfl⟩
  | text s =>
    obtain ⟨rfl, hs⟩ := h
    refine ⟨_, if_neg (not_lt.2 hs), ?_⟩
    rw [List.length_append, length_beBytes]
    rfl

/-- **A value that is written is read**, wherever it stands. -/
theorem decodeScalar_encodeScalar {d : DataType} {v : Scalar} {x : ByteString} (h : Stored d v) (hx : encodeScalar d v = .ok x)
    (pre post : ByteString) : decodeScalar d (pre ++ x ++ post) pre.length = .ok (v, pre.length + x.length) := by
  have hlen : pre.length + x.length ≤ (pre ++ x ++ post).length := by
    simp only [List.length_append]
    omega
  cases v with
  | null => cases d <;> exact absurd hx raise_ne_ok
  | int n =>
    obtain ⟨rfl, hn⟩ := h
    cases (if_pos hn).symm.trans hx
    have hlen8 : (beBytes 8 (n % 2 ^ 64).toNat).length = 8 := length_beBytes _ _
    rw [hlen8] at hlen ⊢
    unfold decodeScalar
    rw [requireBytes_ok hlen, field_middle hlen8, beNat_beBytes 8 _ (by omega), signed64_pattern hn]
    rfl
  | float b =>
    cases h
    cases hx
    have hlen8 : (beBytes 8 b.toNat).length = 8 := length_beBytes _ _
    rw [hlen8] at hlen ⊢
    unfold decodeScalar
    rw [requireBytes_ok hlen, field_middle hlen8, beNat_beBytes 8 _ (lt_of_lt_of_le b.isLt (by decide)), BitVec.ofNat_toNat,
      BitVec.setWidth_eq]
    rfl
  | bool b =>
    cases h
    cases hx
    have hget : (pre ++ [flagByte b] ++ post)[pre.length]? = some (flagByte b) := by
      rw [List.append_assoc, List.getElem?_append_right (le_refl _), Nat.sub_self]
      rfl
    unfold decodeScalar
    rw [hget]
    cases b <;> rfl
  | text s =>
    obtain ⟨rfl, hs⟩ := h
    cases (if_neg (not_lt.2 hs)).symm.trans hx
    have hlen4 : (beBytes 4 (utf8 s).length).length = 4 := length_beBytes _ _
    have hassoc : pre ++ (beBytes 4 (utf8 s).length ++ utf8 s) ++ post = pre ++
        beBytes 4 (utf8 s).length ++ (utf8 s ++ post) := by
      simp only [List.append_assoc]
    have hraw : field (pre ++ (beBytes 4 (utf8 s).length ++ utf8 s) ++ post) pre.length 4 = (utf8 s).length := by
      rw [hassoc, field_middle hlen4, beNat_beBytes 4 _ (by omega)]
    have htext : slice (pre ++ (beBytes 4 (utf8 s).length ++ utf8 s) ++ post) (pre.length + 4) (utf8 s).length = utf8 s := by
      have hsplit : pre ++ (beBytes 4 (utf8 s).length ++ utf8 s) ++ post =
          (pre ++ beBytes 4 (utf8 s).length) ++ utf8 s ++ post := by
        simp only [List.append_assoc]
      have hstart : pre.length + 4 = (pre ++ beBytes 4 (utf8 s).length).length := by rw [List.length_append, hlen4]
      rw [hsplit, hstart]
      exact slice_middle _ _ _
    rw [List.length_append, hlen4] at hlen
    have hreq : requireBytes (pre ++ (beBytes 4 (utf8 s).length ++ utf8 s) ++ post) pre.length 4 = .ok (pre.length + 4) :=
      requireBytes_ok (by omega)
    have hend : ¬pre.length + 4 + (utf8 s).length > (pre ++ (beBytes 4 (utf8 s).length ++ utf8 s) ++ post).length := by omega
    unfold decodeScalar
    simp only [hreq, bind, Except.bind, hraw, htext, utf8Decode_utf8, if_neg hend]
    rw [List.length_append, hlen4, Nat.add_assoc]

/-! ## The payload -/

/-- The bytes of the values that are not null, in order. -/
def Bodies : List (Column × Scalar) → ByteString → Prop
  | [], bytes                      => bytes = []
  | (column, value) :: rest, bytes =>
    if value = .null then Bodies rest bytes
    else ∃ x y, encodeScalar column.dataType value = .ok x ∧ Bodies rest y ∧ bytes = x ++ y

/-- Bit `j` is that of a null, when the first of the values has bit `index`. -/
def nullAt (rest : List (Column × Scalar)) (index j : Nat) : Bool :=
  decide (index ≤ j) && ((rest[j - index]?).map (fun p => decide (p.2 = .null))).getD false

theorem nullAt_cons (p : Column × Scalar) (rest : List (Column × Scalar)) (index j : Nat) :
    nullAt (p :: rest) index j = (decide (j = index ∧ p.2 = .null) || nullAt rest (index + 1) j) := by
  unfold nullAt
  rcases lt_trichotomy j index with h | h | h
  · simp [show ¬index ≤ j by omega, show ¬index + 1 ≤ j by omega, show ¬j = index by omega]
  · subst h
    simp
  · have hsub : j - index = (j - (index + 1)) + 1 := by omega
    rw [hsub, List.getElem?_cons_succ]
    simp [show index ≤ j by omega, show index + 1 ≤ j by omega, show ¬j = index by omega]

/-- **The loop of `encode`** sets the bits of the nulls and appends the values. -/
theorem encodeValues_ok : ∀ {rest : List (Column × Scalar)} {index : Nat} {bitmap body payload : ByteString},
    encodeValues rest index (bitmap ++ body) = .ok payload → index + rest.length ≤ 8 * bitmap.length →
    ∃ bitmap' bytes, payload = bitmap' ++ (body ++ bytes) ∧ bitmap'.length = bitmap.length ∧
      (∀ j, getBit bitmap' j = (getBit bitmap j || nullAt rest index j)) ∧ Bodies rest bytes
  | [], index, bitmap, body, payload, h, _ => by
    cases h
    refine ⟨bitmap, [], by rw [List.append_nil], rfl, fun j => ?_, rfl⟩
    simp [nullAt]
  | (column, value) :: rest, index, bitmap, body, payload, h, hi => by
    rw [List.length_cons] at hi
    unfold encodeValues at h
    by_cases hv : value = .null
    · rw [if_pos hv, Bitmap.setBit_append (by omega)] at h
      obtain ⟨bitmap', bytes, hp, hlen, hbits, hbody⟩ := encodeValues_ok h (by rw [Bitmap.length_setBit]; omega)
      refine ⟨bitmap', bytes, hp, by rw [hlen, Bitmap.length_setBit], fun j => ?_, ?_⟩
      · rw [hbits, Bitmap.getBit_setBit (by omega), nullAt_cons, Bool.or_assoc]
        simp [hv]
      · unfold Bodies
        rw [if_pos hv]
        exact hbody
    · rw [if_neg hv] at h
      obtain ⟨x, hx, h⟩ := bind_eq_ok.1 h
      rw [List.append_assoc] at h
      obtain ⟨bitmap', bytes, hp, hlen, hbits, hbody⟩ := encodeValues_ok h (by omega)
      refine ⟨bitmap', x ++ bytes, by rw [hp, List.append_assoc], hlen, fun j => ?_, ?_⟩
      · rw [hbits, nullAt_cons]
        simp [hv]
      · unfold Bodies
        rw [if_neg hv]
        exact ⟨x, bytes, hx, hbody, rfl⟩

/-- **The loop of `decode`** reads back what the bits and the bytes say. -/
theorem decodeValues_bodies : ∀ {rest : List (Column × Scalar)} {index : Nat} {bitmap pre bytes post : ByteString},
    (∀ p ∈ rest, Stored p.1.dataType p.2) → (∀ j, getBit bitmap j = nullAt rest index j ∨ j < index) → Bodies rest bytes →
    decodeValues (pre ++ bytes ++ post) bitmap (rest.map Prod.fst) index pre.length =
      .ok (rest.map Prod.snd, pre.length + bytes.length)
  | [], _, _, _, _, _, _, _, h => by
    rw [show _ = [] from h]
    rfl
  | (column, value) :: rest, index, bitmap, pre, bytes, post, hs, hbits, h => by
    have hrest : ∀ p ∈ rest, Stored p.1.dataType p.2 := fun p hp => hs p (List.mem_cons_of_mem _ hp)
    have hnext : ∀ j, getBit bitmap j = nullAt rest (index + 1) j ∨ j < index + 1 := by
      intro j
      by_cases hj : j < index + 1
      · exact .inr hj
      · refine .inl ?_
        rw [(hbits j).resolve_right (by omega), nullAt_cons, decide_eq_false (by omega), Bool.false_or]
    have hbit : getBit bitmap index = decide (value = .null) := by
      rw [(hbits index).resolve_right (lt_irrefl _), nullAt_cons]
      simp [nullAt]
    unfold Bodies at h
    rw [List.map_cons, List.map_cons, decodeValues, hbit]
    by_cases hv : value = .null
    · rw [if_pos hv] at h
      rw [if_pos (decide_eq_true hv), decodeValues_bodies hrest hnext h, hv]
      rfl
    · rw [if_neg hv] at h
      obtain ⟨x, y, hx, hy, rfl⟩ := h
      rw [if_neg (by simpa using hv)]
      have hfirst := decodeScalar_encodeScalar (hs _ List.mem_cons_self) hx pre (y ++ post)
      have hsecond := @decodeValues_bodies rest (index + 1) bitmap (pre ++ x) y post hrest hnext hy
      rw [List.length_append] at hsecond
      rw [show pre ++ (x ++ y) ++ post = pre ++ x ++ (y ++ post) by simp only [List.append_assoc], hfirst]
      simp only [bind, Except.bind]
      rw [show pre ++ x ++ (y ++ post) = pre ++ x ++ y ++ post by simp only [List.append_assoc], hsecond, List.length_append,
        Nat.add_assoc]

theorem length_bodies : ∀ {rest : List (Column × Scalar)} {bytes : ByteString}, (∀ p ∈ rest, Stored p.1.dataType p.2) →
    Bodies rest bytes → bytes.length = (rest.map (fun p => scalarSize p.2)).sum
  | [], _, _, h => by
    rw [show _ = [] from h]
    rfl
  | (column, value) :: rest, bytes, hs, h => by
    have hrest : ∀ p ∈ rest, Stored p.1.dataType p.2 := fun p hp => hs p (List.mem_cons_of_mem _ hp)
    unfold Bodies at h
    rw [List.map_cons, List.sum_cons]
    by_cases hv : value = .null
    · rw [if_pos hv] at h
      rw [length_bodies hrest h, hv, scalarSize, Nat.zero_add]
    · rw [if_neg hv] at h
      obtain ⟨x, y, hx, hy, rfl⟩ := h
      obtain ⟨x', hx', hlen⟩ := encodeScalar_stored (hs _ List.mem_cons_self) hv
      cases hx.symm.trans hx'
      rw [List.length_append, hlen, length_bodies hrest hy]

/-! ## A row that `validate_row` accepts -/

/-- The type and the range fit; a text may be too long to be encoded. -/
def Accepted (dataType : DataType) : Scalar → Prop
  | .null    => True
  | .int n   => dataType = .int64 ∧ int64Min ≤ n ∧ n ≤ int64Max
  | .float _ => dataType = .float64
  | .bool _  => dataType = .boolean
  | .text _  => dataType = .text

/-- A text whose length does not fit its field. -/
def TooLong : Scalar → Prop
  | .text s => 2 ^ 32 - 1 < (utf8 s).length
  | _       => False

theorem Accepted.stored {d : DataType} {v : Scalar} (h : Accepted d v) (hl : ¬TooLong v) : Stored d v := by
  cases v with
  | text s => exact ⟨h, not_lt.1 hl⟩
  | _ => exact h

theorem Accepted.tooLong {d : DataType} {v : Scalar} (h : Accepted d v) (hl : TooLong v) :
    ∃ m, encodeScalar d v = raise .rowTooLarge m := by
  cases v with
  | text s =>
    cases h
    exact ⟨_, if_pos hl⟩
  | _ => exact absurd hl id

theorem validateScalar_accepted {v w : Scalar} {d : DataType} {nullable : Bool} (h : validateScalar v d nullable = .ok w) :
    Accepted d v := by
  unfold validateScalar at h
  cases v with
  | null => trivial
  | int n =>
    simp only [inferType] at h
    split at h
    · exact absurd h raise_ne_ok
    · rename_i hd
      obtain ⟨m, hm, -⟩ := bind_eq_ok.1 h
      unfold validateInt64 at hm
      split at hm
      · exact absurd hm raise_ne_ok
      · rename_i hrange
        rw [not_or, not_lt, not_lt] at hrange
        exact ⟨(not_not.1 hd).symm, hrange⟩
  | float _ | bool _ | text _ =>
    simp only [inferType] at h
    split at h
    · exact absurd h raise_ne_ok
    · rename_i hd
      exact (not_not.1 hd).symm

theorem validateColumns_accepted : ∀ {columns : List Column} {values ws : Values},
    validateColumns (columns.map (fun c => ⟨c.name, c.dataType, c.nullable⟩)) values = .ok ws →
      ∀ p ∈ columns.zip values, Accepted p.1.dataType p.2
  | [], values, _, _, p, hp => by cases hp
  | _ :: _, [], _, _, p, hp => by cases hp
  | column :: columns, value :: values, ws, h, p, hp => by
    rw [List.map_cons, validateColumns] at h
    split at h
    · rename_i v' hv
      obtain ⟨vs, hvs, -⟩ := bind_eq_ok.1 h
      rw [List.zip_cons_cons] at hp
      rcases List.mem_cons.1 hp with rfl | hp
      · exact validateScalar_accepted hv
      · exact validateColumns_accepted hvs p hp
    · split at h
      · exact absurd h raise_ne_ok
      · cases h

theorem validateRow_accepted {s : Schema K} {values ws : Values} (h : s.validateRow values = .ok ws) :
    ws = values ∧ values.length = s.columns.length ∧ ∀ p ∈ s.columns.zip values, Accepted p.1.dataType p.2 := by
  refine ⟨MiniPostgres.Schema.validateRow_eq h, ?_⟩
  unfold Schema.validateRow MiniPostgres.Schema.validateRow at h
  split at h
  · exact absurd h raise_ne_ok
  · rename_i hlen
    rw [not_not, Schema.rows, List.length_map] at hlen
    exact ⟨hlen, validateColumns_accepted h⟩

theorem encodeValues_returns : ∀ {rest : List (Column × Scalar)} (index : Nat) (payload : ByteString),
    (∀ p ∈ rest, Stored p.1.dataType p.2) → ∃ bytes, encodeValues rest index payload = .ok bytes
  | [], _, payload, _ => ⟨payload, rfl⟩
  | (column, value) :: rest, index, payload, h => by
    have hrest : ∀ p ∈ rest, Stored p.1.dataType p.2 := fun p hp => h p (List.mem_cons_of_mem _ hp)
    unfold encodeValues
    by_cases hv : value = .null
    · rw [if_pos hv]
      exact encodeValues_returns _ _ hrest
    · rw [if_neg hv]
      obtain ⟨x, hx, -⟩ := encodeScalar_stored (h _ List.mem_cons_self) hv
      rw [hx]
      exact encodeValues_returns _ _ hrest

theorem encodeValues_tooLong : ∀ {rest : List (Column × Scalar)} (index : Nat) (payload : ByteString),
    (∀ p ∈ rest, Accepted p.1.dataType p.2) → (∃ p ∈ rest, TooLong p.2) →
      ∃ m, encodeValues rest index payload = raise .rowTooLarge m
  | [], _, _, _, ⟨p, hp, _⟩ => by cases hp
  | (column, value) :: rest, index, payload, h, hex => by
    have hrest : ∀ p ∈ rest, Accepted p.1.dataType p.2 := fun p hp => h p (List.mem_cons_of_mem _ hp)
    have hfirst := h _ List.mem_cons_self
    unfold encodeValues
    by_cases hl : TooLong value
    · have hv : value ≠ .null := by
        rintro rfl
        exact hl
      obtain ⟨m, hm⟩ := hfirst.tooLong hl
      rw [if_neg hv, hm]
      exact ⟨m, rfl⟩
    · have hex' : ∃ p ∈ rest, TooLong p.2 := by
        obtain ⟨p, hp, ht⟩ := hex
        rcases List.mem_cons.1 hp with rfl | hp
        · exact absurd ht hl
        · exact ⟨p, hp, ht⟩
      by_cases hv : value = .null
      · rw [if_pos hv]
        exact encodeValues_tooLong _ _ hrest hex'
      · obtain ⟨x, hx, -⟩ := encodeScalar_stored (hfirst.stored hl) hv
        rw [if_neg hv, hx]
        exact encodeValues_tooLong _ _ hrest hex'

/-! ## The whole tuple -/

theorem packField_lt {width n : Nat} (h : n < 256 ^ width) : packField width n = .ok (beBytes width n) := if_pos h

theorem packField_ge {width n : Nat} (h : ¬n < 256 ^ width) :
    packField width n = raise .structError "argument out of range" := if_neg h

namespace TupleCodec

/-- What `encode` asks of the header fields and the row. -/
structure Encodable (codec : TupleCodec K) (version : TupleVersion) : Prop where
  xmin : version.xmin < 2 ^ 64
  xmax : version.xmax < 2 ^ 64
  link : ∀ tid, version.nextTid = some tid → tid.pageId < 2 ^ 64 ∧ tid.slotId < 2 ^ 32
  row  : ∃ values, codec.schema.validateRow version.values = .ok values

/-- The bytes of the payload. -/
def payloadSize (values : Values) : Nat := (values.length + 7) / 8 + (values.map scalarSize).sum

theorem tupleSize_eq (values : Values) : tupleSize values = tupleHeaderSize + payloadSize values := Nat.add_assoc _ _ _

theorem schemaHash_lt (codec : TupleCodec K) : codec.schemaHash < 256 ^ 4 := by
  obtain ⟨prints, -, hp⟩ := Option.map_eq_some_iff.1 codec.hashed
  rw [← hp]
  exact lt_of_lt_of_le (BitVec.isLt _) (by decide)

/-- The header, field by field. -/
def headerBytes (codec : TupleCodec K) (version : TupleVersion) (columnCount payloadLength : Nat) : ByteString :=
  tupleMagic ++ ([1] ++ ([flagByte version.nextTid.isSome] ++ (beBytes 2 columnCount ++ (beBytes 8 version.xmin ++
    (beBytes 8 version.xmax ++ (beBytes 8 ((version.nextTid.map TID.pageId).getD 0) ++
      (beBytes 4 ((version.nextTid.map TID.slotId).getD 0) ++ (beBytes 4 codec.schemaHash ++ beBytes 4 payloadLength))))))))

variable {codec : TupleCodec K} {version : TupleVersion}

theorem Encodable.links (h : codec.Encodable version) :
    (version.nextTid.map TID.pageId).getD 0 < 256 ^ 8 ∧ (version.nextTid.map TID.slotId).getD 0 < 256 ^ 4 := by
  cases hn : version.nextTid with
  | none => exact ⟨by decide, by decide⟩
  | some tid => exact h.link tid hn

/-- **The header is packed** when the number of columns and the length of the payload fit their fields. -/
theorem Encodable.packHeader (h : codec.Encodable version) (columnCount payloadLength : Nat) :
    (columnCount < 2 ^ 16 ∧ payloadLength < 2 ^ 32 → codec.packHeader version columnCount payloadLength =
      .ok (codec.headerBytes version columnCount payloadLength)) ∧
    (¬(columnCount < 2 ^ 16 ∧ payloadLength < 2 ^ 32) → codec.packHeader version columnCount payloadLength =
      raise .structError "argument out of range") := by
  have hxmin := packField_lt (show version.xmin < 256 ^ 8 from h.xmin)
  have hxmax := packField_lt (show version.xmax < 256 ^ 8 from h.xmax)
  have hpage := packField_lt h.links.1
  have hslot := packField_lt h.links.2
  have hhash := packField_lt codec.schemaHash_lt
  unfold TupleCodec.packHeader
  constructor
  · rintro ⟨hc, hp⟩
    rw [packField_lt (show columnCount < 256 ^ 2 from hc), hxmin, hxmax, hpage, hslot, hhash,
      packField_lt (show payloadLength < 256 ^ 4 from hp)]
    simp only [bind, Except.bind, headerBytes, List.append_assoc]
  · intro hno
    by_cases hc : columnCount < 2 ^ 16
    · have hp : ¬payloadLength < 256 ^ 4 := fun hp => hno ⟨hc, hp⟩
      rw [packField_lt (show columnCount < 256 ^ 2 from hc), hxmin, hxmax, hpage, hslot, hhash, packField_ge hp]
      rfl
    · rw [packField_ge (show ¬columnCount < 256 ^ 2 from hc)]
      rfl

theorem length_headerBytes (codec : TupleCodec K) (version : TupleVersion) (columnCount payloadLength : Nat) :
    (codec.headerBytes version columnCount payloadLength).length = tupleHeaderSize := by
  simp [headerBytes, tupleMagic, tupleHeaderSize]

theorem Encodable.fields (h : codec.Encodable version) {payload : ByteString} {columnCount : Nat} (hc : columnCount < 2 ^ 16)
    (hp : payload.length < 2 ^ 32) {bytes : ByteString}
    (hb : bytes = codec.headerBytes version columnCount payload.length ++ payload) :
    slice bytes 0 4 = tupleMagic ∧ field bytes 4 1 = 1 ∧ field bytes 5 1 = (flagByte version.nextTid.isSome).toNat ∧
      field bytes 6 2 = columnCount ∧ field bytes 8 8 = version.xmin ∧ field bytes 16 8 = version.xmax ∧
      field bytes 24 8 = (version.nextTid.map TID.pageId).getD 0 ∧ field bytes 32 4 = (version.nextTid.map TID.slotId).getD 0 ∧
      field bytes 36 4 = codec.schemaHash ∧ field bytes 40 4 = payload.length ∧ bytes.drop tupleHeaderSize = payload := by
  have hdrop : bytes.drop tupleHeaderSize = payload := by
    rw [hb]
    exact List.drop_left' (codec.length_headerBytes version _ _)
  have hsum : bytes = tupleMagic ++ ([1] ++ ([flagByte version.nextTid.isSome] ++
    (beBytes 2 columnCount ++ (beBytes 8 version.xmin ++
      (beBytes 8 version.xmax ++ (beBytes 8 ((version.nextTid.map TID.pageId).getD 0) ++
        (beBytes 4 ((version.nextTid.map TID.slotId).getD 0) ++ (beBytes 4 codec.schemaHash ++
          (beBytes 4 payload.length ++ payload))))))))) := by
    rw [hb]
    simp only [headerBytes, List.append_assoc]
  have hmagic : tupleMagic.length = 4 := rfl
  refine ⟨?_, ?_, ?_, ?_, ?_, ?_, ?_, ?_, ?_, ?_, hdrop⟩ <;> rw [hsum] <;> try simp only [field_eq]
  all_goals simp (disch := simp [hmagic]) only [slice_skip, hmagic, length_beBytes, List.length_singleton,
    Nat.reduceSub, slice_head]
  · simp [beNat]
  · simp [beNat]
  · exact beNat_beBytes 2 _ hc
  · exact beNat_beBytes 8 _ h.xmin
  · exact beNat_beBytes 8 _ h.xmax
  · exact beNat_beBytes 8 _ h.links.1
  · exact beNat_beBytes 4 _ h.links.2
  · exact beNat_beBytes 4 _ codec.schemaHash_lt
  · exact beNat_beBytes 4 _ hp

/-- The payload that the loop makes, and what it says. -/
structure Payload (codec : TupleCodec K) (values : Values) (payload : ByteString) : Prop where
  made   : encodeValues (codec.schema.columns.zip values) 0 (List.replicate ((values.length + 7) / 8) 0) = .ok payload
  stored : ∀ p ∈ codec.schema.columns.zip values, Stored p.1.dataType p.2
  length : values.length = codec.schema.columns.length

theorem Payload.parts {values : Values} {payload : ByteString} (h : codec.Payload values payload) : ∃ bitmap bytes,
    payload = bitmap ++ bytes ∧ bitmap.length = (values.length + 7) / 8 ∧
    (∀ j, getBit bitmap j = nullAt (codec.schema.columns.zip values) 0 j) ∧ Bodies (codec.schema.columns.zip values) bytes := by
  have hmade := h.made
  rw [← List.append_nil (List.replicate ((values.length + 7) / 8) (0 : UInt8))] at hmade
  obtain ⟨bitmap, bytes, hp, hlen, hbits, hbody⟩ := encodeValues_ok hmade (by
    rw [List.length_zip, List.length_replicate, h.length]
    omega)
  rw [List.length_replicate] at hlen
  refine ⟨bitmap, bytes, hp, hlen, fun j => ?_, hbody⟩
  rw [hbits, Bitmap.getBit_zeros, Bool.false_or]

theorem Payload.size {values : Values} {payload : ByteString} (h : codec.Payload values payload) :
    payload.length = payloadSize values := by
  obtain ⟨bitmap, bytes, rfl, hlen, -, hbody⟩ := h.parts
  rw [List.length_append, hlen, length_bodies h.stored hbody, payloadSize,
    show (fun p : Column × Scalar => scalarSize p.2) = scalarSize ∘ Prod.snd from rfl, ← List.map_map,
    List.map_snd_zip (le_of_eq h.length)]

theorem Payload.decode {values : Values} {payload : ByteString} (h : codec.Payload values payload) :
    decodeValues payload (payload.take ((values.length + 7) / 8)) codec.schema.columns 0 ((values.length + 7) / 8) =
      .ok (values, payload.length) := by
  obtain ⟨bitmap, bytes, rfl, hlen, hbits, hbody⟩ := h.parts
  have hread := @decodeValues_bodies _ 0 bitmap bitmap bytes [] h.stored (fun j => .inl (hbits j)) hbody
  rw [List.append_nil, List.map_fst_zip (le_of_eq h.length.symm), List.map_snd_zip (le_of_eq h.length), hlen] at hread
  rw [List.take_left' hlen, List.length_append, hlen]
  exact hread

theorem decodeLink_flags (link : Option TID) :
    decodeLink (flagByte link.isSome).toNat ((link.map TID.pageId).getD 0) ((link.map TID.slotId).getD 0) = .ok link := by
  cases link <;> rfl

/-- **The bytes are read back as the version.** -/
theorem Encodable.decode (h : codec.Encodable version) {payload : ByteString} (hp : codec.Payload version.values payload)
    (hc : version.values.length < 2 ^ 16) (hl : payload.length < 2 ^ 32) :
    codec.decode (codec.headerBytes version version.values.length payload.length ++ payload) = .ok version := by
  generalize hb : codec.headerBytes version version.values.length payload.length ++ payload = bytes
  obtain ⟨h0, h4, h5, h6, h8, h16, h24, h32, h36, h40, hdrop⟩ := h.fields hc hl hb.symm
  have hlen : bytes.length = tupleHeaderSize + payload.length := by
    rw [← hb, List.length_append, length_headerBytes]
  obtain ⟨bitmap, rest, hparts, hbitmap, -⟩ := hp.parts
  have hshort : ¬payload.length < (version.values.length + 7) / 8 := by
    rw [hparts, List.length_append, hbitmap]
    omega
  have hflag : ¬(flagByte version.nextTid.isSome).toNat > 1 := by cases version.nextTid.isSome <;> decide
  obtain ⟨ws, hrow⟩ := h.row
  unfold TupleCodec.decode
  rw [if_neg (by rw [hlen]; omega), if_neg (by rw [h0, h4]; simp), h5, if_neg hflag, h6, if_neg (not_not.2 hp.length), h36,
    if_neg (not_not.2 rfl), h40, if_neg (not_not.2 hlen), if_neg hshort, hdrop]
  simp only [hp.decode, bind, Except.bind, ne_eq, not_true_eq_false, if_false, h24, h32, decodeLink_flags, hrow, h8, h16]

/-- **What `encode` does with an accepted version.** -/
theorem Encodable.encode_cases (h : codec.Encodable version) :
    ((∃ v ∈ version.values, TooLong v) ∧ ∃ m, codec.encode version = raise .rowTooLarge m) ∨
    ((¬∃ v ∈ version.values, TooLong v) ∧ ∃ payload, codec.Payload version.values payload ∧
      codec.encode version =
        if version.values.length < 2 ^ 16 ∧ payload.length < 2 ^ 32 then
          if tupleSize version.values > maxSlotPayload then
            raise .rowTooLarge ("encoded tuple is " ++ toString (tupleSize version.values) ++ " bytes; maximum is " ++
              toString maxSlotPayload)
          else .ok (codec.headerBytes version version.values.length payload.length ++ payload)
        else raise .structError "argument out of range") := by
  obtain ⟨ws, hrow⟩ := h.row
  obtain ⟨rfl, hlength, haccepted⟩ := validateRow_accepted hrow
  have hxmin : validateUint version.xmin maxUint64 "xmin" = .ok () := if_neg (by have := h.xmin; unfold maxUint64; omega)
  have hxmax : validateUint version.xmax maxUint64 "xmax" = .ok () := if_neg (by have := h.xmax; unfold maxUint64; omega)
  have hlink : validateLink version.nextTid = .ok () := by
    cases hn : version.nextTid with
    | none => rfl
    | some tid =>
      obtain ⟨h1, h2⟩ := h.link tid hn
      have hpage : validateUint tid.pageId (2 ^ 64 - 1) "next page" = .ok () := if_neg (by omega)
      have hslot : validateUint tid.slotId (2 ^ 32 - 1) "next slot" = .ok () := if_neg (by omega)
      simp only [validateLink, hpage, hslot, bind, Except.bind]
  have hmem : ∀ v ∈ version.values, ∃ p ∈ codec.schema.columns.zip version.values, p.2 = v := by
    intro v hv
    rw [← List.map_snd_zip (le_of_eq hlength)] at hv
    obtain ⟨p, hp, rfl⟩ := List.mem_map.1 hv
    exact ⟨p, hp, rfl⟩
  by_cases hlong : ∃ v ∈ version.values, TooLong v
  · refine .inl ⟨hlong, ?_⟩
    obtain ⟨v, hv, ht⟩ := hlong
    obtain ⟨p, hp, rfl⟩ := hmem v hv
    obtain ⟨m, hm⟩ := encodeValues_tooLong 0 (List.replicate ((version.values.length + 7) / 8) 0) haccepted ⟨p, hp, ht⟩
    refine ⟨m, ?_⟩
    unfold TupleCodec.encode
    simp only [hxmin, hxmax, hrow, hlink, bind, Except.bind, hm]
    rfl
  · refine .inr ⟨hlong, ?_⟩
    have hstored : ∀ p ∈ codec.schema.columns.zip version.values, Stored p.1.dataType p.2 := by
      intro p hp
      refine (haccepted p hp).stored (fun ht => hlong ⟨p.2, ?_, ht⟩)
      exact (List.of_mem_zip (a := p.1) (b := p.2) hp).2
    obtain ⟨payload, hpayload⟩ := encodeValues_returns 0 (List.replicate ((version.values.length + 7) / 8) 0) hstored
    have hp : codec.Payload version.values payload := ⟨hpayload, hstored, hlength⟩
    refine ⟨payload, hp, ?_⟩
    have hsize : (codec.headerBytes version version.values.length payload.length ++ payload).length =
        tupleSize version.values := by
      rw [List.length_append, length_headerBytes, tupleSize_eq, hp.size]
    obtain ⟨hfits, hnot⟩ := h.packHeader version.values.length payload.length
    unfold TupleCodec.encode
    simp only [hxmin, hxmax, hrow, hlink, bind, Except.bind, hpayload]
    by_cases hheader : version.values.length < 2 ^ 16 ∧ payload.length < 2 ^ 32
    · rw [if_pos hheader, hfits hheader]
      simp only [hsize]
    · rw [if_neg hheader, hnot hheader]
      rfl

/-! ## The claim of the codec -/

theorem insert_empty {bytes : ByteString} (h : bytes.length ≤ maxSlotPayload) (pageId : Nat) :
    ((SlottedPage.empty pageId).insert bytes).2 = .ok 0 := by
  rw [((SlottedPage.valid_empty pageId).insert bytes).result]
  refine congrArg Prod.snd (if_neg ?_ : Directory.insert [] bytes = _)
  have hfree : Directory.free [] = 8136 := rfl
  have hgrowth : Directory.growth [] = 8 := rfl
  have hmax : maxSlotPayload = 8128 := rfl
  rw [hfree, hgrowth]
  omega

theorem replace_no_longer {pageId slotId : Nat} {calls : List SlotCall} {old bytes : ByteString} (h : bytes.length ≤ old.length)
    (hread : ((SlottedPage.empty pageId).run calls).1.read slotId = .ok old) :
    (((SlottedPage.empty pageId).run calls).1.replace slotId bytes).2 = .ok old := by
  have hvalid := (SlottedPage.Valid.run calls _ (SlottedPage.valid_empty pageId)).1
  generalize ((SlottedPage.empty pageId).run calls).1 = p at hvalid hread ⊢
  have hfree : 0 ≤ p.directory.free := by
    have hroom := hvalid.room
    have hlower := hvalid.lower_le
    rw [hvalid.free, SlottedPage.availableFreeBytes_eq]
    omega
  rw [(hvalid.replace slotId bytes).result, Directory.replace, p.read_directory, hread]
  simp only
  rw [if_neg (by omega)]

/-- **The codec is faithful on a version**: it refuses exactly what is too large, and with `RowTooLarge`; what it writes fits an
empty page, is read back as the version, and gives way to every other version with these values. -/
structure Faithful (codec : TupleCodec K) (version : TupleVersion) : Prop where
  refused  : (∃ m, codec.encode version = raise .rowTooLarge m) ↔ maxSlotPayload < tupleSize version.values
  others   : ∀ e, codec.encode version = .error e → e.kind = .rowTooLarge
  decoded  : ∀ bytes, codec.encode version = .ok bytes → bytes.length = tupleSize version.values ∧
    codec.decode bytes = .ok version ∧
    ∀ pageId, ((SlottedPage.empty pageId).insert bytes).2 = .ok 0
  rewrites : ∀ bytes version', codec.encode version = .ok bytes → codec.Encodable version' → version'.values = version.values →
    ∃ bytes', codec.encode version' = .ok bytes' ∧ bytes'.length = bytes.length ∧ ∀ pageId calls slotId,
      ((SlottedPage.empty pageId).run calls).1.read slotId = .ok bytes →
        (((SlottedPage.empty pageId).run calls).1.replace slotId bytes').2 = .ok bytes

/-- The number of values and the length of the payload fit their header fields, or a single text is refused before. -/
def FieldsFit (values : Values) : Prop := (∃ v ∈ values, TooLong v) ∨ (values.length < 2 ^ 16 ∧ payloadSize values < 2 ^ 32)

theorem scalarSize_le_sum {values : Values} {v : Scalar} (hv : v ∈ values) : scalarSize v ≤ (values.map scalarSize).sum :=
  List.single_le_sum (fun _ _ => Nat.zero_le _) _ (List.mem_map_of_mem hv)

theorem fields_of_small {values : Values} (h : tupleSize values ≤ maxSlotPayload) :
    values.length < 2 ^ 16 ∧ payloadSize values < 2 ^ 32 := by
  have hmax : maxSlotPayload = 8128 := rfl
  have hheader : tupleHeaderSize = 44 := rfl
  rw [tupleSize_eq] at h
  unfold payloadSize at h ⊢
  omega

theorem TooLong.size {values : Values} (h : ∃ v ∈ values, TooLong v) : maxSlotPayload < tupleSize values := by
  obtain ⟨v, hv, ht⟩ := h
  have hle := scalarSize_le_sum hv
  have hmax : maxSlotPayload = 8128 := rfl
  cases v with
  | text s =>
    rw [tupleSize_eq, payloadSize]
    simp only [scalarSize] at hle
    simp only [TooLong] at ht
    omega
  | _ => exact absurd ht id

/-- A version that is encoded: its bytes, and that it fits. -/
theorem Encodable.encode_ok (h : codec.Encodable version) {bytes : ByteString} (he : codec.encode version = .ok bytes) :
    tupleSize version.values ≤ maxSlotPayload ∧ bytes.length = tupleSize version.values ∧ codec.decode bytes = .ok version := by
  rcases h.encode_cases with ⟨-, m, hm⟩ | ⟨-, payload, hp, hcases⟩
  · exact absurd (hm.symm.trans he) raise_ne_ok
  · rw [hcases] at he
    split at he
    · rename_i hfields
      split at he
      · exact absurd he raise_ne_ok
      · rename_i hsmall
        cases he
        refine ⟨not_lt.1 hsmall, ?_, h.decode hp hfields.1 hfields.2⟩
        rw [List.length_append, length_headerBytes, tupleSize_eq, hp.size]
    · exact absurd he raise_ne_ok

/-- **A version that is small is encoded.** -/
theorem Encodable.encodes (h : codec.Encodable version) (hs : tupleSize version.values ≤ maxSlotPayload) :
    ∃ bytes, codec.encode version = .ok bytes := by
  rcases h.encode_cases with ⟨hlong, -⟩ | ⟨-, payload, hp, hcases⟩
  · exact absurd (TooLong.size hlong) (not_lt.2 hs)
  · have hfields := fields_of_small hs
    rw [← hp.size] at hfields
    rw [hcases, if_pos hfields, if_neg (not_lt.2 hs)]
    exact ⟨_, rfl⟩

/-- **The codec is faithful exactly where the header fields fit.** -/
theorem tuple_codec_faithful_iff (codec : TupleCodec K) (version : TupleVersion) (h : codec.Encodable version) :
    codec.Faithful version ↔ FieldsFit version.values := by
  constructor
  · intro hf
    rcases h.encode_cases with ⟨hlong, -⟩ | ⟨-, payload, hp, hcases⟩
    · exact .inl hlong
    · by_cases hfields : version.values.length < 2 ^ 16 ∧ payload.length < 2 ^ 32
      · rw [hp.size] at hfields
        exact .inr hfields
      · rw [if_neg hfields] at hcases
        cases hf.others _ hcases
  · intro hfit
    have hkind : (∃ m, codec.encode version = raise .rowTooLarge m) ∨ ∃ bytes, codec.encode version = .ok bytes := by
      rcases h.encode_cases with ⟨-, hm⟩ | ⟨hlong, payload, hp, hcases⟩
      · exact .inl hm
      · have hfields := hfit.resolve_left hlong
        rw [← hp.size] at hfields
        rw [if_pos hfields] at hcases
        split at hcases
        · exact .inl ⟨_, hcases⟩
        · exact .inr ⟨_, hcases⟩
    refine ⟨⟨?_, fun hlarge => ?_⟩, ?_, ?_, ?_⟩
    · rintro ⟨m, hm⟩
      by_contra hs
      obtain ⟨bytes, hb⟩ := h.encodes (not_lt.1 hs)
      exact absurd (hm.symm.trans hb) raise_ne_ok
    · refine hkind.resolve_right ?_
      rintro ⟨bytes, hb⟩
      exact absurd (h.encode_ok hb).1 (not_le.2 hlarge)
    · intro e he
      rcases hkind with ⟨m, hm⟩ | ⟨bytes, hb⟩
      · cases hm.symm.trans he
        rfl
      · cases hb.symm.trans he
    · intro bytes hb
      obtain ⟨hsmall, hlen, hdec⟩ := h.encode_ok hb
      exact ⟨hlen, hdec, insert_empty (by rw [hlen]; exact hsmall)⟩
    · intro bytes version' hb h' hv
      obtain ⟨hsmall, hlen, -⟩ := h.encode_ok hb
      rw [← hv] at hsmall
      obtain ⟨bytes', hb'⟩ := h'.encodes hsmall
      have hlen' : bytes'.length = bytes.length := by rw [(h'.encode_ok hb').2.1, hlen, hv]
      exact ⟨bytes', hb', hlen', fun _ _ _ hread => replace_no_longer (le_of_eq hlen') hread⟩

/-! ## A row of 65536 nulls -/

theorem validName_replicate (i : Nat) : ValidName (List.replicate (i + 1) 'c') :=
  ⟨List.cons_ne_nil _ _, fun h => by cases List.eq_of_mem_replicate h⟩

theorem neg_one_le_natCast (i : Nat) : -1 ≤ (i : Int) := by omega

/-- A column whose name is as long as its number. -/
def numberedColumn (i : Nat) : Column :=
  ⟨List.replicate (i + 1) 'c', .int64, true, false, false, i, validName_replicate i, neg_one_le_natCast i, keyed_of_false⟩

/-- A table of so many nullable columns. -/
def wideSchema (n : Nat) (hn : n ≠ 0) : Schema plain where
  columns := (List.range n).map numberedColumn
  nonempty := by simpa using hn
  numbered := by
    refine List.ext_getElem? (fun i => ?_)
    simp only [List.getElem?_map, List.getElem?_zipIdx]
    by_cases hi : i < n
    · simp [hi, Column.withId, numberedColumn]
    · simp [hi]
  distinct := by
    rw [List.map_map]
    refine List.nodup_range.map (fun i j h => ?_)
    have := congrArg List.length h
    simpa [numberedColumn, plain] using this
  primary := by
    rw [List.filter_eq_nil_iff.2 (fun c hc => ?_)]
    · exact Nat.zero_le 1
    · obtain ⟨i, -, rfl⟩ := List.mem_map.1 hc
      exact Bool.false_ne_true

theorem utf8_replicate (n : Nat) : (utf8 (List.replicate n 'c')).length = n := by
  induction n with
  | zero => rfl
  | succ n ih =>
    rw [List.replicate_succ, utf8, List.flatMap_cons, List.length_append, ← utf8, ih, Nat.add_comm]
    rfl

theorem fingerprint_wide {n : Nat} (hn : n ≠ 0) (hs : n < 256 ^ 4) : ∃ hash, schemaFingerprint (wideSchema n hn) = some hash := by
  have hprints : ∀ columns : List Column, (∀ c ∈ columns, ∃ i, i < n ∧ c = numberedColumn i) →
      ∃ prints, columns.mapM columnPrint = some prints := by
    intro columns
    induction columns with
    | nil => exact fun _ => ⟨[], rfl⟩
    | cons c rest ih =>
      intro h
      obtain ⟨i, hi, rfl⟩ := h c List.mem_cons_self
      obtain ⟨prints, hp⟩ := ih (fun d hd => h d (List.mem_cons_of_mem _ hd))
      have hname : (utf8 (numberedColumn i).name).length < 256 ^ 4 := by
        rw [show (utf8 (numberedColumn i).name).length = i + 1 from utf8_replicate _]
        omega
      have hone : ∃ print, columnPrint (numberedColumn i) = some print := ⟨_, if_pos hname⟩
      obtain ⟨print, hprint⟩ := hone
      rw [List.mapM_cons, hprint, hp]
      exact ⟨_, rfl⟩
  obtain ⟨prints, hp⟩ := hprints (wideSchema n hn).columns (fun c hc => by
    obtain ⟨i, hi, rfl⟩ := List.mem_map.1 hc
    exact ⟨i, List.mem_range.1 hi, rfl⟩)
  exact ⟨_, by unfold schemaFingerprint; rw [hp]; rfl⟩

/-- A row of nulls, which the schema accepts. -/
def nullRow (n : Nat) : TupleVersion := ⟨2, 0, none, List.replicate n .null⟩

theorem validateColumns_nulls : ∀ columns : List MiniPostgres.Column, (∀ c ∈ columns, c.nullable = true) →
    validateColumns columns (List.replicate columns.length .null) = .ok (List.replicate columns.length .null)
  | [], _        => rfl
  | c :: rest, h => by
    have hc : validateScalar .null c.dataType c.nullable = .ok .null := by
      rw [h c List.mem_cons_self]
      rfl
    rw [List.length_cons, List.replicate_succ, validateColumns, hc]
    simp only [validateColumns_nulls rest (fun d hd => h d (List.mem_cons_of_mem _ hd))]
    rfl

theorem encodable_nullRow {n : Nat} (hn : n ≠ 0) {codec : TupleCodec plain} (hc : codec.schema = wideSchema n hn) :
    codec.Encodable (nullRow n) := by
  refine ⟨show (2 : Nat) < 2 ^ 64 by decide, show (0 : Nat) < 2 ^ 64 by decide, fun tid h => (by cases h),
    List.replicate n .null, ?_⟩
  have hlen : (wideSchema n hn).rows.columns.length = n := by simp [Schema.rows, wideSchema]
  rw [hc]
  unfold Schema.validateRow MiniPostgres.Schema.validateRow
  rw [if_neg (not_not.2 (by rw [hlen]; exact List.length_replicate))]
  have hrow := validateColumns_nulls (wideSchema n hn).rows.columns (fun c hc => by
    obtain ⟨d, hd, rfl⟩ := List.mem_map.1 hc
    obtain ⟨i, -, rfl⟩ := List.mem_map.1 hd
    rfl)
  rw [hlen] at hrow
  exact hrow

/-- **A row of 65536 nulls is refused with `struct.error`.** -/
theorem wide_row_not_rowTooLarge : ¬∀ (K : Casing) (codec : TupleCodec K) (version : TupleVersion), codec.Encodable version →
    codec.Faithful version := by
  intro h
  obtain ⟨hash, hhash⟩ := fingerprint_wide (n := 65536) (by decide) (by decide)
  have hrow : TupleCodec.Encodable ⟨wideSchema 65536 (by decide), hash, hhash⟩ (nullRow 65536) :=
    encodable_nullRow (by decide) rfl
  rcases (tuple_codec_faithful_iff _ _ hrow).1 (h plain _ _ hrow) with ⟨v, hv, ht⟩ | ⟨hlen, -⟩
  · rw [List.eq_of_mem_replicate hv] at ht
    exact ht
  · rw [nullRow, List.length_replicate] at hlen
    exact absurd hlen (by decide)

/-! ## A row of four columns -/

def nullableColumn (name : Name) (dataType : DataType) (i : Nat) (h : ValidName name) : Column :=
  ⟨name, dataType, true, false, false, i, h, neg_one_le_natCast i, keyed_of_false⟩

/-- `n INT64, t TEXT, b BOOLEAN, f FLOAT64`, all nullable. -/
def mixedSchema : Schema plain where
  columns := [nullableColumn ['n'] .int64 0 (by decide), nullableColumn ['t'] .text 1 (by decide),
    nullableColumn ['b'] .boolean 2 (by decide), nullableColumn ['f'] .float64 3 (by decide)]
  nonempty := List.cons_ne_nil _ _
  numbered := rfl
  distinct := by decide
  primary  := by decide

def mixedCodec : TupleCodec plain := ⟨mixedSchema, (schemaFingerprint mixedSchema).get rfl, (Option.some_get _).symm⟩

/-- A version with a chain link: `(-5, 'é', TRUE, NULL)`. -/
def mixedRow : TupleVersion := ⟨2, 7, some ⟨3, 1⟩, [.int (-5), .text ['é'], .bool true, .null]⟩

theorem encodable_mixedRow : mixedCodec.Encodable mixedRow :=
  ⟨by decide, by decide, fun tid h => by cases h; decide, mixedRow.values, rfl⟩

/-- The row of the four columns is encoded, and read back. -/
theorem tuple_codec_faithful_mixed :
    mixedCodec.Faithful mixedRow ∧ ∃ encoded, mixedCodec.encode mixedRow = .ok encoded ∧
      mixedCodec.decode encoded = .ok mixedRow := by
  have hf := (tuple_codec_faithful_iff mixedCodec mixedRow encodable_mixedRow).2 (.inr (by decide))
  obtain ⟨encoded, he⟩ := encodable_mixedRow.encodes (by decide)
  exact ⟨hf, encoded, he, (hf.decoded encoded he).2.1⟩

end TupleCodec

end CatalogFile
end MiniPostgres
