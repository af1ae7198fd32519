import MiniPostgres.Fields
import MiniPostgres.TupleCodec
/-!
# TupleCanonical — the bytes that `decode` accepts

`decode` promises to reject what `encode` does not write.  It returns or compares every byte of the header and of the values; of
the null bitmap it reads one bit a column, and the bits behind the last column's are not looked at.
-/
namespace MiniPostgres
namespace CatalogFile

open Bytes (beBytes beNat length_beBytes)
open Bitmap (getBit)

variable {K : Casing}

/-! ## One value -/

/-- **Only the bytes of a text decode to it.** -/
theorem utf8_of_utf8Decode {bytes : ByteString} {s : List Char} (h : utf8Decode bytes = some s) : utf8 s = bytes := by
  obtain ⟨chars, hchars, rfl⟩ := Option.map_eq_some_iff.1 h
  have hsome : bytes.toByteArray.utf8Decode?.isSome := by rw [hchars]; rfl
  have hencode := ByteArray.utf8Encode_get_utf8Decode? (b := bytes.toByteArray) (h := hsome)
  rw [Option.get_of_eq_some hsome hchars] at hencode
  have hlists := congrArg (fun b : ByteArray => b.data.toList) hencode
  simpa [List.utf8Encode, utf8] using hlists

theorem pattern_signed64 {n : Nat} (h : n < 2 ^ 64) :
    (int64Min ≤ signed64 n ∧ signed64 n ≤ int64Max) ∧ (signed64 n % 2 ^ 64).toNat = n := by
  unfold signed64 int64Min int64Max
  split <;> omega

theorem requireBytes_eq_ok {payload : ByteString} {cursor size stop : Nat} (h : requireBytes payload cursor size = .ok stop) :
    cursor + size ≤ payload.length ∧ stop = cursor + size := by
  unfold requireBytes at h
  split at h
  · exact absurd h raise_ne_ok
  · cases h
    exact ⟨by omega, rfl⟩

/-- The value's bytes stand at the cursor, and the next cursor is behind them. -/
structure ReadAt (dataType : DataType) (value : Scalar) (payload : ByteString) (cursor next : Nat)
    (bytes : ByteString) : Prop where
  encoded : encodeScalar dataType value = .ok bytes
  stands  : slice payload cursor bytes.length = bytes
  next_eq : next = cursor + bytes.length
  inside  : next ≤ payload.length

theorem ReadAt.of_slice {d : DataType} {v : Scalar} {payload : ByteString} {cursor width : Nat}
    (hlen : cursor + width ≤ payload.length) (h : encodeScalar d v = .ok (slice payload cursor width)) :
    ReadAt d v payload cursor (cursor + width) (slice payload cursor width) :=
  ⟨h, by rw [length_slice hlen], by rw [length_slice hlen], hlen⟩

/-- **A value that is read is written as the bytes it was read from.** -/
theorem decodeScalar_inverse {d : DataType} {payload : ByteString} {cursor next : Nat} {v : Scalar}
    (h : decodeScalar d payload cursor = .ok (v, next)) : v ≠ .null ∧ ∃ bytes, ReadAt d v payload cursor next bytes := by
  unfold decodeScalar at h
  cases d with
  | int64 =>
    obtain ⟨stop, hstop, h⟩ := bind_eq_ok.1 h
    obtain ⟨hlen, rfl⟩ := requireBytes_eq_ok hstop
    cases h
    obtain ⟨hrange, hpattern⟩ := pattern_signed64 (field_lt hlen)
    refine ⟨(fun h => by cases h), _, .of_slice hlen ?_⟩
    rw [encodeScalar, packInt64, if_pos hrange, hpattern, beBytes_field hlen]
  | float64 =>
    obtain ⟨stop, hstop, h⟩ := bind_eq_ok.1 h
    obtain ⟨hlen, rfl⟩ := requireBytes_eq_ok hstop
    cases h
    refine ⟨(fun h => by cases h), _, .of_slice hlen ?_⟩
    rw [encodeScalar, BitVec.toNat_ofNat, Nat.mod_eq_of_lt (show field payload cursor 8 < 2 ^ 64 from field_lt hlen),
      beBytes_field hlen]
  | boolean =>
    cases hb : payload[cursor]? with
    | none =>
      rw [hb] at h
      exact absurd h raise_ne_ok
    | some b =>
      rw [hb] at h
      simp only at h
      split at h
      · exact absurd h raise_ne_ok
      · rename_i hbool
        cases h
        have hlen : cursor + 1 ≤ payload.length := (List.getElem?_eq_some_iff.1 hb).1
        have hslice : slice payload cursor 1 = [b] := by
          refine slice_byte hlen ?_
          unfold field
          rw [List.take_one, List.head?_drop, hb]
          simp [beNat]
        refine ⟨(fun h => by cases h), _, .of_slice hlen ?_⟩
        rw [hslice]
        unfold encodeScalar flagByte
        by_cases h0 : b = 0
        · rw [h0]
          rfl
        · by_cases h1 : b = 1
          · rw [h1]
            rfl
          · exact absurd ⟨h0, h1⟩ hbool
  | text =>
    obtain ⟨start, hstart, h⟩ := bind_eq_ok.1 h
    obtain ⟨hlen, rfl⟩ := requireBytes_eq_ok hstart
    simp only at h
    split at h
    · exact absurd h raise_ne_ok
    · rename_i hend
      rw [not_lt] at hend
      split at h
      · exact absurd h raise_ne_ok
      · rename_i s hs
        cases h
        have hutf := utf8_of_utf8Decode hs
        have hsize : (utf8 s).length = field payload cursor 4 := by rw [hutf, length_slice hend]
        have hraw := field_lt hlen
        refine ⟨(fun h => by cases h), slice payload cursor (4 + field payload cursor 4), ?_⟩
        rw [Nat.add_assoc] at hend ⊢
        refine .of_slice hend ?_
        rw [encodeScalar, if_neg (by omega), hsize, beBytes_field hlen, hutf, slice_add]

/-! ## What is raised -/

/-- Whatever is raised is `CorruptPage`. -/
def OnlyCorrupt {α : Type} (r : Result α) : Prop := ∀ e, r = .error e → e.kind = .corruptPage

namespace OnlyCorrupt

variable {α β : Type}

theorem ok (a : α) : OnlyCorrupt (.ok a : Result α) := fun e h => by cases h

theorem raise (message : String) : OnlyCorrupt (MiniPostgres.raise .corruptPage message : Result α) := fun e h => by
  cases h
  rfl

theorem bind {x : Result α} {f : α → Result β} (hx : OnlyCorrupt x) (hf : ∀ a, OnlyCorrupt (f a)) : OnlyCorrupt (x >>= f) := by
  intro e h
  cases x with
  | error e' =>
    cases h
    exact hx _ rfl
  | ok a => exact hf a e h

end OnlyCorrupt

theorem requireBytes_corrupt (payload : ByteString) (cursor size : Nat) : OnlyCorrupt (requireBytes payload cursor size) := by
  unfold requireBytes
  split
  · exact .raise _
  · exact .ok _

theorem decodeScalar_corrupt (d : DataType) (payload : ByteString) (cursor : Nat) :
    OnlyCorrupt (decodeScalar d payload cursor) := by
  unfold decodeScalar
  cases d with
  | int64 => exact .bind (requireBytes_corrupt _ _ _) (fun stop => .ok _)
  | float64 => exact .bind (requireBytes_corrupt _ _ _) (fun stop => .ok _)
  | boolean =>
    simp only
    split
    · exact .raise _
    · split
      · exact .raise _
      · exact .ok _
  | text =>
    refine .bind (requireBytes_corrupt _ _ _) (fun start => ?_)
    simp only
    split
    · exact .raise _
    · split
      · exact .raise _
      · exact .ok _

theorem decodeValues_corrupt (payload bitmap : ByteString) : ∀ (columns : List Column) (index cursor : Nat),
    OnlyCorrupt (decodeValues payload bitmap columns index cursor)
  | [], _, _ => .ok _
  | column :: rest, index, cursor => by
    unfold decodeValues
    split
    · exact .bind (decodeValues_corrupt payload bitmap rest _ _) (fun p => .ok _)
    · exact .bind (decodeScalar_corrupt _ _ _) (fun p =>
        .bind (decodeValues_corrupt payload bitmap rest _ _) (fun q => .ok _))

theorem decodeLink_corrupt (flags nextPage nextSlot : Nat) : OnlyCorrupt (decodeLink flags nextPage nextSlot) := by
  unfold decodeLink
  split
  · exact .ok _
  · split
    · exact .raise _
    · exact .ok _

/-! ## The payload -/

/-- The values behind the cursor, as `decode` reads them. -/
structure ValuesAt (columns : List Column) (values : Values) (payload bitmap : ByteString) (index cursor stop : Nat)
    (bytes : ByteString) : Prop where
  length  : values.length = columns.length
  bodies  : Bodies (columns.zip values) bytes
  stands  : slice payload cursor bytes.length = bytes
  stop_eq : stop = cursor + bytes.length
  bits    : ∀ j, index ≤ j → j < index + columns.length → getBit bitmap j = nullAt (columns.zip values) index j

/-- **The loop of `decode`** reads the values from their bytes and the nulls from their bits. -/
theorem decodeValues_inverse {payload bitmap : ByteString} :
    ∀ {columns : List Column} {index cursor stop : Nat} {values : Values},
    decodeValues payload bitmap columns index cursor = .ok (values, stop) →
      ∃ bytes, ValuesAt columns values payload bitmap index cursor stop bytes
  | [], index, cursor, stop, values, h => by
    cases h
    exact ⟨[], rfl, rfl, List.take_zero, rfl, fun j hj hj' => absurd hj (not_le.2 hj')⟩
  | column :: rest, index, cursor, stop, values, h => by
    unfold decodeValues at h
    split at h
    · rename_i hbit
      obtain ⟨⟨tail, stop'⟩, htail, h⟩ := bind_eq_ok.1 h
      cases h
      obtain ⟨bytes, hlen, hbodies, hstands, hstop, hbits⟩ := decodeValues_inverse htail
      refine ⟨bytes, by rw [List.length_cons, hlen, List.length_cons], ?_, hstands, hstop, fun j hj hj' => ?_⟩
      · rw [List.zip_cons_cons, Bodies, if_pos rfl]
        exact hbodies
      · rw [List.length_cons] at hj'
        rw [List.zip_cons_cons, nullAt_cons]
        by_cases hji : j = index
        · rw [hji, hbit]
          simp
        · rw [decide_eq_false (fun h => hji h.1), Bool.false_or]
          exact hbits j (by omega) (by omega)
    · rename_i hbit
      obtain ⟨⟨value, next⟩, hvalue, h⟩ := bind_eq_ok.1 h
      obtain ⟨⟨tail, stop'⟩, htail, h⟩ := bind_eq_ok.1 h
      cases h
      obtain ⟨hnull, x, hx, hxstands, rfl, hinside⟩ := decodeScalar_inverse hvalue
      obtain ⟨bytes, hlen, hbodies, hstands, hstop, hbits⟩ := decodeValues_inverse htail
      refine ⟨x ++ bytes, by rw [List.length_cons, hlen, List.length_cons], ?_, ?_, ?_, fun j hj hj' => ?_⟩
      · rw [List.zip_cons_cons, Bodies, if_neg hnull]
        exact ⟨x, bytes, hx, hbodies, rfl⟩
      · rw [List.length_append, slice_add, hxstands, hstands]
      · rw [List.length_append, hstop, Nat.add_assoc]
      · rw [List.length_cons] at hj'
        rw [List.zip_cons_cons, nullAt_cons]
        by_cases hji : j = index
        · rw [hji, decide_eq_false (fun h => hnull h.2), Bool.false_or]
          simp [nullAt, hbit]
        · rw [decide_eq_false (fun h => hji h.1), Bool.false_or]
          exact hbits j (by omega) (by omega)

theorem bodies_unique : ∀ {rest : List (Column × Scalar)} {a b : ByteString}, Bodies rest a → Bodies rest b → a = b
  | [], a, b, ha, hb => by rw [show a = [] from ha, show b = [] from hb]
  | (column, value) :: rest, a, b, ha, hb => by
    unfold Bodies at ha hb
    by_cases hv : value = .null
    · rw [if_pos hv] at ha hb
      exact bodies_unique ha hb
    · rw [if_neg hv] at ha hb
      obtain ⟨x, y, hx, hy, rfl⟩ := ha
      obtain ⟨x', y', hx', hy', rfl⟩ := hb
      cases hx.symm.trans hx'
      rw [bodies_unique hy hy']

theorem bodies_stored : ∀ {rest : List (Column × Scalar)} {bytes : ByteString}, Bodies rest bytes →
    (∀ p ∈ rest, Accepted p.1.dataType p.2) → ∀ p ∈ rest, Stored p.1.dataType p.2
  | [], _, _, _, p, hp => by cases hp
  | (column, value) :: rest, bytes, h, ha, p, hp => by
    have hrest : ∀ p ∈ rest, Accepted p.1.dataType p.2 := fun p hp => ha p (List.mem_cons_of_mem _ hp)
    unfold Bodies at h
    by_cases hv : value = .null
    · rw [if_pos hv] at h
      rcases List.mem_cons.1 hp with rfl | hp
      · rw [hv]
        trivial
      · exact bodies_stored h hrest p hp
    · rw [if_neg hv] at h
      obtain ⟨x, y, hx, hy, rfl⟩ := h
      rcases List.mem_cons.1 hp with rfl | hp
      · refine (ha _ List.mem_cons_self).stored (fun hlong => ?_)
        obtain ⟨m, hm⟩ := (ha _ List.mem_cons_self).tooLong hlong
        exact raise_ne_ok (hm.symm.trans hx)
      · exact bodies_stored hy hrest p hp

/-! ## The whole tuple -/

namespace TupleCodec

variable {codec : TupleCodec K} {version : TupleVersion} {encoded : ByteString}

def bitmapLength (codec : TupleCodec K) : Nat := (codec.schema.columns.length + 7) / 8

/-- **The bits behind the last column's** are not set. -/
def PaddingClear (codec : TupleCodec K) (encoded : ByteString) : Prop :=
  ∀ j, codec.schema.columns.length ≤ j → j < 8 * codec.bitmapLength →
    getBit (slice encoded tupleHeaderSize codec.bitmapLength) j = false

/-- What `decode` has read when it returns. -/
structure Decoded (codec : TupleCodec K) (encoded : ByteString) (version : TupleVersion) : Prop where
  encodable : codec.Encodable version
  count     : codec.schema.columns.length < 2 ^ 16
  size      : (encoded.drop tupleHeaderSize).length < 2 ^ 32
  header    : codec.headerBytes version codec.schema.columns.length (encoded.drop tupleHeaderSize).length =
    encoded.take tupleHeaderSize
  values    : ∃ bytes, ValuesAt codec.schema.columns version.values (encoded.drop tupleHeaderSize)
    ((encoded.drop tupleHeaderSize).take codec.bitmapLength) 0 codec.bitmapLength (encoded.drop tupleHeaderSize).length bytes

theorem decodeLink_eq_ok {flags nextPage nextSlot : Nat} {link : Option TID} (hf : ¬flags > 1)
    (h : decodeLink flags nextPage nextSlot = .ok link) :
    (flagByte link.isSome).toNat = flags ∧ (link.map TID.pageId).getD 0 = nextPage ∧
      (link.map TID.slotId).getD 0 = nextSlot ∧ ∀ tid, link = some tid → tid = ⟨nextPage, nextSlot⟩ := by
  unfold decodeLink at h
  split at h
  · rename_i h1
    cases h
    exact ⟨h1.symm, rfl, rfl, fun tid ht => by cases ht; rfl⟩
  · split at h
    · exact absurd h raise_ne_ok
    · rename_i h1 h0
      rw [not_or, not_not, not_not] at h0
      cases h
      exact ⟨show 0 = flags by omega, h0.1.symm, h0.2.symm, fun tid ht => by cases ht⟩

/-- **`decode` reads every byte of the header.** -/
theorem decoded_of_decode (h : codec.decode encoded = .ok version) : codec.Decoded encoded version := by
  have h44 : tupleHeaderSize = 44 := rfl
  unfold TupleCodec.decode at h
  split at h
  · exact absurd h raise_ne_ok
  rename_i hlong
  split at h
  · exact absurd h raise_ne_ok
  rename_i hformat
  split at h
  · exact absurd h raise_ne_ok
  rename_i hflags
  split at h
  · exact absurd h raise_ne_ok
  rename_i hcount
  split at h
  · exact absurd h raise_ne_ok
  rename_i hhash
  split at h
  · exact absurd h raise_ne_ok
  rename_i hsize
  split at h
  · exact absurd h raise_ne_ok
  rename_i hbitmap
  rw [not_or, not_not, not_not] at hformat
  rw [not_not] at hcount hhash hsize
  rw [hcount] at hbitmap
  simp only [hcount] at h
  obtain ⟨⟨values, cursor⟩, hvalues, h⟩ := bind_eq_ok.1 h
  simp only at h
  split at h
  · exact absurd h raise_ne_ok
  rename_i hcursor
  rw [not_not] at hcursor
  obtain ⟨link, hlink, h⟩ := bind_eq_ok.1 h
  obtain ⟨hflag, hpage, hslot, htid⟩ := decodeLink_eq_ok hflags hlink
  split at h
  · exact absurd h raise_ne_ok
  rename_i ws hrow
  cases h
  have hlen : (encoded.drop tupleHeaderSize).length = field encoded 40 4 := by
    rw [List.length_drop]
    omega
  refine ⟨⟨field_lt (by omega), field_lt (by omega), fun tid ht => ?_, ws, hrow⟩, ?_, ?_, ?_, ?_⟩
  · rw [htid tid ht]
    exact ⟨field_lt (by omega), field_lt (by omega)⟩
  · rw [← hcount]
    exact field_lt (by omega)
  · rw [hlen]
    exact field_lt (by omega)
  · have hversion : [(1 : UInt8)] = slice encoded 4 1 := (slice_byte (by omega) hformat.2).symm
    have hflagByte : [flagByte link.isSome] = slice encoded 5 1 := (slice_byte (by omega) hflag.symm).symm
    unfold TupleCodec.headerBytes
    rw [hlen, ← hcount, ← hhash, hpage, hslot, ← hformat.1, hversion, hflagByte]
    simp only [← List.append_assoc]
    rw [beBytes_field (by omega), beBytes_field (by omega), beBytes_field (by omega), beBytes_field (by omega),
      beBytes_field (by omega), beBytes_field (by omega), beBytes_field (by omega), ← take_eq_slice]
    simp only [take_slice]
    rfl
  · rw [hcursor] at hvalues
    exact decodeValues_inverse hvalues

theorem Decoded.payload (h : codec.Decoded encoded version) : ∃ bytes,
    encoded.drop tupleHeaderSize = slice encoded tupleHeaderSize codec.bitmapLength ++ bytes ∧
    (slice encoded tupleHeaderSize codec.bitmapLength).length = codec.bitmapLength ∧
    Bodies (codec.schema.columns.zip version.values) bytes ∧
    ∀ j, j < codec.schema.columns.length → getBit (slice encoded tupleHeaderSize codec.bitmapLength) j =
      nullAt (codec.schema.columns.zip version.values) 0 j := by
  obtain ⟨bytes, hlen, hbodies, hstands, hstop, hbits⟩ := h.values
  have hbytes : bytes = (encoded.drop tupleHeaderSize).drop codec.bitmapLength := by
    rw [← hstands]
    unfold slice
    rw [List.take_of_length_le]
    rw [List.length_drop, hstop]
    omega
  refine ⟨bytes, ?_, ?_, hbodies, fun j hj => hbits j (Nat.zero_le _) (by omega)⟩
  · rw [hbytes, slice, List.take_append_drop]
  · rw [slice, List.length_take]
    omega

/-- What is accepted is what `encode` writes if the bits behind the last column's are not set, or the tuple is too large. -/
theorem encode_decoded_iff (h : codec.decode encoded = .ok version) :
    (codec.encode version = .ok encoded ∨ ∃ m, codec.encode version = raise .rowTooLarge m) ↔
      maxSlotPayload < encoded.length ∨ codec.PaddingClear encoded := by
  have hd := decoded_of_decode h
  obtain ⟨bytes, hpayload, hbitmap, hbodies, hbits⟩ := hd.payload
  obtain ⟨ws, hrow⟩ := hd.encodable.row
  obtain ⟨-, hlength, haccepted⟩ := validateRow_accepted hrow
  have hstored := bodies_stored hbodies haccepted
  have hmapped : (codec.schema.columns.zip version.values).map (fun p => scalarSize p.2) = version.values.map scalarSize := by
    rw [show (fun p : Column × Scalar => scalarSize p.2) = scalarSize ∘ Prod.snd from rfl, ← List.map_map,
      List.map_snd_zip (le_of_eq hlength)]
  have hsize : (encoded.drop tupleHeaderSize).length = payloadSize version.values := by
    rw [hpayload, List.length_append, hbitmap, length_bodies hstored hbodies, hmapped, payloadSize, hlength]
    rfl
  have hwhole : encoded = codec.headerBytes version codec.schema.columns.length (encoded.drop tupleHeaderSize).length ++
      encoded.drop tupleHeaderSize := by rw [hd.header, List.take_append_drop]
  have htuple : encoded.length = tupleSize version.values := by
    rw [hwhole, List.length_append, length_headerBytes, tupleSize_eq, hsize]
  rcases hd.encodable.encode_cases with ⟨hlong, m, hm⟩ | ⟨-, payload, hp, hcases⟩
  · refine ⟨fun _ => .inl ?_, fun _ => .inr ⟨m, hm⟩⟩
    rw [htuple]
    exact TooLong.size hlong
  · rw [if_pos ⟨by rw [hlength]; exact hd.count, by rw [hp.size, ← hsize]; exact hd.size⟩, hp.size, ← hsize, hlength] at hcases
    by_cases hlarge : tupleSize version.values > maxSlotPayload
    · rw [if_pos hlarge] at hcases
      exact ⟨fun _ => .inl (by rw [htuple]; exact hlarge), fun _ => .inr ⟨_, hcases⟩⟩
    · rw [if_neg hlarge] at hcases
      obtain ⟨bitmap, body, rfl, hlen, hnull, hbody⟩ := hp.parts
      rw [hlength] at hlen
      have hsame : codec.encode version = .ok encoded ↔ bitmap = slice encoded tupleHeaderSize codec.bitmapLength := by
        rw [hcases]
        constructor
        · intro he
          have he := (Except.ok.inj he).trans hwhole
          rw [List.append_cancel_left_eq, hpayload] at he
          exact List.append_inj_left he (hlen.trans hbitmap.symm)
        · intro he
          refine congrArg Except.ok (Eq.trans ?_ hwhole.symm)
          rw [List.append_cancel_left_eq, hpayload, he, bodies_unique hbody hbodies]
      have hclear : bitmap = slice encoded tupleHeaderSize codec.bitmapLength ↔ codec.PaddingClear encoded := by
        constructor
        · rintro rfl j hj -
          rw [hnull, nullAt, List.getElem?_eq_none (by rw [List.length_zip]; omega)]
          simp
        · intro hc
          refine Bitmap.ext_getBit (hlen.trans hbitmap.symm) (fun j hj => ?_)
          rw [hnull]
          by_cases hin : j < codec.schema.columns.length
          · exact (hbits j hin).symm
          · rw [hc j (not_lt.1 hin) (by rw [hlen] at hj; exact hj), nullAt,
              List.getElem?_eq_none (by rw [List.length_zip]; omega)]
            simp
      constructor
      · rintro (he | ⟨m, hm⟩)
        · exact .inr (hclear.1 (hsame.1 he))
        · exact absurd (hm.symm.trans hcases) raise_ne_ok
      · rintro (hl | hc)
        · rw [htuple] at hl
          exact absurd hl hlarge
        · exact .inl (hsame.2 (hclear.2 hc))

/-- **`decode` raises nothing but `CorruptPage`**. -/
theorem decode_corrupt (codec : TupleCodec K) (encoded : ByteString) : OnlyCorrupt (codec.decode encoded) := by
  unfold TupleCodec.decode
  repeat' refine iteInduction (motive := OnlyCorrupt) (fun _ => .raise _) (fun _ => ?_)
  refine .bind (decodeValues_corrupt _ _ _ _ _) (fun p => ?_)
  simp only
  refine iteInduction (motive := OnlyCorrupt) (fun _ => .raise _) (fun _ => .bind (decodeLink_corrupt _ _ _) (fun link => ?_))
  split
  · exact .raise _
  · exact .ok _

/-- **`decode` raises `CorruptPage` or returns**, and what it accepts is what `encode` writes if the bits behind the last
column's are not set, or the tuple is too large. -/
theorem tuple_decode_canonical_iff (codec : TupleCodec K) (encoded : ByteString) :
    (∀ e, codec.decode encoded = .error e → e.kind = .corruptPage) ∧
    ∀ version, codec.decode encoded = .ok version →
      ((codec.encode version = .ok encoded ∨ ∃ m, codec.encode version = raise .rowTooLarge m) ↔
        maxSlotPayload < encoded.length ∨ codec.PaddingClear encoded) :=
  ⟨codec.decode_corrupt encoded, fun _ h => encode_decoded_iff h⟩

/-- The encoded row is read back, so no bit behind the fourth is set. -/
theorem tuple_decode_canonical_mixed : ∃ encoded, mixedCodec.decode encoded = .ok mixedRow ∧ encoded.length = 60 ∧
    mixedCodec.PaddingClear encoded := by
  obtain ⟨encoded, he⟩ := encodable_mixedRow.encodes (by decide)
  obtain ⟨-, hlen, hd⟩ := encodable_mixedRow.encode_ok he
  rw [show tupleSize mixedRow.values = 60 by decide] at hlen
  have hclear := ((tuple_decode_canonical_iff mixedCodec encoded).2 mixedRow hd).1 (.inl he)
  exact ⟨encoded, hd, hlen, hclear.resolve_left (by rw [hlen]; decide)⟩

/-- **A null row with a bit set behind its only column's** is accepted, and is not what `encode` writes. -/
theorem padded_bitmap_accepted : ¬∀ (K : Casing) (codec : TupleCodec K) (encoded : ByteString) (version : TupleVersion),
    (∀ c ∈ codec.schema.columns, c.dataType ≠ .float64) → codec.decode encoded = .ok version →
      codec.encode version = .ok encoded ∨ ∃ m, codec.encode version = raise .rowTooLarge m := by
  intro h
  obtain ⟨hash, hhash⟩ := fingerprint_wide (n := 1) (by decide) (by decide)
  have hrow : TupleCodec.Encodable ⟨wideSchema 1 (by decide), hash, hhash⟩ (nullRow 1) := encodable_nullRow (by decide) rfl
  have hcolumns : (wideSchema 1 (by decide)).columns = [numberedColumn 0] := rfl
  generalize hcodec : (⟨wideSchema 1 (by decide), hash, hhash⟩ : TupleCodec plain) = codec at hrow
  have hschema : codec.schema = wideSchema 1 (by decide) := by rw [← hcodec]
  -- the bitmap `3` has the null's bit and the bit of a second column
  have hdecode : codec.decode (codec.headerBytes (nullRow 1) 1 1 ++ [3]) = .ok (nullRow 1) := by
    generalize hb : codec.headerBytes (nullRow 1) 1 1 ++ [3] = bytes
    obtain ⟨h0, h4, h5, h6, h8, h16, h24, h32, h36, h40, hdrop⟩ :=
      hrow.fields (show 1 < 2 ^ 16 by decide) (show [3].length < 2 ^ 32 by decide) hb.symm
    have hlen : bytes.length = tupleHeaderSize + 1 := by
      rw [← hb, List.length_append, length_headerBytes]
      rfl
    have hvalues : decodeValues [3] [3] [numberedColumn 0] 0 1 = .ok ([.null], 1) := rfl
    obtain ⟨ws, hws⟩ := hrow.row
    have hvalidate : codec.schema.validateRow [.null] = .ok ws := hws
    unfold TupleCodec.decode
    rw [if_neg (by omega), if_neg (by rw [h0, h4]; simp), h5, if_neg (by decide), h6, hschema, hcolumns, if_neg (by decide), h36,
      if_neg (not_not.2 rfl), h40,
      if_neg (show ¬(bytes.length ≠ tupleHeaderSize + [(3 : UInt8)].length) from not_not.2 hlen), if_neg (by decide), hdrop]
    simp only [show (1 + 7) / 8 = 1 from rfl, show List.take 1 [(3 : UInt8)] = [3] from rfl, hvalues, bind, Except.bind,
      List.length_singleton, ne_eq, not_true_eq_false, if_false, h24, h32, decodeLink_flags, ← hschema, hvalidate, h8, h16]
    rfl
  have hencode : codec.encode (nullRow 1) = .ok (codec.headerBytes (nullRow 1) 1 1 ++ [1]) := by
    rcases hrow.encode_cases with ⟨⟨v, hv, ht⟩, -⟩ | ⟨-, payload, hp, hcases⟩
    · rw [List.eq_of_mem_replicate hv] at ht
      exact absurd ht id
    · have hmade := hp.made
      rw [hschema, hcolumns] at hmade
      cases hmade
      exact hcases
  rcases h plain codec _ _ (fun c hc => by rw [hschema, hcolumns, List.mem_singleton] at hc; rw [hc]; decide)
    hdecode with he | ⟨m, hm⟩
  · have hbytes := Except.ok.inj (hencode.symm.trans he)
    rw [List.append_cancel_left_eq] at hbytes
    exact absurd hbytes (by decide)
  · exact absurd (hm.symm.trans hencode) raise_ne_ok

end TupleCodec

end CatalogFile
end MiniPostgres
