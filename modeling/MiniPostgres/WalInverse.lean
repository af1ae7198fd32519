import MiniPostgres.Fields
/-!
# WalInverse — records and their bytes, one to one

`Encoded.decode` in `WalCodec.lean` is one direction.  Here is the other: `decode_record` reads every byte it is given and
returns it or compares it, so what it accepts is what `encode_record` writes for the record that it returns.  A redo LSN is not
checked when a checkpoint record is made; one that does not fit 64 bits is refused by `struct` when the record is encoded.
-/
namespace MiniPostgres

open Bytes (beBytes beNat crc32 length_beBytes beNat_beBytes)

/-! ## Records that can be encoded -/

/-- The length of the record's bytes. -/
def recordLength : RawRecord → Nat
  | .heapPageImages images _ => headerSize + (4 + images.length * (pageImageHeaderSize + walPageSize))
  | .checkpoint _            => headerSize + 8
  | _                        => headerSize

/-- The redo LSN of a checkpoint fits its field. -/
def RedoFits : RawRecord → Prop
  | .checkpoint redoLsn => redoLsn < 2 ^ 64
  | _                   => True

theorem packField_fits {width n : Nat} (h : n < 256 ^ width) : packField width n = .ok (beBytes width n) := if_pos h

theorem length_flatMap_imageBytes (images : List (RelationPage × PageBytes)) :
    (images.flatMap imageBytes).length = images.length * (pageImageHeaderSize + walPageSize) := by
  induction images with
  | nil => simp
  | cons p images ih => rw [List.flatMap_cons, List.length_append, ih, length_imageBytes, List.length_cons,
    Nat.succ_mul, Nat.add_comm]

/-- **A record that fits has a payload**, of the length that its fields say. -/
theorem payload_fits {record : RawRecord} (hr : RedoFits record) (hl : recordLength record < 2 ^ 32) :
    ∃ body, payload record = .ok body ∧ headerSize + body.length = recordLength record := by
  cases record with
  | begin => exact ⟨[], rfl, rfl⟩
  | commit => exact ⟨[], rfl, rfl⟩
  | abort => exact ⟨[], rfl, rfl⟩
  | checkpoint redoLsn =>
    refine ⟨_, packField_fits hr, ?_⟩
    rw [length_beBytes]
    rfl
  | heapPageImages images hne =>
    have hcount : images.length < 256 ^ 4 := by
      simp only [recordLength, pageImageHeaderSize, walPageSize, headerSize] at hl
      omega
    refine ⟨beBytes 4 images.length ++ images.flatMap imageBytes, ?_, ?_⟩
    · rw [payload, packField_fits hcount]
      rfl
    · rw [List.length_append, length_beBytes, length_flatMap_imageBytes]
      rfl

/-! ## What is decoded is encoded -/

theorem value_of_ofValue {n : Nat} {fork : ForkKind} (h : ForkKind.ofValue n = some fork) : n = fork.value := by
  unfold ForkKind.ofValue at h
  split at h
  · cases h; rfl
  · cases h; rfl
  · cases h

theorem toNat_ofNat_field {bytes : ByteString} {offset : Nat} (h : offset + 8 ≤ bytes.length) :
    (UInt64.ofNat (field bytes offset 8)).toNat = field bytes offset 8 := by
  rw [UInt64.toNat_ofNat']
  exact Nat.mod_eq_of_lt (field_lt h)

/-- **The images that are read are the bytes they are read from.** -/
theorem decodeImages_inverse : ∀ {n : Nat} {rest : ByteString} {images : List (RelationPage × PageBytes)},
    decodeImages n rest = .ok images → images.length = n ∧ images.flatMap imageBytes = rest
  | 0, rest, images, h => by
    unfold decodeImages at h
    split at h
    · rename_i hrest
      cases h
      exact ⟨rfl, hrest.symm⟩
    · exact absurd h raise_ne_ok
  | n + 1, rest, images, h => by
    unfold decodeImages at h
    split at h
    · rename_i hlen
      have hsizes : pageImageHeaderSize = 17 ∧ walPageSize = 8192 := ⟨rfl, rfl⟩
      split at h
      · exact absurd h raise_ne_ok
      · rename_i fork hfork
        obtain ⟨tail, htail, h⟩ := bind_eq_ok.1 h
        cases h
        obtain ⟨hn, hbytes⟩ := decodeImages_inverse htail
        refine ⟨by rw [List.length_cons, hn], ?_⟩
        rw [List.flatMap_cons, hbytes]
        unfold imageBytes
        simp only
        rw [← value_of_ofValue hfork, toNat_ofNat_field (by omega), toNat_ofNat_field (by omega), beBytes_field (by omega),
          beBytes_field (by omega), beBytes_field (by omega)]
        -- the fork, the two numbers, the page, and what follows
        calc slice rest 0 1 ++ slice rest 1 8 ++ slice rest 9 8 ++ slice rest 17 walPageSize ++ rest.drop (17 + walPageSize)
            = rest.take 17 ++ slice rest 17 walPageSize ++ rest.drop (17 + walPageSize) := by
              rw [← take_eq_slice, take_slice, take_slice]
          _ = rest := by rw [take_slice, List.take_append_drop]
    · exact absurd h raise_ne_ok

theorem requireEmpty_eq_ok {body : ByteString} {record r : RawRecord} (h : requireEmpty body record = .ok r) :
    body = [] ∧ r = record := by
  unfold requireEmpty at h
  split at h
  · rename_i hb
    cases h
    exact ⟨hb, rfl⟩
  · exact absurd h raise_ne_ok

theorem decodePayload_inverse {kind : Nat} {body : ByteString} {record : RawRecord} (h : decodePayload kind body = .ok record) :
    (recordKind record).toNat = kind ∧ payload record = .ok body := by
  unfold decodePayload at h
  split at h
  · obtain ⟨rfl, rfl⟩ := requireEmpty_eq_ok h
    exact ⟨rfl, rfl⟩
  · split at h
    · exact absurd h raise_ne_ok
    · rename_i hlen
      obtain ⟨images, himages, h⟩ := bind_eq_ok.1 h
      split at h
      · exact absurd h raise_ne_ok
      · rename_i hne
        cases h
        obtain ⟨hcount, hbytes⟩ := decodeImages_inverse himages
        refine ⟨rfl, ?_⟩
        rw [payload, hcount, packField_fits (field_lt (by omega)), beBytes_field (by omega), hbytes]
        exact congrArg Except.ok (List.take_append_drop 4 body)
  · obtain ⟨rfl, rfl⟩ := requireEmpty_eq_ok h
    exact ⟨rfl, rfl⟩
  · obtain ⟨rfl, rfl⟩ := requireEmpty_eq_ok h
    exact ⟨rfl, rfl⟩
  · split at h
    · exact absurd h raise_ne_ok
    · rename_i hlen
      rw [not_not] at hlen
      cases h
      refine ⟨rfl, ?_⟩
      rw [payload, packField_fits (field_lt (by omega)), beBytes_field (by omega), ← take_eq_slice,
        List.take_of_length_le (by omega)]
  · exact absurd h raise_ne_ok

theorem headerOk_fields {bytes : ByteString} (h : headerOk bytes = true) :
    bytes.take 4 = walMagic ∧ field bytes 4 1 = walVersion.toNat ∧ field bytes 6 2 = 0 := of_decide_eq_true h

/-- **What `decode_record` accepts is what `encode_record` writes.** -/
theorem encodeRecord_of_decodeRecord {bytes : ByteString} {d : DecodedWalRecord} (h : decodeRecord bytes = .ok d) :
    encodeRecord d.lsn d.xid d.record = .ok bytes := by
  unfold decodeRecord at h
  split at h
  · exact absurd h raise_ne_ok
  rename_i hsize
  split at h
  · exact absurd h raise_ne_ok
  rename_i hheader
  split at h
  · exact absurd h raise_ne_ok
  rename_i hlength
  split at h
  · exact absurd h raise_ne_ok
  rename_i hcrc
  obtain ⟨record, hrecord, h⟩ := bind_eq_ok.1 h
  cases h
  obtain ⟨hkind, hpayload⟩ := decodePayload_inverse hrecord
  obtain ⟨hmagic, hversion, hflags⟩ := headerOk_fields (by simpa using hheader)
  rw [not_or, not_not, not_not] at hlength
  rw [not_not] at hcrc
  have h36 : headerSize = 36 := rfl
  have hbody : headerSize + (bytes.drop headerSize).length = bytes.length := by
    rw [List.length_drop]
    omega
  have htotal : bytes.length < 256 ^ 4 := by
    rw [← hlength.1]
    exact field_lt (by omega)
  have hfront : headerFront (recordKind record) bytes.length (field bytes 12 8) (field bytes 20 8)
    (bytes.drop headerSize).length =
      bytes.take 32 := by
    have hlen : (bytes.drop headerSize).length = field bytes 28 4 := by rw [List.length_drop, hlength.2]
    have hzero : beBytes 2 0 = slice bytes 6 2 := by rw [← hflags, beBytes_field (by omega)]
    unfold headerFront
    rw [hlen, ← hlength.1, beBytes_field (by omega), beBytes_field (by omega), beBytes_field (by omega), beBytes_field (by omega),
      hzero, ← hmagic, show [walVersion, recordKind record] = [walVersion] ++ [recordKind record] from rfl,
      ← slice_byte (by omega) hversion, ← slice_byte (by omega) hkind.symm, ← List.append_assoc]
    simp only [take_slice]
  refine Encoded.encodes ⟨hpayload, by rw [hbody]; exact htotal, field_lt (by omega), field_lt (by omega), ?_⟩
  have hinput : bytes.take 32 ++ beBytes 4 0 ++ bytes.drop headerSize = checksumInput bytes := rfl
  rw [hbody, hfront, hinput, hcrc, beBytes_field (by omega), ← List.append_assoc, take_slice]
  exact (List.take_append_drop 36 bytes).symm

/-! ## One to one -/

/-- **Records and bytes correspond.** -/
theorem wal_records_bijective :
    (∀ (lsn xid : Nat) (record : RawRecord), lsn < 2 ^ 64 → xid < 2 ^ 64 → RedoFits record → recordLength record < 2 ^ 32 →
      ∃ bytes, encodeRecord lsn xid record = .ok bytes ∧ decodeRecord bytes = .ok ⟨lsn, lsn + bytes.length, xid, record⟩) ∧
    (∀ (bytes : ByteString) (d : DecodedWalRecord), decodeRecord bytes = .ok d →
      encodeRecord d.lsn d.xid d.record = .ok bytes) := by
  refine ⟨fun lsn xid record hlsn hxid hredo hlength => ?_, fun bytes d h => encodeRecord_of_decodeRecord h⟩
  obtain ⟨body, hbody, htotal⟩ := payload_fits hredo hlength
  have e : Encoded lsn xid record body _ := ⟨hbody, by rw [htotal]; exact hlength, hlsn, hxid, rfl⟩
  exact ⟨_, e.encodes, e.decode⟩

def oneImage : RawRecord :=
  .heapPageImages [(⟨.heap, 3, 0⟩, ⟨List.replicate walPageSize 1, List.length_replicate⟩)] (List.cons_ne_nil _ _)

/-- The image record is encoded and read back, and no other bytes are read as it. -/
theorem wal_records_bijective_image : ∃ bytes, encodeRecord 17 9 oneImage = .ok bytes ∧
    decodeRecord bytes = .ok ⟨17, 17 + bytes.length, 9, oneImage⟩ ∧
    ∀ bytes' endLsn, decodeRecord bytes' = .ok ⟨17, endLsn, 9, oneImage⟩ → bytes' = bytes := by
  obtain ⟨bytes, hencode, hdecode⟩ := wal_records_bijective.1 17 9 oneImage (by decide) (by decide) trivial (by decide)
  refine ⟨bytes, hencode, hdecode, fun bytes' endLsn h => ?_⟩
  exact Except.ok.inj ((wal_records_bijective.2 bytes' _ h).symm.trans hencode)

/-- **A checkpoint whose redo LSN is `2 ^ 64`** is a record, and has no bytes. -/
theorem checkpoint_without_bytes :
    ¬((∀ (lsn xid : Nat) (record : RawRecord), lsn < 2 ^ 64 → xid < 2 ^ 64 → recordLength record < 2 ^ 32 →
      ∃ bytes, encodeRecord lsn xid record = .ok bytes ∧ decodeRecord bytes = .ok ⟨lsn, lsn + bytes.length, xid, record⟩) ∧
    (∀ (bytes : ByteString) (d : DecodedWalRecord), decodeRecord bytes = .ok d →
      encodeRecord d.lsn d.xid d.record = .ok bytes)) := by
  rintro ⟨h, -⟩
  obtain ⟨bytes, hb, -⟩ := h 0 0 (.checkpoint (2 ^ 64)) (by decide) (by decide) (by decide)
  have hraise : encodeRecord 0 0 (.checkpoint (2 ^ 64)) = raise .structError "argument out of range" := by
    have hpack : packField 8 (2 ^ 64) = raise .structError "argument out of range" := if_neg (by decide)
    rw [encodeRecord, payload, hpack]
    rfl
  exact absurd (hraise.symm.trans hb) raise_ne_ok

end MiniPostgres
