import MiniPostgres.WalBytes
/-!
# WalCodec — what is encoded is decoded

`Encoded.decode`: the decoder gives back the LSN, the XID and the record.  `Encoded.changed`: a record with one byte changed has a
bad header or a bad checksum, whichever byte it is.
-/
namespace MiniPostgres

open Bytes (beBytes beNat crc32 length_beBytes beNat_beBytes beNat_inj beNat_lt crc32_change)

/-! ## Slices -/

def slice (bytes : ByteString) (offset width : Nat) : ByteString := (bytes.drop offset).take width

theorem field_eq (bytes : ByteString) (offset width : Nat) : field bytes offset width = beNat (slice bytes offset width) := rfl

theorem slice_head {b c : ByteString} {width : Nat} (hb : b.length = width) : slice (b ++ c) 0 width = b := by
  unfold slice
  rw [List.drop_zero, ← hb, List.take_left']
  rfl

theorem slice_skip {a b : ByteString} {offset width : Nat} (h : a.length ≤ offset) :
    slice (a ++ b) offset width = slice b (offset - a.length) width := by
  unfold slice
  rw [List.drop_append, List.drop_eq_nil_of_le h, List.nil_append]

theorem slice_take {bytes : ByteString} {offset width n : Nat} (h : offset + width ≤ n) :
    slice (bytes.take n) offset width = slice bytes offset width := by
  unfold slice
  rw [List.drop_take, List.take_take, Nat.min_eq_left (by omega)]

theorem length_slice {bytes : ByteString} {offset width : Nat} (h : offset + width ≤ bytes.length) :
    (slice bytes offset width).length = width := by
  unfold slice
  rw [List.length_take, List.length_drop]
  omega

theorem slice_set_out {bytes : ByteString} {o w j : Nat} {b : UInt8} (h : j < o ∨ o + w ≤ j) :
    slice (bytes.set j b) o w = slice bytes o w := by
  unfold slice
  apply List.ext_getElem?
  intro i
  rw [List.getElem?_take, List.getElem?_take, List.getElem?_drop, List.getElem?_drop]
  split
  · rw [List.getElem?_set_ne (by omega)]
  · rfl

theorem slice_set_in {bytes : ByteString} {o w j : Nat} {b : UInt8} (h : o ≤ j ∧ j < o + w)
    (hj : bytes[j]? ≠ some b) (hlt : j < bytes.length) : slice (bytes.set j b) o w ≠ slice bytes o w := by
  intro he
  apply hj
  have hget : (slice (bytes.set j b) o w)[j - o]? = (slice bytes o w)[j - o]? := by rw [he]
  unfold slice at hget
  rw [List.getElem?_take, List.getElem?_take, if_pos (by omega), if_pos (by omega), List.getElem?_drop, List.getElem?_drop,
    show o + (j - o) = j by omega, List.getElem?_set_self hlt] at hget
  exact hget.symm

/-! ## The fields of an encoded record -/

theorem length_headerFront (kind : UInt8) (total lsn xid n : Nat) : (headerFront kind total lsn xid n).length = 32 := by
  simp [headerFront, walMagic]

/-- The bytes of a record: the header up to its checksum, the checksum, the payload. -/
structure Encoded (lsn xid : Nat) (record : RawRecord) (body bytes : ByteString) : Prop where
  payload_eq : payload record = .ok body
  total_lt   : headerSize + body.length < 256 ^ 4
  lsn_lt     : lsn < 256 ^ 8
  xid_lt     : xid < 256 ^ 8
  bytes_eq   : bytes = headerFront (recordKind record) (headerSize + body.length) lsn xid body.length ++
    (beBytes 4 (crc32 (headerFront (recordKind record) (headerSize + body.length) lsn xid body.length ++ beBytes 4 0 ++
      body)).toNat ++ body)

theorem packField_eq_ok {width n : Nat} {b : ByteString} (h : packField width n = .ok b) :
    n < 256 ^ width ∧ b = beBytes width n := by
  unfold packField at h
  split at h
  · rename_i hn; cases h; exact ⟨hn, rfl⟩
  · exact absurd h raise_ne_ok

theorem encodeRecord_eq_ok {lsn xid : Nat} {record : RawRecord} {bytes : ByteString}
    (h : encodeRecord lsn xid record = .ok bytes) : ∃ body, Encoded lsn xid record body bytes := by
  obtain ⟨body, hbody, h⟩ := bind_eq_ok.1 h
  obtain ⟨_, htotal, h⟩ := bind_eq_ok.1 h
  obtain ⟨_, hlsn, h⟩ := bind_eq_ok.1 h
  obtain ⟨_, hxid, h⟩ := bind_eq_ok.1 h
  cases h
  exact ⟨body, hbody, (packField_eq_ok htotal).1, (packField_eq_ok hlsn).1, (packField_eq_ok hxid).1,
    by rw [List.append_assoc]⟩

namespace Encoded

variable {lsn xid : Nat} {record : RawRecord} {body bytes : ByteString}

theorem encodes (e : Encoded lsn xid record body bytes) : encodeRecord lsn xid record = .ok bytes := by
  have hpack : ∀ {width n : Nat}, n < 256 ^ width → packField width n = .ok (beBytes width n) := fun h => if_pos h
  unfold encodeRecord
  rw [e.payload_eq]
  simp only [bind, Except.bind]
  rw [hpack e.total_lt, hpack e.lsn_lt, hpack e.xid_lt, e.bytes_eq, List.append_assoc]

theorem length (e : Encoded lsn xid record body bytes) : bytes.length = headerSize + body.length := by
  rw [e.bytes_eq]
  simp only [List.length_append, length_headerFront, length_beBytes, headerSize]
  omega

theorem fields (e : Encoded lsn xid record body bytes) :
    bytes.take 4 = walMagic ∧ field bytes 4 1 = walVersion.toNat ∧ field bytes 5 1 = (recordKind record).toNat ∧
      field bytes 6 2 = 0 ∧ field bytes 8 4 = headerSize + body.length ∧ field bytes 12 8 = lsn ∧
      field bytes 20 8 = xid ∧ field bytes 28 4 = body.length ∧
      field bytes 32 4 = (crc32 (checksumInput bytes)).toNat ∧ bytes.drop headerSize = body := by
  have hinput : checksumInput bytes =
      headerFront (recordKind record) (headerSize + body.length) lsn xid body.length ++ beBytes 4 0 ++ body := by
    unfold checksumInput
    rw [e.bytes_eq, List.take_left' (length_headerFront _ _ _ _ _), List.drop_append,
      List.drop_eq_nil_of_le (by rw [length_headerFront]; decide), List.nil_append, length_headerFront, List.drop_left']
    rw [length_beBytes]
    rfl
  have hcrc : (crc32 (checksumInput bytes)).toNat < 256 ^ 4 :=
    Nat.lt_of_lt_of_le (BitVec.isLt _) (by decide)
  have hbody : body.length < 256 ^ 4 := by have := e.total_lt; omega
  have hsum : bytes = walMagic ++ ([walVersion] ++ ([recordKind record] ++ (beBytes 2 0 ++
      (beBytes 4 (headerSize + body.length) ++ (beBytes 8 lsn ++ (beBytes 8 xid ++ (beBytes 4 body.length ++
        (beBytes 4 (crc32 (checksumInput bytes)).toNat ++ body)))))))) := by
    rw [hinput, e.bytes_eq]
    simp [headerFront, List.append_assoc]
  generalize (crc32 (checksumInput bytes)).toNat = crc at hsum hcrc ⊢
  subst hsum
  have hmagic : walMagic.length = 4 := rfl
  simp only [field_eq]
  simp (disch := simp [hmagic]) only [slice_skip, hmagic, length_beBytes, List.length_singleton, Nat.reduceSub, slice_head]
  refine ⟨rfl, by simp [beNat], by simp [beNat], beNat_beBytes 2 0 (by decide), beNat_beBytes 4 _ e.total_lt,
    beNat_beBytes 8 _ e.lsn_lt, beNat_beBytes 8 _ e.xid_lt, beNat_beBytes 4 _ hbody, beNat_beBytes 4 _ hcrc, ?_⟩
  simp (disch := simp [hmagic, headerSize]) [List.drop_append, headerSize, hmagic, List.drop_eq_nil_of_le]

end Encoded

/-! ## Round trips -/

theorem length_imageBytes (p : RelationPage × PageBytes) :
    (imageBytes p).length = pageImageHeaderSize + walPageSize := by
  unfold imageBytes
  simp only [List.length_append, length_beBytes, p.2.property, pageImageHeaderSize]

theorem imageBytes_fields (p : RelationPage × PageBytes) (rest : ByteString) :
    field (imageBytes p ++ rest) 0 1 = p.1.fork.value ∧ field (imageBytes p ++ rest) 1 8 = p.1.objectId.toNat ∧
      field (imageBytes p ++ rest) 9 8 = p.1.pageId.toNat ∧
      slice (imageBytes p ++ rest) pageImageHeaderSize walPageSize = p.2.val := by
  obtain ⟨⟨fork, object, page⟩, image, himage⟩ := p
  have hfork : fork.value < 256 ^ 1 := by cases fork <;> decide
  have hobject : object.toNat < 256 ^ 8 := Nat.lt_of_lt_of_le object.toNat_lt (by decide)
  have hpage : page.toNat < 256 ^ 8 := Nat.lt_of_lt_of_le page.toNat_lt (by decide)
  simp only [imageBytes, field_eq, List.append_assoc, pageImageHeaderSize]
  simp (disch := simp [himage]) only [slice_skip, length_beBytes, Nat.reduceSub, slice_head]
  exact ⟨beNat_beBytes 1 _ hfork, beNat_beBytes 8 _ hobject, beNat_beBytes 8 _ hpage, trivial⟩

theorem ofValue_value (fork : ForkKind) : ForkKind.ofValue fork.value = some fork := by cases fork <;> rfl

theorem decodeImages_encode : ∀ (images : List (RelationPage × PageBytes)),
    decodeImages images.length (images.flatMap imageBytes) = .ok images
  | [] => rfl
  | p :: images => by
    obtain ⟨hfork, hobject, hpage, himage⟩ := imageBytes_fields p (images.flatMap imageBytes)
    have hlen := length_imageBytes p
    have hdrop : (imageBytes p ++ images.flatMap imageBytes).drop (pageImageHeaderSize + walPageSize) =
        images.flatMap imageBytes := by rw [← hlen, List.drop_left]
    have hle : pageImageHeaderSize + walPageSize ≤ (imageBytes p ++ images.flatMap imageBytes).length := by
      rw [List.length_append]; omega
    have hkey : (⟨p.1.fork, UInt64.ofNat p.1.objectId.toNat, UInt64.ofNat p.1.pageId.toNat⟩ : RelationPage) = p.1 := by
      rw [UInt64.ofNat_toNat, UInt64.ofNat_toNat]
    have hlist : ∀ (key : RelationPage) (image : PageBytes), key = p.1 → image.val = p.2.val →
        (key, image) :: images = p :: images := by
      intro key image hk hi
      rw [hk, Subtype.ext hi]
    rw [List.flatMap_cons, List.length_cons, decodeImages, dif_pos hle]
    simp only [hfork, hobject, hpage, hdrop, ofValue_value, decodeImages_encode images]
    exact congrArg Except.ok (hlist _ _ hkey himage)

theorem decodePayload_encode {record : RawRecord} {body : ByteString} (h : payload record = .ok body) :
    decodePayload (recordKind record).toNat body = .ok record := by
  cases record with
  | begin => cases h; rfl
  | commit => cases h; rfl
  | abort => cases h; rfl
  | checkpoint redoLsn =>
    obtain ⟨hlt, rfl⟩ := packField_eq_ok h
    have hfield : field (beBytes 8 redoLsn) 0 8 = redoLsn := by
      rw [field_eq, ← List.append_nil (beBytes 8 redoLsn), slice_head (length_beBytes 8 _), beNat_beBytes 8 _ hlt]
    simp [decodePayload, recordKind, hfield]
  | heapPageImages images hne =>
    obtain ⟨count, hcount, he⟩ := bind_eq_ok.1 h
    obtain ⟨hlt, rfl⟩ := packField_eq_ok hcount
    cases he
    have hfield : field (beBytes 4 images.length ++ images.flatMap imageBytes) 0 4 = images.length := by
      rw [field_eq, slice_head (length_beBytes 4 _), beNat_beBytes 4 _ hlt]
    have hdrop : (beBytes 4 images.length ++ images.flatMap imageBytes).drop 4 = images.flatMap imageBytes :=
      List.drop_left' (length_beBytes 4 _)
    have hlen : ¬ (beBytes 4 images.length ++ images.flatMap imageBytes).length < 4 := by
      rw [List.length_append, length_beBytes]; omega
    have hkind : decodePayload (recordKind (.heapPageImages images hne)).toNat
        (beBytes 4 images.length ++ images.flatMap imageBytes) = (do
          let images ← decodeImages images.length (images.flatMap imageBytes)
          if h : images = [] then raise .corruptWal "invalid page-image payload length"
          else .ok (.heapPageImages images h)) := by
      simp only [recordKind, decodePayload]
      rw [if_neg hlen, hfield, hdrop]
      rfl
    rw [hkind, decodeImages_encode]
    exact dif_neg hne

namespace Encoded

variable {lsn xid : Nat} {record : RawRecord} {body bytes : ByteString}

theorem headerOk (e : Encoded lsn xid record body bytes) : headerOk bytes = true := by
  obtain ⟨h1, h2, -, h3, -⟩ := e.fields
  simp [MiniPostgres.headerOk, h1, h2, h3]

/-- **What is encoded is decoded.** -/
theorem decode (e : Encoded lsn xid record body bytes) :
    decodeRecord bytes = .ok ⟨lsn, lsn + bytes.length, xid, record⟩ := by
  obtain ⟨-, -, hkind, -, htotal, hlsn, hxid, hpayload, hcrc, hbody⟩ := e.fields
  have hlen := e.length
  unfold decodeRecord
  rw [if_neg (by omega), if_neg (by rw [e.headerOk]; simp), if_neg (by omega), if_neg (by rw [hcrc]; simp), hbody, hkind,
    decodePayload_encode e.payload_eq, hlsn, htotal, hxid, hlen]
  rfl

/-- The header gives the record's length, however much of the record follows. -/
theorem length_from_header (e : Encoded lsn xid record body bytes) {rest : ByteString}
    (hr : rest.take headerSize = bytes.take headerSize) : recordLengthFromHeader (rest.take headerSize) = .ok bytes.length := by
  obtain ⟨h1, h2, -, h3, htotal, -, -, hpayload, -, -⟩ := e.fields
  have hlen := e.length
  have hok : MiniPostgres.headerOk (bytes.take headerSize) = true := by
    simp only [MiniPostgres.headerOk, decide_eq_true_eq]
    refine ⟨?_, ?_, ?_⟩
    · rw [List.take_take, show min 4 headerSize = 4 from rfl, h1]
    · rw [field_eq, slice_take (by decide), ← field_eq, h2]
    · rw [field_eq, slice_take (by decide), ← field_eq, h3]
  have htotal' : field (bytes.take headerSize) 8 4 = bytes.length := by
    rw [field_eq, slice_take (by decide), ← field_eq, htotal, hlen]
  have hpayload' : field (bytes.take headerSize) 28 4 = body.length := by
    rw [field_eq, slice_take (by decide), ← field_eq, hpayload]
  unfold recordLengthFromHeader
  rw [hr, if_neg (by rw [List.length_take]; omega), if_neg (by rw [hok]; simp), htotal', hpayload', if_neg (by omega)]

end Encoded

/-! ## One byte changed -/

theorem field_set_out {bytes : ByteString} {o w j : Nat} {b : UInt8} (h : j < o ∨ o + w ≤ j) :
    field (bytes.set j b) o w = field bytes o w := by
  rw [field_eq, field_eq, slice_set_out h]

theorem field_set_in {bytes : ByteString} {o w j : Nat} {b : UInt8} (h : o ≤ j ∧ j < o + w)
    (hlen : o + w ≤ bytes.length) (hj : bytes[j]? ≠ some b) :
    field (bytes.set j b) o w ≠ field bytes o w := by
  intro he
  rw [field_eq, field_eq] at he
  refine slice_set_in h hj (by omega) (beNat_inj ?_ he)
  rw [length_slice (by rw [List.length_set]; exact hlen), length_slice hlen]

theorem take_eq_slice (bytes : ByteString) (n : Nat) : bytes.take n = slice bytes 0 n := rfl

theorem checksumInput_set {bytes : ByteString} {j : Nat} {b : UInt8} (hlen : headerSize ≤ bytes.length)
    (hj : j < 32 ∨ headerSize ≤ j) : checksumInput (bytes.set j b) = (checksumInput bytes).set j b := by
  unfold checksumInput headerSize at *
  have hzero : (beBytes 4 0).length = 4 := rfl
  have htake : (bytes.take 32).length = 32 := by rw [List.length_take]; omega
  rcases hj with hj | hj
  · rw [List.take_set, List.drop_set_of_lt (by omega), List.append_assoc, List.append_assoc, List.set_append_left _ _ (by omega)]
  · rw [List.take_set, List.set_eq_of_length_le (by omega), List.drop_set, if_neg (by omega),
      List.set_append_right _ _ (by rw [List.length_append]; omega), List.length_append, htake, hzero]

theorem checksumInput_get {l : ByteString} {j : Nat} (hlen : headerSize ≤ l.length) (hj : j < 32 ∨ headerSize ≤ j) :
    (checksumInput l)[j]? = l[j]? := by
  unfold checksumInput headerSize at *
  have hzero : (beBytes 4 0).length = 4 := rfl
  have htake : (l.take 32).length = 32 := by rw [List.length_take]; omega
  rw [List.append_assoc]
  rcases hj with hj | hj
  · rw [List.getElem?_append_left (by omega), List.getElem?_take, if_pos hj]
  · rw [List.getElem?_append_right (by omega), List.getElem?_append_right (by omega), List.getElem?_drop, htake, hzero,
      show 36 + (j - 32 - 4) = j by omega]

namespace Encoded

variable {lsn xid : Nat} {record : RawRecord} {body bytes : ByteString}

/-- **A record with one byte changed is refused**: by its header, or by the decoder once its length is known. -/
theorem changed (e : Encoded lsn xid record body bytes) {j : Nat} {b : UInt8} (hj : j < bytes.length)
    (hb : bytes[j]? ≠ some b) :
    (∃ m, recordLengthFromHeader ((bytes.set j b).take headerSize) = .error ⟨.corruptWal, m⟩) ∨
      (recordLengthFromHeader ((bytes.set j b).take headerSize) = .ok bytes.length ∧
        ∃ m, decodeRecord (bytes.set j b) = .error ⟨.corruptWal, m⟩) := by
  obtain ⟨h1, h2, -, h3, htotal, -, -, hpayload, hcrc, -⟩ := e.fields
  have hlen := e.length
  have hsize : headerSize = 36 := rfl
  have hheader : ((bytes.set j b).take headerSize).length = headerSize := by
    rw [List.length_take, List.length_set]; omega
  -- the header's own checks read the first 36 bytes
  have hf : ∀ offset width, offset + width ≤ 36 →
      field ((bytes.set j b).take headerSize) offset width = field (bytes.set j b) offset width := fun o w how => by
    rw [field_eq, slice_take (by omega), ← field_eq]
  have hok : MiniPostgres.headerOk ((bytes.set j b).take headerSize) = MiniPostgres.headerOk (bytes.set j b) := by
    unfold MiniPostgres.headerOk
    rw [hf 4 1 (by omega), hf 6 2 (by omega), List.take_take, show min 4 headerSize = 4 from rfl]
  by_cases hmeta : j < 5 ∨ (6 ≤ j ∧ j < 8)
  · -- magic, version or flags
    refine Or.inl ⟨"invalid WAL header", ?_⟩
    have hbad : MiniPostgres.headerOk (bytes.set j b) = false := by
      simp only [MiniPostgres.headerOk, decide_eq_false_iff_not]
      rintro ⟨m1, m2, m3⟩
      by_cases hj4 : j < 4
      · refine slice_set_in (o := 0) (w := 4) ⟨Nat.zero_le _, by omega⟩ hb hj ?_
        rw [← take_eq_slice, ← take_eq_slice, m1, h1]
      · by_cases hj5 : j < 5
        · exact field_set_in (o := 4) (w := 1) ⟨by omega, by omega⟩ (by omega) hb (m2.trans h2.symm)
        · exact field_set_in (o := 6) (w := 2) ⟨by omega, by omega⟩ (by omega) hb (m3.trans h3.symm)
    unfold recordLengthFromHeader
    rw [if_neg (by omega), hok, if_pos hbad]
    rfl
  · have hgood : MiniPostgres.headerOk (bytes.set j b) = true := by
      simp only [MiniPostgres.headerOk, decide_eq_true_eq]
      refine ⟨?_, ?_, ?_⟩
      · rw [take_eq_slice, slice_set_out (by omega), ← take_eq_slice, h1]
      · rw [field_set_out (by omega), h2]
      · rw [field_set_out (by omega), h3]
    by_cases hlens : (8 ≤ j ∧ j < 12) ∨ (28 ≤ j ∧ j < 32)
    · -- one of the two lengths
      refine Or.inl ⟨"inconsistent WAL record length", ?_⟩
      have hbad : field (bytes.set j b) 8 4 ≠ headerSize + field (bytes.set j b) 28 4 := by
        rcases hlens with h8 | h28
        · rw [field_set_out (o := 28) (by omega), hpayload, ← htotal]
          exact field_set_in h8 (by omega) hb
        · rw [field_set_out (o := 8) (by omega), htotal, ← hpayload]
          have := field_set_in (o := 28) (w := 4) h28 (by omega) hb
          omega
      unfold recordLengthFromHeader
      rw [if_neg (by omega), hok, if_neg (by rw [hgood]; simp), hf 8 4 (by omega), hf 28 4 (by omega), if_pos hbad]
      rfl
    · have htotal' : field (bytes.set j b) 8 4 = bytes.length := by
        rw [field_set_out (by omega), htotal, hlen]
      have hpayload' : field (bytes.set j b) 28 4 = body.length := by
        rw [field_set_out (by omega), hpayload]
      refine Or.inr ⟨?_, "WAL record checksum mismatch", ?_⟩
      · unfold recordLengthFromHeader
        rw [if_neg (by omega), hok, if_neg (by rw [hgood]; simp), hf 8 4 (by omega), hf 28 4 (by omega), htotal', hpayload',
          if_neg (by omega)]
      · -- the checksum, or what it covers
        have hcheck : (crc32 (checksumInput (bytes.set j b))).toNat ≠ field (bytes.set j b) 32 4 := by
          by_cases hj32 : 32 ≤ j ∧ j < 36
          · have hsame : checksumInput (bytes.set j b) = checksumInput bytes := by
              unfold checksumInput
              rw [List.take_set, List.set_eq_of_length_le (by rw [List.length_take]; omega), List.drop_set_of_lt (by omega)]
            rw [hsame, ← hcrc]
            exact (field_set_in hj32 (by omega) hb).symm
          · rw [field_set_out (by omega), hcrc, checksumInput_set (by omega) (by omega)]
            intro he
            refine Bytes.crc32_set ?_ ?_ (BitVec.eq_of_toNat_eq he)
            · have := checksumInput_get (l := bytes) (j := j) (by omega) (by omega)
              rw [List.getElem?_eq_getElem hj] at this
              exact (List.getElem?_eq_some_iff.1 this).1
            · rw [checksumInput_get (by omega) (by omega)]
              exact hb
        unfold decodeRecord
        rw [if_neg (by rw [List.length_set]; omega), if_neg (by rw [hgood]; simp),
          if_neg (by rw [htotal', hpayload', List.length_set]; omega), if_pos hcheck]
        rfl

end Encoded
end MiniPostgres
