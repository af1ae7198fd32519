import MiniPostgres.WalCodec
/-!
# Pages — the checksummed envelope of a page

`storage/page.py` and `storage/constants.py`: a page is a header of 44 bytes, a body and zero padding up to 8192 bytes; its
checksum covers the whole page with the checksum field zeroed.  Decoding an encoded page gives its parts back, so that encoding
them again gives the same bytes.
-/
namespace MiniPostgres

open Bytes (beBytes beNat crc32 beNat_beBytes length_beBytes)

inductive PageKind
  | heap | btreeMeta | btreeInternal | btreeLeaf
  deriving DecidableEq, Repr

def PageKind.value : PageKind → Nat
  | .heap          => 1
  | .btreeMeta     => 2
  | .btreeInternal => 3
  | .btreeLeaf     => 4

/-- `PageKind(value)`. -/
def PageKind.ofValue : Nat → Option PageKind
  | 1 => some .heap
  | 2 => some .btreeMeta
  | 3 => some .btreeInternal
  | 4 => some .btreeLeaf
  | _ => none

def pageMagic : ByteString := [0x4D, 0x50, 0x47, 0x31]
def pageFormatVersion : Nat := 1
def pageHeaderSize : Nat := 44
def checksumOffset : Nat := 40
def maxBodySize : Nat := walPageSize - pageHeaderSize

/-- `DecodedPage`; its key is the one the caller expects. -/
structure DecodedPage where
  kind    : PageKind
  pageLsn : Nat
  lower   : Nat
  upper   : Nat
  special : Nat
  body    : ByteString
  deriving DecidableEq

/-- `_HEADER.pack` up to the checksum. -/
def pageFront (key : RelationPage) (kind : PageKind) (pageLsn upper : Nat) : ByteString :=
  pageMagic ++ beBytes 1 pageFormatVersion ++ beBytes 1 kind.value ++ beBytes 1 key.fork.value ++ beBytes 1 0 ++
    beBytes 8 key.objectId.toNat ++ beBytes 8 key.pageId.toNat ++ beBytes 8 pageLsn ++ beBytes 2 pageHeaderSize ++
    beBytes 2 upper ++ beBytes 2 walPageSize ++ beBytes 2 0

def encodePage (key : RelationPage) (kind : PageKind) (pageLsn : Nat) (body : ByteString) : Result ByteString :=
  if 2 ^ 64 ≤ pageLsn then raise .valueError "page_lsn must be an unsigned 64-bit integer"
  else if maxBodySize < body.length then
    raise .rowTooLarge ("page body is " ++ toString body.length ++ " bytes; maximum is " ++ toString maxBodySize)
  else
    let front := pageFront key kind pageLsn (pageHeaderSize + body.length)
    let rest := body ++ List.replicate (walPageSize - pageHeaderSize - body.length) 0
    .ok (front ++ beBytes 4 (crc32 (front ++ beBytes 4 0 ++ rest)).toNat ++ rest)

/-- `_page_bytes_with_checksum_zeroed`. -/
def checksumZeroed (encoded : ByteString) : ByteString :=
  encoded.take checksumOffset ++ beBytes 4 0 ++ encoded.drop pageHeaderSize

def decodePage (expectedKey : RelationPage) (encoded : ByteString) : Result DecodedPage :=
  if encoded.length ≠ walPageSize then
    raise .corruptPage ("page must contain exactly 8192 bytes, got " ++ toString encoded.length)
  else if encoded.take 4 ≠ pageMagic then raise .corruptPage "invalid page magic"
  else if field encoded 4 1 ≠ pageFormatVersion then
    raise .corruptPage ("unsupported page format version: " ++ toString (field encoded 4 1))
  else
    match PageKind.ofValue (field encoded 5 1), ForkKind.ofValue (field encoded 6 1) with
    | some kind, some fork =>
      if field encoded 7 1 ≠ 0 ∨ field encoded 38 2 ≠ 0 then
        raise .corruptPage "reserved page header fields are not zero"
      else if fork ≠ expectedKey.fork ∨ field encoded 8 8 ≠ expectedKey.objectId.toNat ∨
          field encoded 16 8 ≠ expectedKey.pageId.toNat then
        raise .corruptPage "page identity does not match requested page"
      else if ¬(pageHeaderSize ≤ field encoded 32 2 ∧ field encoded 32 2 ≤ field encoded 34 2 ∧
          field encoded 34 2 ≤ field encoded 36 2 ∧ field encoded 36 2 ≤ walPageSize) then
        raise .corruptPage "invalid page bounds"
      else if field encoded 40 4 ≠ (crc32 (checksumZeroed encoded)).toNat then
        raise .corruptPage "page checksum mismatch"
      else
        .ok ⟨kind, field encoded 24 8, field encoded 32 2, field encoded 34 2, field encoded 36 2,
          (encoded.take (field encoded 34 2)).drop pageHeaderSize⟩
    | _, _ => raise .corruptPage "invalid page or fork kind"

/-! ## The round trip -/

theorem PageKind.ofValue_value (kind : PageKind) : PageKind.ofValue kind.value = some kind := by cases kind <;> rfl

theorem length_pageFront (key : RelationPage) (kind : PageKind) (lsn upper : Nat) :
    (pageFront key kind lsn upper).length = 40 := by
  simp [pageFront, pageMagic]

/-- The bytes of a page: the header up to its checksum, the checksum, the body with its padding. -/
structure PageEncoded (key : RelationPage) (kind : PageKind) (lsn : Nat) (body bytes : ByteString) : Prop where
  lsn_lt   : lsn < 2 ^ 64
  body_le  : body.length ≤ maxBodySize
  bytes_eq : bytes = pageFront key kind lsn (pageHeaderSize + body.length) ++
    (beBytes 4 (crc32 (pageFront key kind lsn (pageHeaderSize + body.length) ++ beBytes 4 0 ++
      (body ++ List.replicate (walPageSize - pageHeaderSize - body.length) 0))).toNat ++
        (body ++ List.replicate (walPageSize - pageHeaderSize - body.length) 0))

theorem encodePage_eq_ok {key : RelationPage} {kind : PageKind} {lsn : Nat} {body bytes : ByteString} :
    encodePage key kind lsn body = .ok bytes ↔ PageEncoded key kind lsn body bytes := by
  unfold encodePage
  constructor
  · intro h
    split at h
    · exact absurd h raise_ne_ok
    · rename_i hlsn
      split at h
      · exact absurd h raise_ne_ok
      · rename_i hbody
        cases h
        exact ⟨by omega, by omega, List.append_assoc _ _ _⟩
  · intro e
    rw [if_neg (Nat.not_le.2 e.lsn_lt), if_neg (Nat.not_lt.2 e.body_le), e.bytes_eq]
    simp only [List.append_assoc]

namespace PageEncoded

variable {key : RelationPage} {kind : PageKind} {lsn : Nat} {body bytes : ByteString}

theorem length (e : PageEncoded key kind lsn body bytes) : bytes.length = walPageSize := by
  have hb := e.body_le
  have hmax : maxBodySize = 8148 := rfl
  rw [e.bytes_eq]
  simp only [List.length_append, length_pageFront, length_beBytes, List.length_replicate, walPageSize, pageHeaderSize]
  omega

theorem checksumZeroed_eq (e : PageEncoded key kind lsn body bytes) :
    checksumZeroed bytes = pageFront key kind lsn (pageHeaderSize + body.length) ++ beBytes 4 0 ++
      (body ++ List.replicate (walPageSize - pageHeaderSize - body.length) 0) := by
  unfold checksumZeroed
  rw [show checksumOffset = 40 from rfl, e.bytes_eq, List.take_left' (length_pageFront _ _ _ _), List.drop_append,
    List.drop_eq_nil_of_le (by rw [length_pageFront]; decide), List.nil_append, length_pageFront, List.drop_left']
  rw [length_beBytes]
  rfl

theorem front_fields (key : RelationPage) (kind : PageKind) {lsn upper crc : Nat} (hlsn : lsn < 2 ^ 64) (hupper : upper < 256 ^ 2)
    (hcrc : crc < 256 ^ 4) {bytes rest : ByteString} (hb : bytes = pageFront key kind lsn upper ++ (beBytes 4 crc ++ rest)) :
    bytes.take 4 = pageMagic ∧ field bytes 4 1 = pageFormatVersion ∧ field bytes 5 1 = kind.value ∧
      field bytes 6 1 = key.fork.value ∧ field bytes 7 1 = 0 ∧ field bytes 8 8 = key.objectId.toNat ∧
      field bytes 16 8 = key.pageId.toNat ∧ field bytes 24 8 = lsn ∧ field bytes 32 2 = pageHeaderSize ∧
      field bytes 34 2 = upper ∧ field bytes 36 2 = walPageSize ∧ field bytes 38 2 = 0 ∧ field bytes 40 4 = crc := by
  have hkind : kind.value < 256 ^ 1 := by cases kind <;> decide
  have hfork : key.fork.value < 256 ^ 1 := by cases key.fork <;> decide
  have hsum : bytes = pageMagic ++ (beBytes 1 pageFormatVersion ++ (beBytes 1 kind.value ++ (beBytes 1 key.fork.value ++
      (beBytes 1 0 ++ (beBytes 8 key.objectId.toNat ++ (beBytes 8 key.pageId.toNat ++ (beBytes 8 lsn ++
        (beBytes 2 pageHeaderSize ++ (beBytes 2 upper ++ (beBytes 2 walPageSize ++ (beBytes 2 0 ++
          (beBytes 4 crc ++ rest)))))))))))) := by
    rw [hb]
    simp only [pageFront, List.append_assoc]
  subst hsum
  have hmagic : pageMagic.length = 4 := rfl
  simp only [field_eq]
  simp (disch := simp [hmagic]) only [slice_skip, hmagic, length_beBytes, Nat.reduceSub, slice_head]
  exact ⟨rfl, beNat_beBytes 1 _ (by decide), beNat_beBytes 1 _ hkind, beNat_beBytes 1 _ hfork, beNat_beBytes 1 0 (by decide),
    beNat_beBytes 8 _ key.objectId.toNat_lt, beNat_beBytes 8 _ key.pageId.toNat_lt, beNat_beBytes 8 _ hlsn,
    beNat_beBytes 2 _ (by decide), beNat_beBytes 2 _ hupper, beNat_beBytes 2 _ (by decide), beNat_beBytes 2 0 (by decide),
    beNat_beBytes 4 _ hcrc⟩

theorem upper_lt (e : PageEncoded key kind lsn body bytes) : pageHeaderSize + body.length < 256 ^ 2 := by
  have hb := e.body_le
  have hmax : maxBodySize = 8148 := rfl
  have hsize : pageHeaderSize = 44 := rfl
  omega

theorem body_eq (e : PageEncoded key kind lsn body bytes) :
    (bytes.take (pageHeaderSize + body.length)).drop pageHeaderSize = body := by
  have hhead : ∀ crc : Nat, (pageFront key kind lsn (pageHeaderSize + body.length) ++ beBytes 4 crc).length = pageHeaderSize := by
    intro crc
    rw [List.length_append, length_pageFront, length_beBytes]
    rfl
  rw [e.bytes_eq, ← List.append_assoc, ← List.append_assoc, List.take_left' (by rw [List.length_append, hhead]),
    List.drop_left' (hhead _)]

/-- **Decoding an encoded page gives its parts back.** -/
theorem decode (e : PageEncoded key kind lsn body bytes) : decodePage key bytes =
    .ok ⟨kind, lsn, pageHeaderSize, pageHeaderSize + body.length, walPageSize, body⟩ := by
  have hcrc : (crc32 (checksumZeroed bytes)).toNat < 256 ^ 4 := Nat.lt_of_lt_of_le (BitVec.isLt _) (by decide)
  have heq := e.bytes_eq
  rw [← e.checksumZeroed_eq] at heq
  obtain ⟨hmagic, hversion, hkind, hfork, hflags, hobject, hpage, hlsn, hlower, hupper, hspecial, hreserved, hsum⟩ :=
    front_fields key kind e.lsn_lt e.upper_lt hcrc heq
  have hbounds : pageHeaderSize ≤ pageHeaderSize ∧ pageHeaderSize ≤ pageHeaderSize + body.length ∧
      pageHeaderSize + body.length ≤ walPageSize ∧ walPageSize ≤ walPageSize := by
    have hb := e.body_le
    have hmax : maxBodySize = 8148 := rfl
    have hsize : pageHeaderSize = 44 := rfl
    have hpage : walPageSize = 8192 := rfl
    omega
  unfold decodePage
  rw [if_neg (by rw [e.length]; exact fun h => h rfl), if_neg (by rw [hmagic]; exact fun h => h rfl),
    if_neg (by rw [hversion]; exact fun h => h rfl), hkind, hfork, PageKind.ofValue_value, ofValue_value]
  simp only [hflags, hobject, hpage, hlsn, hlower, hupper, hspecial, hreserved, hsum, e.body_eq]
  rw [if_neg (by simp), if_neg (by simp), if_neg (not_not.2 hbounds), if_neg (by simp)]

end PageEncoded

theorem decodePage_encodePage {key : RelationPage} {kind : PageKind} {lsn : Nat} {body bytes : ByteString}
    (h : encodePage key kind lsn body = .ok bytes) :
    decodePage key bytes = .ok ⟨kind, lsn, pageHeaderSize, pageHeaderSize + body.length, walPageSize, body⟩ :=
  (encodePage_eq_ok.1 h).decode

theorem length_encodePage {key : RelationPage} {kind : PageKind} {lsn : Nat} {body bytes : ByteString}
    (h : encodePage key kind lsn body = .ok bytes) : bytes.length = walPageSize := (encodePage_eq_ok.1 h).length

end MiniPostgres
