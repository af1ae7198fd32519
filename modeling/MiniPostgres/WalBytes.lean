import MiniPostgres.Types
import MiniPostgres.Lib.Bytes
/-!
# WalBytes — the bytes of the log

`wal/records.py` and the byte side of `wal/manager.py`: the checksummed codec of a record, the scan that `WalManager.open`
makes over a log file, and `append` with a `pwrite` that may fail after any part of a record.  A page image is 8192 bytes that
the log does not look into.
-/
namespace MiniPostgres

open Bytes (beBytes beNat crc32)

abbrev ByteString := List UInt8

/-! ## Records -/

inductive ForkKind
  | heap | btree
  deriving DecidableEq, Repr

def ForkKind.value : ForkKind → Nat
  | .heap  => 1
  | .btree => 2

/-- `ForkKind(value)`. -/
def ForkKind.ofValue : Nat → Option ForkKind
  | 1 => some .heap
  | 2 => some .btree
  | _ => none

/-- `PageKey` with its `RelationId`; both numbers are unsigned 64-bit. -/
structure RelationPage where
  fork     : ForkKind
  objectId : UInt64
  pageId   : UInt64
  deriving DecidableEq

def walPageSize : Nat := 8192

/-- A complete physical page. -/
abbrev PageBytes := { b : ByteString // b.length = walPageSize }

/-- `WalRecord`; a page-image record is never empty. -/
inductive RawRecord
  | begin
  | heapPageImages (images : List (RelationPage × PageBytes)) (nonempty : images ≠ [])
  | commit
  | abort
  | checkpoint (redoLsn : Nat)
  deriving DecidableEq

structure DecodedWalRecord where
  lsn    : Nat
  endLsn : Nat
  xid    : Nat
  record : RawRecord
  deriving DecidableEq

def headerSize : Nat := 36
def walMagic : ByteString := [0x4D, 0x50, 0x57, 0x4C]
def walVersion : UInt8 := 1
def pageImageHeaderSize : Nat := 17

/-- `int(_kind(record))`. -/
def recordKind : RawRecord → UInt8
  | .begin             => 1
  | .heapPageImages .. => 2
  | .commit            => 3
  | .abort             => 4
  | .checkpoint _      => 5

/-- One field of a `struct` pack. -/
def packField (width n : Nat) : Result ByteString :=
  if n < 256 ^ width then .ok (beBytes width n) else raise .structError "argument out of range"

def imageBytes (p : RelationPage × PageBytes) : ByteString :=
  beBytes 1 p.1.fork.value ++ beBytes 8 p.1.objectId.toNat ++ beBytes 8 p.1.pageId.toNat ++ p.2.val

def payload : RawRecord → Result ByteString
  | .heapPageImages images _ => do
    let count ← packField 4 images.length
    .ok (count ++ images.flatMap imageBytes)
  | .checkpoint redoLsn => packField 8 redoLsn
  | _ => .ok []

/-- The header up to its checksum field. -/
def headerFront (kind : UInt8) (total lsn xid payloadLength : Nat) : ByteString :=
  walMagic ++ [walVersion, kind] ++ beBytes 2 0 ++ beBytes 4 total ++ beBytes 8 lsn ++ beBytes 8 xid ++
    beBytes 4 payloadLength

def encodeRecord (lsn xid : Nat) (record : RawRecord) : Result ByteString := do
  let body ← payload record
  let _ ← packField 4 (headerSize + body.length)
  let _ ← packField 8 lsn
  let _ ← packField 8 xid
  let front := headerFront (recordKind record) (headerSize + body.length) lsn xid body.length
  .ok (front ++ beBytes 4 (crc32 (front ++ beBytes 4 0 ++ body)).toNat ++ body)

/-! ## Decoding -/

def field (bytes : ByteString) (offset width : Nat) : Nat := beNat ((bytes.drop offset).take width)

/-- Magic, version and flags are those the encoder writes. -/
def headerOk (bytes : ByteString) : Bool :=
  decide (bytes.take 4 = walMagic ∧ field bytes 4 1 = walVersion.toNat ∧ field bytes 6 2 = 0)

def recordLengthFromHeader (header : ByteString) : Result Nat :=
  if header.length ≠ headerSize then raise .corruptWal "incomplete WAL header"
  else if headerOk header = false then raise .corruptWal "invalid WAL header"
  else if field header 8 4 ≠ headerSize + field header 28 4 then
    raise .corruptWal "inconsistent WAL record length"
  else .ok (field header 8 4)

def decodeImages : Nat → ByteString → Result (List (RelationPage × PageBytes))
  | 0, rest     => if rest = [] then .ok [] else raise .corruptWal "invalid page-image payload length"
  | n + 1, rest =>
    if h : pageImageHeaderSize + walPageSize ≤ rest.length then
      match ForkKind.ofValue (field rest 0 1) with
      | none      => raise .corruptWal "invalid page-image fork"
      | some fork => do
        let key : RelationPage := ⟨fork, UInt64.ofNat (field rest 1 8), UInt64.ofNat (field rest 9 8)⟩
        let image : PageBytes := ⟨(rest.drop pageImageHeaderSize).take walPageSize, by simp; omega⟩
        let images ← decodeImages n (rest.drop (pageImageHeaderSize + walPageSize))
        .ok ((key, image) :: images)
    else raise .corruptWal "truncated page image"

def requireEmpty (payload : ByteString) (record : RawRecord) : Result RawRecord :=
  if payload = [] then .ok record else raise .corruptWal "record kind requires an empty payload"

def decodePayload (kind : Nat) (payload : ByteString) : Result RawRecord :=
  match kind with
  | 1 => requireEmpty payload .begin
  | 2 =>
    if payload.length < 4 then raise .corruptWal "invalid page-image payload"
    else do
      let images ← decodeImages (field payload 0 4) (payload.drop 4)
      if h : images = [] then raise .corruptWal "invalid page-image payload length"
      else .ok (.heapPageImages images h)
  | 3 => requireEmpty payload .commit
  | 4 => requireEmpty payload .abort
  | 5 =>
    if payload.length ≠ 8 then raise .corruptWal "invalid checkpoint payload"
    else .ok (.checkpoint (field payload 0 8))
  | _ => raise .corruptWal "unknown WAL record kind"

/-- The record with its checksum field zeroed. -/
def checksumInput (encoded : ByteString) : ByteString := encoded.take 32 ++ beBytes 4 0 ++ encoded.drop headerSize

def decodeRecord (encoded : ByteString) : Result DecodedWalRecord := do
  if encoded.length < headerSize then raise .corruptWal "incomplete WAL record"
  else if headerOk encoded = false then raise .corruptWal "invalid WAL record header"
  else if field encoded 8 4 ≠ encoded.length ∨ field encoded 28 4 ≠ encoded.length - headerSize then
    raise .corruptWal "invalid WAL record length"
  else if (crc32 (checksumInput encoded)).toNat ≠ field encoded 32 4 then
    raise .corruptWal "WAL record checksum mismatch"
  else
    let record ← decodePayload (field encoded 5 1) (encoded.drop headerSize)
    .ok ⟨field encoded 12 8, field encoded 12 8 + field encoded 8 4, field encoded 20 8, record⟩

/-! ## The scan -/

/-- The loop of `_scan_descriptor`, on the bytes from the cursor on; a record is at least a header, so the bytes left bound the
iterations. -/
def scanLoop : Nat → Nat → ByteString → Result (List DecodedWalRecord × Nat)
  | 0, cursor, _           => .ok ([], cursor)
  | fuel + 1, cursor, rest =>
    if rest.length < headerSize then .ok ([], cursor)
    else
      match recordLengthFromHeader (rest.take headerSize) with
      | .error e  => if rest.length = headerSize then .ok ([], cursor) else .error e
      | .ok total =>
        if rest.length < total then .ok ([], cursor)
        else
          match decodeRecord (rest.take total) with
          | .error e  => if rest.length = total then .ok ([], cursor) else .error e
          | .ok entry =>
            if entry.lsn ≠ cursor then raise .corruptWal "WAL record LSN does not match file position"
            else do
              let (entries, stop) ← scanLoop fuel (cursor + total) (rest.drop total)
              .ok (entry :: entries, stop)

def scanDescriptor (file : ByteString) : Result (List DecodedWalRecord × Nat) := scanLoop (file.length + 1) 0 file

/-- `WalManager` with its file. -/
structure WalManager where
  file       : ByteString
  entries    : List DecodedWalRecord
  endLsn     : Nat
  flushedLsn : Nat
  deriving DecidableEq

namespace WalManager

/-- `WalManager.open`: what follows the last complete record is cut off. -/
def openFile (file : ByteString) : Result WalManager := do
  let (entries, stop) ← scanDescriptor file
  .ok ⟨file.take stop, entries, stop, stop⟩

/-- Writing bytes at an offset within the file or at its end. -/
def pwrite (file : ByteString) (offset : Nat) (data : ByteString) : ByteString :=
  file.take offset ++ data ++ file.drop (offset + data.length)

def new : WalManager := ⟨[], [], 0, 0⟩

/-- `append`; with `fails`, the write raises after that many bytes, or after all but the last. -/
def append (w : WalManager) (xid : Nat) (record : RawRecord) (fails : Option Nat) : WalManager × Result Nat :=
  match encodeRecord w.endLsn xid record with
  | .error e    => (w, .error e)
  | .ok encoded =>
    match fails with
    | some n =>
      ({ w with file := pwrite w.file w.endLsn (encoded.take (min n (encoded.length - 1))) },
        raise .osError "short WAL write")
    | none =>
      let file := pwrite w.file w.endLsn encoded
      match decodeRecord encoded with
      | .error e    => ({ w with file := file }, .error e)
      | .ok decoded => ({ w with file := file, entries := w.entries ++ [decoded], endLsn := decoded.endLsn }, .ok w.endLsn)

end WalManager
end MiniPostgres
