import MiniPostgres.HeapSpec
import MiniPostgres.Visibility
/-!
# Wal — the log, the page cache, the relation files and REDO

`wal/records.py` and `wal/manager.py` (records with their encoded lengths; an LSN is a byte offset of the log file),
`storage/buffer.py` (frames and the WAL gate), `storage/disk.py`, and `recover` of `wal/recovery.py`.  The decoder gives
back the record that was encoded, so the log file is the list of its records and a byte count cuts it.

A relation file keeps, for each page, what was written to it since the last checkpoint: after a crash the page is any one
of these.
-/
namespace MiniPostgres

structure PageKey where
  table : Nat
  page  : Nat
  deriving DecidableEq, Repr

/-- A valid page: its LSN and the slotted page in its body. -/
structure Image where
  lsn  : Nat
  page : HeapPage
  deriving DecidableEq

/-- What `allocate_page` writes; an empty body is read as an empty slotted page. -/
def Image.blank : Image := ⟨0, HeapPage.empty⟩

/-! ## Records -/

inductive WalRecord
  | begin
  | heapPageImages (images : List (PageKey × Image))
  | commit
  | abort
  | checkpoint (redoLsn : Nat)
  deriving DecidableEq

def walHeaderSize : Nat := 36
def pageSize : Nat := 8192

def payloadLength : WalRecord → Nat
  | .heapPageImages images => 4 + images.length * (17 + pageSize)
  | .checkpoint _          => 8
  | _                      => 0

structure WalEntry where
  lsn    : Nat
  xid    : Nat
  record : WalRecord
  deriving DecidableEq

def WalEntry.length (e : WalEntry) : Nat := walHeaderSize + payloadLength e.record

def WalEntry.endLsn (e : WalEntry) : Nat := e.lsn + e.length

theorem WalEntry.length_pos (e : WalEntry) : 0 < e.length := by
  unfold WalEntry.length walHeaderSize; omega

structure Wal where
  entries    : List WalEntry
  endLsn     : Nat
  flushedLsn : Nat

namespace Wal

def new : Wal := ⟨[], 0, 0⟩

def append (w : Wal) (xid : Nat) (record : WalRecord) : Wal :=
  { w with entries := w.entries ++ [⟨w.endLsn, xid, record⟩], endLsn := w.endLsn + (⟨w.endLsn, xid, record⟩ : WalEntry).length }

def flush (w : Wal) : Wal := { w with flushedLsn := w.endLsn }

/-- The loop of `_scan_descriptor` over a file of `size` bytes that begins with these records. -/
def scanFrom (size : Nat) : Nat → List WalEntry → List WalEntry × Nat
  | cursor, [] => ([], cursor)
  | cursor, e :: es =>
    if size - cursor < walHeaderSize then ([], cursor)
    else if cursor + e.length > size then ([], cursor)
    else
      let (rest, valid) := scanFrom size (cursor + e.length) es
      (e :: rest, valid)

/-- `WalManager.open` on the first `size` bytes of the log: the complete records, all of them durable. -/
def reopen (w : Wal) (size : Nat) : Wal :=
  let (entries, valid) := scanFrom size 0 w.entries
  ⟨entries, valid, valid⟩

end Wal

/-! ## Relation files after a crash, and REDO -/

inductive DiskPage
  | valid (image : Image)
  /-- The checksum does not match. -/
  | torn
  deriving DecidableEq

/-- The pages of each heap relation, in page order. -/
abbrev Disk := Nat → List DiskPage

/-- `while page_count <= page_id: allocate_page`. -/
def allocateThrough (pages : List DiskPage) (page : Nat) : List DiskPage :=
  pages ++ List.replicate (page + 1 - pages.length) (.valid .blank)

/-- One image of a record: applied when the page is missing, corrupt or older; the flag counts it. -/
def redoImage (disk : Disk) (key : PageKey) (image : Image) : Disk × Nat :=
  let pages := allocateThrough (disk key.table) key.page
  let repaired : Disk := Function.update disk key.table (pages.set key.page (.valid image))
  match pages[key.page]? with
  | some (.valid current) =>
    if current.lsn < image.lsn then (repaired, 1) else (Function.update disk key.table pages, 0)
  | _ => (repaired, 1)

def redoImages (disk : Disk) : List (PageKey × Image) → Disk × Nat
  | [] => (disk, 0)
  | (key, image) :: images =>
    let (disk, n) := redoImage disk key image
    let (disk, m) := redoImages disk images
    (disk, n + m)

/-- The variables of `recover`. -/
structure Recovery where
  statuses   : StatusTable
  begun      : List Nat
  maximumXid : Nat
  redone     : Nat
  disk       : Disk

def recoverEntry (startLsn : Nat) (r : Recovery) (e : WalEntry) : Result Recovery := do
  let r := { r with maximumXid := max r.maximumXid e.xid }
  match e.record with
  | .begin  => .ok { r with begun := e.xid :: r.begun }
  | .commit => do
    let statuses ← r.statuses.set e.xid .committed
    .ok { r with statuses := statuses }
  | .abort  => do
    let statuses ← r.statuses.set e.xid .aborted
    .ok { r with statuses := statuses }
  | .heapPageImages images =>
    if startLsn ≤ e.lsn then
      let (disk, n) := redoImages r.disk images
      .ok { r with disk := disk, redone := r.redone + n }
    else .ok r
  | .checkpoint _ => .ok r

/-- The two closing loops: what began, or is on record as in progress, without an outcome is aborted. -/
def settleStatuses (begun : List Nat) (statuses : StatusTable) : StatusTable := fun xid =>
  if statuses.get xid = .inProgress then
    (if xid ∈ begun ∨ statuses xid ≠ none then some .aborted else none)
  else statuses xid

structure RecoveryResult where
  statuses    : StatusTable
  nextXid     : Nat
  redonePages : Nat
  disk        : Disk

/-- `recover`, with the relation files as it leaves them. -/
def recover (entries : List WalEntry) (disk : Disk) (startLsn : Nat) (initialStatuses : StatusTable) (nextXid : Nat) :
    Result RecoveryResult := do
  let r ← entries.foldlM (recoverEntry startLsn) ⟨initialStatuses, [], nextXid - 1, 0, disk⟩
  .ok ⟨settleStatuses r.begun r.statuses, r.maximumXid + 1, r.redone, r.disk⟩

/-! ## Frames and files of the running system -/

/-- What was written to one page of a relation file: its content at the last checkpoint, or when it was allocated, and the
writes of the buffer pool since. -/
structure PageFile where
  base   : Image
  writes : List Image

def PageFile.current (p : PageFile) : Image := p.writes.getLast?.getD p.base

structure Frame where
  image : Image
  dirty : Bool

/-- The log, the buffer pool and the relation files. -/
structure Storage where
  wal    : Wal
  frames : PageKey → Option Frame
  files  : Nat → List PageFile

namespace Storage

def new : Storage := ⟨.new, fun _ => none, fun _ => []⟩

def file (s : Storage) (key : PageKey) : Option PageFile := (s.files key.table)[key.page]?

/-- `allocate_page`: one blank page at the end of the file. -/
def allocatePage (s : Storage) (table : Nat) : Storage :=
  { s with files := Function.update s.files table (s.files table ++ [⟨.blank, []⟩]) }

def append (s : Storage) (xid : Nat) (record : WalRecord) : Storage := { s with wal := s.wal.append xid record }

def flushWal (s : Storage) : Storage := { s with wal := s.wal.flush }

def writePage (s : Storage) (key : PageKey) (image : Image) : Storage :=
  let pages := (s.files key.table).modify key.page (fun p => { p with writes := p.writes ++ [image] })
  { s with files := Function.update s.files key.table pages }

/-- `_flush_frame`: the WAL gate, the page write, and the frame is clean. -/
def flushFrame (s : Storage) (key : PageKey) : Storage :=
  match s.frames key with
  | some ⟨image, true⟩ =>
    let s := s.flushWal.writePage key image
    { s with frames := Function.update s.frames key (some ⟨image, false⟩) }
  | _ => s

/-- Eviction: a frame is flushed before its page leaves the pool. -/
def evict (s : Storage) (key : PageKey) : Storage :=
  let s := s.flushFrame key
  { s with frames := Function.update s.frames key none }

/-- The image a guard on the page holds: the resident one, else the one read from the file. -/
def held (s : Storage) (key : PageKey) : Option Image :=
  match s.frames key with
  | some f => some f.image
  | none   => (s.file key).map PageFile.current

/-- `replace_bytes` and `mark_dirty` on a pinned page: its LSN does not decrease. -/
def install (s : Storage) (key : PageKey) (image : Image) : Result Storage :=
  match s.held key with
  | none     => raise .corruptPage "short page read"
  | some old =>
    if image.lsn < old.lsn then raise .valueError "page replacement cannot decrease its LSN"
    else .ok { s with frames := Function.update s.frames key (some ⟨image, true⟩) }

/-- `flush_all`: every dirty frame is written, after the log. -/
def flushAll (s : Storage) : Storage where
  wal := s.wal.flush
  frames := fun key => (s.frames key).map (fun f => ⟨f.image, false⟩)
  files := fun table => (s.files table).mapIdx (fun page p =>
    match s.frames ⟨table, page⟩ with
    | some ⟨image, true⟩ => { p with writes := p.writes ++ [image] }
    | _                  => p)

/-- The files that a crash of the process leaves. -/
def diskNow (s : Storage) : Disk := fun table => (s.files table).map (fun p => .valid p.current)

/-! ## What the operations do to files and log -/

theorem current_write (p : PageFile) (image : Image) : ({ p with writes := p.writes ++ [image] } : PageFile).current = image := by
  simp [PageFile.current]

theorem file_writePage (s : Storage) (key : PageKey) (image : Image) (k : PageKey) :
    (s.writePage key image).file k =
      (s.file k).map (fun p => if k = key then { p with writes := p.writes ++ [image] } else p) := by
  unfold file writePage
  by_cases ht : k.table = key.table
  · simp only [ht, Function.update_self, List.getElem?_modify]
    by_cases hp : key.page = k.page
    · have hk : k = key := by cases k; cases key; simp_all
      simp [hk]
    · have hk : k ≠ key := fun he => hp (by rw [he])
      simp [hp, hk]
  · have hk : k ≠ key := fun he => ht (by rw [he])
    simp [Function.update_of_ne ht, hk]

theorem file_allocatePage (s : Storage) (table : Nat) {k : PageKey} {p : PageFile} (h : s.file k = some p) :
    (s.allocatePage table).file k = some p := by
  unfold file allocatePage at *
  by_cases ht : k.table = table
  · subst ht
    simp only [Function.update_self]
    exact List.getElem?_append_left (List.getElem?_eq_some_iff.1 h).1 ▸ h
  · simp only [Function.update_of_ne ht]
    exact h

theorem held_setFrame (s : Storage) (key : PageKey) (f : Frame) (k : PageKey) :
    held { s with frames := Function.update s.frames key (some f) } k = if k = key then some f.image else s.held k := by
  unfold held
  by_cases hk : k = key
  · subst hk; simp
  · simp [hk, file]

theorem held_dropFrame (s : Storage) (key k : PageKey) :
    held { s with frames := Function.update s.frames key none } k =
      if k = key then (s.file k).map PageFile.current else s.held k := by
  unfold held
  by_cases hk : k = key
  · subst hk; simp [file]
  · simp [hk, file]

theorem file_allocated (s : Storage) (table : Nat) {k : PageKey} {p : PageFile} (h : s.file k = none)
    (hp : (s.allocatePage table).file k = some p) : p = ⟨.blank, []⟩ := by
  unfold file allocatePage at hp
  by_cases ht : k.table = table
  · subst ht
    simp only [Function.update_self] at hp
    rw [List.getElem?_append_right (List.getElem?_eq_none_iff.1 h), List.getElem?_singleton] at hp
    split at hp
    · exact (Option.some.inj hp).symm
    · cases hp
  · simp only [Function.update_of_ne ht] at hp
    unfold file at h
    rw [h] at hp
    cases hp

theorem file_flushAll (s : Storage) (k : PageKey) :
    s.flushAll.file k = (s.file k).map (fun p =>
      match s.frames k with
      | some ⟨image, true⟩ => { p with writes := p.writes ++ [image] }
      | _                  => p) := by
  unfold file flushAll
  simp only [List.getElem?_mapIdx]

end Storage
end MiniPostgres
