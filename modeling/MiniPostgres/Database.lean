import MiniPostgres.Outcomes
import MiniPostgres.Refinement
import MiniPostgres.Growth
/-!
# Database — one thread over the log, the pool and the heap tables

The statements of a single-threaded database, cut where a crash can fall: a heap mutation is its page publications in turn,
and a publication is the allocation of its page, the BEGIN record of a first write, the image record, and the replacement of
the frame (`heap.py`: `_insert_new_page`, `_publish_page`); a COMMIT is its record, the flush and the status; a checkpoint is
the steps of `sharp_checkpoint`.  The pool may write a frame out, or evict it, between any two of them.

A table counts a publication from its image record on.  `replace_version` publishes twice: between the two the table holds
the replacement as a row of its own, which no later state does.
-/
namespace MiniPostgres

/-- A heap table, and the record of its run (`HeapState`). -/
structure TableData where
  table  : HeapTable
  log    : Log
  origin : TID → Nat

def TableData.create (schema : Schema) : TableData := ⟨HeapTable.create schema, [], fun _ => 0⟩

def HeapState.data (h : HeapState) : TableData := ⟨h.table, h.log, h.origin⟩

def TableData.withManager (d : TableData) (m : TransactionManager) : HeapState := ⟨d.table, m, d.log, d.origin⟩

/-- What the thread is in the middle of. -/
inductive Task
  | idle
  /-- The publications still to make, each with its page and the table after it. -/
  | publish (table xid : Nat) (todo : List (Nat × TableData))
  /-- The image is logged and the frame not replaced. -/
  | install (key : PageKey) (image : Image) (xid : Nat) (todo : List (Nat × TableData))
  | ending (e : Ending)
  | checkpoint (c : Checkpointing)

structure DbState where
  storage : Storage
  manager : TransactionManager
  tables  : Nat → TableData
  task    : Task
  control : ControlState

inductive DbCall
  | begin (isolation : IsolationLevel)
  | statementSnapshot (xid : Nat)
  | markFailed (xid : Nat)
  | insert (table xid : Nat) (values : Values)
  /-- A version write of UPDATE: through the globally live version of the row of `tid`, as `replace_mvcc` does it. -/
  | update (table xid : Nat) (tid : TID) (values : Values)
  | delete (table xid : Nat) (tid : TID)
  | commit (xid : Nat)
  | abort (xid : Nat)
  | checkpoint
  /-- The next step of what the thread is in the middle of. -/
  | advance
  | flushFrame (key : PageKey)
  | evict (key : PageKey)

/-- `control.store` ends a checkpoint: a page's content is the checkpointed one. -/
def Storage.checkpointed (s : Storage) : Storage :=
  { s with files := fun table => (s.files table).map (fun p => ⟨p.current, []⟩) }

namespace DbState

def start (schemas : Nat → Schema) : DbState :=
  ⟨.new, TransactionManager.start .new, fun t => .create (schemas t), .idle, .new⟩

def heap (s : DbState) (table : Nat) : HeapState := (s.tables table).withManager s.manager

/-! ## Statements -/

/-- `replace_version` of the row's globally live version: the publications of the replacement and of its old version. -/
def updatePublications (h : HeapState) (xid : Nat) (tid : TID) (values : Values) : Result (List (Nat × TableData)) := do
  let live ← h.table.resolveGloballyLive tid xid h.manager.statuses
  match live with
  | none        => .ok []
  | some (a, _) => do
    let (after, replacement) ← h.replaceVersion xid a values
    match replacement with
    | none     => .ok []
    | some new => do
      let (mid, _) ← h.table.insertVersion xid values (some a.pageId)
      let inserted : TableData := ⟨mid, h.log ++ [⟨xid, h.log.length, none, some values⟩], after.origin⟩
      .ok [(new.pageId, inserted), (a.pageId, after.data)]

def insertPublications (h : HeapState) (xid : Nat) (values : Values) : Result (List (Nat × TableData)) := do
  let (after, tid) ← h.insertVersion xid values
  .ok [(tid.pageId, after.data)]

def deletePublications (h : HeapState) (xid : Nat) (tid : TID) : Result (List (Nat × TableData)) := do
  let live ← h.table.resolveGloballyLive tid xid h.manager.statuses
  match live with
  | none        => .ok []
  | some (a, _) => do
    let (after, deleted) ← h.deleteVersion xid a
    .ok (if deleted then [(a.pageId, after.data)] else [])

/-- A statement that raises publishes nothing. -/
def publications (s : DbState) (table xid : Nat) (p : Result (List (Nat × TableData))) : DbState :=
  match p with
  | .ok todo => { s with task := .publish table xid todo }
  | .error _ => s

/-- `commit` or `abort`, up to its record when the transaction has writes. -/
def endTransaction (s : DbState) (t : Transaction) (status : TransactionStatus) (record : WalRecord)
    (plain : Result TransactionManager) : DbState :=
  if t.hasWrites then { s with storage := s.storage.append t.xid record, task := .ending ⟨t.xid, status, false⟩ }
  else
    match plain with
    | .ok m    => { s with manager := m }
    | .error _ => s

/-- A call of an idle thread. -/
def statement (s : DbState) : DbCall → DbState
  | .begin i             => { s with manager := s.manager.step (.begin i) }
  | .statementSnapshot x => { s with manager := s.manager.step (.statementSnapshot x) }
  | .markFailed x        => { s with manager := s.manager.step (.markFailed x) }
  | .insert t x values   => s.publications t x (insertPublications (s.heap t) x values)
  | .update t x a values => s.publications t x (updatePublications (s.heap t) x a values)
  | .delete t x a        => s.publications t x (deletePublications (s.heap t) x a)
  | .commit x =>
    match s.manager.transactions x with
    | some t => if t.state = .active then s.endTransaction t .committed .commit (s.manager.commit x) else s
    | none   => s
  | .abort x =>
    match s.manager.transactions x with
    | some t =>
      if t.state = .active ∨ t.state = .failed then s.endTransaction t .aborted .abort (s.manager.abort x) else s
    | none => s
  | .checkpoint =>
    let active := s.manager.active
    { s with task := .checkpoint ⟨.called, active, statusMap s.manager active, s.manager.nextXid, 0⟩ }
  | _ => s

/-! ## The steps inside -/

/-- The next step of a publication: the page is allocated, the BEGIN record logged, or the image. -/
def publishStep (s : DbState) (table xid page : Nat) (after : TableData) (todo : List (Nat × TableData)) : DbState :=
  if (s.storage.files table).length ≤ page then { s with storage := s.storage.allocatePage table }
  else
    match s.manager.transactions xid with
    | none   => s
    | some t =>
      if t.hasWrites then
        let image : Image := ⟨s.storage.wal.endLsn, (after.table.pages[page]?).getD .empty⟩
        { s with
          storage := s.storage.append xid (.heapPageImages [(⟨table, page⟩, image)])
          tables := Function.update s.tables table after
          task := .install ⟨table, page⟩ image xid todo }
      else
        { s with storage := s.storage.append xid .begin, manager := s.manager.put { t with hasWrites := true } }

def endingStep (s : DbState) (e : Ending) : DbState :=
  if e.flushed then
    match (if e.status = .committed then s.manager.commit e.xid else s.manager.abort e.xid) with
    | .ok m    => { s with manager := m, task := .idle }
    | .error _ => s
  else { s with storage := s.storage.flushWal, task := .ending { e with flushed := true } }

def checkpointStep (s : DbState) (c : Checkpointing) : DbState :=
  match c.stage with
  | .called        => { s with storage := s.storage.flushWal, task := .checkpoint { c with stage := .logFlushed } }
  | .logFlushed    => { s with storage := s.storage.flushAll, task := .checkpoint { c with stage := .framesFlushed } }
  | .framesFlushed => { s with task := .checkpoint { c with stage := .synced } }
  | .synced        =>
    { s with
      storage := s.storage.append 0 (.checkpoint s.storage.wal.endLsn)
      task := .checkpoint { c with stage := .recorded, checkpointLsn := s.storage.wal.endLsn } }
  | .recorded      => { s with storage := s.storage.flushWal, task := .checkpoint { c with stage := .recordFlushed } }
  | .recordFlushed =>
    { s with
      storage := s.storage.checkpointed
      task := .idle
      control := ⟨c.checkpointLsn, c.nextXid, c.statuses⟩ }
  | _ => s

def advance (s : DbState) : DbState :=
  match s.task with
  | .idle                                    => s
  | .publish _ _ []                          => { s with task := .idle }
  | .publish table xid ((page, after) :: todo) => s.publishStep table xid page after todo
  | .install key image xid todo              =>
    match s.storage.install key image with
    | .ok storage => { s with storage := storage, task := .publish key.table xid todo }
    | .error _    => s
  | .ending e     => s.endingStep e
  | .checkpoint c => s.checkpointStep c

def step (s : DbState) : DbCall → DbState
  | .advance        => s.advance
  | .flushFrame key => { s with storage := s.storage.flushFrame key }
  | .evict key      => { s with storage := s.storage.evict key }
  | c               =>
    match s.task with
    | .idle => s.statement c
    | _     => s

def run (s : DbState) (calls : List DbCall) : DbState := calls.foldl step s

end DbState

/-! ## A crash -/

/-- **What a crash may leave of the relation files**: on each page its checkpointed content, one written since, or, if it was
written since, by the pool or by its allocation, a page that fails its checksum; a page allocated since may be missing, with
those behind it. -/
structure Crashed (s : Storage) (disk : Disk) : Prop where
  pages   : ∀ k d, pageAt disk k = some d → ∃ p, s.file k = some p ∧
    (d = .valid p.base ∨ (∃ w ∈ p.writes, d = .valid w) ∨ ((p.writes ≠ [] ∨ p.base = .blank) ∧ d = .torn))
  missing : ∀ k p, s.file k = some p → pageAt disk k = none → p.base = .blank

def openPages : List DiskPage → Result (List HeapPage)
  | []                    => .ok []
  | .valid image :: pages => do let rest ← openPages pages; .ok (image.page :: rest)
  | .torn :: _            => raise .corruptPage "page checksum mismatch"

/-- `HeapTable.open`, and the pages that the table reads. -/
def openTable (schema : Schema) (disk : List DiskPage) (sidecar : FreeSpaceMap) : Result HeapTable := do
  let pages ← openPages disk
  HeapTable.openHeap schema pages sidecar

namespace DbState

/-- `WalManager.open` on the surviving log, then `recover` from the control file. -/
def restart (s : DbState) (size : Nat) (disk : Disk) : Result RecoveryResult :=
  recover (s.storage.wal.reopen size).entries disk s.control.checkpointLsn s.control.statuses s.control.nextXid

end DbState
end MiniPostgres
