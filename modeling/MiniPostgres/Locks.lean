import MiniPostgres.Integrity
/-!
# Locks — row writers, turn by turn

`transaction/locks.py` for the tuple locks of one table, and the row writes of `UpdateExecutor` and `DeleteExecutor` as
threads run them: `replace_mvcc` and `delete_mvcc` name the lock of the row, wait for it, resolve the newest version, check
it and write, and any other thread may run between two of these.  A wait for a unique key is a pause before the write.

A session runs one statement at a time, so a transaction has at most one row write under way; a deadlock victim is aborted
while it waits.  A vacuum holds the table's maintenance lease, so it waits for the row writes under a writer lease; the row
writes of `EXPLAIN ANALYZE` take no lease, and a vacuum may run between two of their turns.
-/
namespace MiniPostgres

/-- `LockManager`: the owner of each lock and the transactions queued for it.  A tuple lock is named by a TID. -/
structure LockManager where
  owners : TID → Option Nat
  queues : TID → List Nat

namespace LockManager

def new : LockManager := ⟨fun _ => none, fun _ => []⟩

/-- One turn of the loop of `acquire`: an owner has the lock; another caller enters the queue once, and takes the lock from
the head of the queue when nobody owns it.  Without the lock it waits. -/
def acquire (l : LockManager) (xid : Nat) (resource : TID) : LockManager × Bool :=
  if l.owners resource = some xid then (l, true)
  else
    let queue := if xid ∈ l.queues resource then l.queues resource else l.queues resource ++ [xid]
    if l.owners resource = none ∧ queue.head? = some xid then
      (⟨Function.update l.owners resource (some xid), Function.update l.queues resource queue.tail⟩, true)
    else (⟨l.owners, Function.update l.queues resource queue⟩, false)

def releaseAll (l : LockManager) (xid : Nat) : LockManager :=
  ⟨fun k => if l.owners k = some xid then none else l.owners k, fun k => (l.queues k).erase xid⟩

/-- **What `acquire` does to the owners**: nothing, or the caller becomes the owner of a lock that nobody owned. -/
theorem acquire_owners (l : LockManager) (x : Nat) (k : TID) :
    ((l.acquire x k).1.owners = l.owners ∧ ((l.acquire x k).2 = true → l.owners k = some x)) ∨
      (l.owners k = none ∧ (l.acquire x k).1.owners = Function.update l.owners k (some x) ∧ (l.acquire x k).2 = true) := by
  by_cases ho : l.owners k = some x
  · rw [acquire, if_pos ho]
    exact Or.inl ⟨rfl, fun _ => ho⟩
  · rw [acquire, if_neg ho]
    simp only
    generalize (if x ∈ l.queues k then l.queues k else l.queues k ++ [x]) = queue
    by_cases hg : l.owners k = none ∧ queue.head? = some x
    · rw [if_pos hg]
      exact Or.inr ⟨hg.1, rfl, rfl⟩
    · rw [if_neg hg]
      exact Or.inl ⟨rfl, fun h => by cases h⟩

theorem releaseAll_owners {l : LockManager} {x y : Nat} {k : TID} :
    (l.releaseAll x).owners k = some y ↔ l.owners k = some y ∧ y ≠ x := by
  simp only [releaseAll]
  by_cases hk : l.owners k = some x
  · rw [if_pos hk, hk]
    simp only [reduceCtorEq, Option.some.injEq, ne_eq, false_iff, not_and, not_not]
    exact Eq.symm
  · rw [if_neg hk]
    refine ⟨fun h => ⟨h, ?_⟩, And.left⟩
    rintro rfl
    exact hk h

end LockManager

/-! ## Row writes -/

inductive RowWrite
  | update (values : Values)
  | delete
  deriving DecidableEq

/-- How far a row write has come: it named the lock, it has the lock, it resolved the newest version, it may write. -/
inductive WriteStage
  | locking (root : TID)
  | resolving (root : TID)
  | checking (root : TID) (live : Option (TID × Values))
  | writing (root : TID) (visibleTid : TID) (oldValues : Values)
  deriving DecidableEq

def WriteStage.root : WriteStage → TID
  | .locking r     => r
  | .resolving r   => r
  | .checking r _  => r
  | .writing r _ _ => r

/-- The lock was obtained. -/
def WriteStage.locked : WriteStage → Bool
  | .locking _ => false
  | _          => true

/-- What the stage remembers of the globally live version. -/
def WriteStage.live : WriteStage → Option (Option (TID × Values))
  | .checking _ live   => some live
  | .writing _ tid old => some (some (tid, old))
  | _                  => none

/-- One call of `replace_mvcc` or `delete_mvcc` under way, and the row of its TID when it started. -/
structure RowTask where
  leased   : Bool
  write    : RowWrite
  tid      : TID
  snapshot : Snapshot
  recheck  : Values → Bool
  row      : Nat
  stage    : WriteStage

structure WriterState where
  table : TableState
  locks : LockManager
  tasks : Nat → Option RowTask

namespace TableState

/-- The end of `replace_mvcc`, from `validate_row` on. -/
def replaceChecked (s : TableState) (xid : Nat) (visibleTid : TID) (oldValues values : Values) :
    Result (TableState × Option TID) := do
  let validated ← s.heap.table.schema.validateRow values
  let oldKeys ← keysOf s.indexes oldValues
  let newKeys ← keysOf s.indexes validated
  checkUniqueGlobal s.heap.table xid s.statuses (some visibleTid) s.indexes newKeys
  let (heap, replacement) ← s.heap.replaceVersion xid visibleTid validated
  match replacement with
  | none     => .ok (s, none)
  | some new =>
    if hotEligible (decide (new.pageId = visibleTid.pageId)) oldKeys newKeys then .ok (⟨heap, s.indexes⟩, some new)
    else .ok (⟨heap, insertKeys s.indexes newKeys new⟩, some new)

end TableState

namespace WriterState

def start (r : Recovered) (schema : Schema) : WriterState := ⟨TableState.start r schema, .new, fun _ => none⟩

def heap (s : WriterState) : HeapState := s.table.heap

def look (s : WriterState) : Versions := s.heap.table.physicalVersion

def statuses (s : WriterState) : StatusTable := s.heap.manager.statuses

def active (s : WriterState) : List Nat := s.heap.manager.active

def setManager (s : WriterState) (m : TransactionManager) : WriterState :=
  { s with table := ⟨{ s.heap with manager := m }, s.table.indexes⟩ }

/-- A row write starts: its TID was read under the statement's snapshot, for REPEATABLE READ the retained one. -/
def startWrite (s : WriterState) (leased : Bool) (xid : Nat) (w : RowWrite) (tid : TID) (sn : Snapshot)
    (recheck : Values → Bool) : Result WriterState := do
  let t ← s.heap.manager.object xid
  t.requireUsable
  if t.isolation = .repeatableRead ∧ t.repeatableSnapshot ≠ some sn then raise .valueError "not the retained snapshot"
  else
    match s.look tid with
    | none   => raise .constraintViolation "UPDATE source tuple disappeared"
    | some v =>
      if isVisible v sn xid s.statuses then do
        let root ← s.heap.table.rootTid tid
        .ok { s with tasks := Function.update s.tasks xid (some ⟨leased, w, tid, sn, recheck, s.heap.rowOf tid, .locking root⟩) }
      else raise .constraintViolation "UPDATE source tuple disappeared"

/-- The next turn of a row write: a stage to go on from, or its end. -/
def turn (s : WriterState) (xid : Nat) (k : RowTask) : Result (WriterState × Option WriteStage) :=
  match k.stage with
  | .locking root => do
    s.heap.requireUsable xid
    let (locks, granted) := s.locks.acquire xid root
    .ok ({ s with locks := locks }, some (if granted then .resolving root else .locking root))
  | .resolving root => do
    let live ← s.heap.table.resolveGloballyLive root xid s.statuses
    .ok (s, some (.checking root live))
  | .checking root live => do
    let t ← s.heap.manager.object xid
    s.table.checkRepeatableReadWriteConflict root t k.snapshot live
    match live, k.write with
    | none, .update _    => raise .constraintViolation "UPDATE source tuple disappeared"
    | none, .delete      => .ok (s, none)
    | some (tid, old), _ =>
      if t.isolation = .readCommitted ∧ k.recheck old = false then .ok (s, none)
      else .ok (s, some (.writing root tid old))
  | .writing _ tid old =>
    match k.write with
    | .update values => do
      let (table, replacement) ← s.table.replaceChecked xid tid old values
      match replacement with
      | none   => raise .constraintViolation "UPDATE source tuple disappeared"
      | some _ => .ok ({ s with table := table }, none)
    | .delete => do
      let (heap, _) ← s.heap.deleteVersion xid tid
      .ok ({ s with table := ⟨heap, s.table.indexes⟩ }, none)

/-- A row write that raises ends, and its transaction is failed. -/
def failTask (s : WriterState) (xid : Nat) : WriterState :=
  match s.heap.manager.call (.markFailed xid) with
  | .ok m    => { s.setManager m with tasks := Function.update s.tasks xid none }
  | .error _ => { s with tasks := Function.update s.tasks xid none }

end WriterState

inductive WriterCall
  | manager (c : TransactionManager.Call)
  | insert (xid : Nat) (values : Values)
  | createIndex (metadata : IndexMetadata) (dataTypes : List DataType)
  /-- Under the writer lease of its statement, or without one as `EXPLAIN ANALYZE` makes it. -/
  | write (leased : Bool) (xid : Nat) (w : RowWrite) (tid : TID) (snapshot : Snapshot) (recheck : Values → Bool)
  | turn (xid : Nat)
  | vacuum (horizon : Nat)

namespace WriterState

/-- The calls of the manager; `commit` and `abort` end with `release_all`. -/
def managerCall (s : WriterState) (c : TransactionManager.Call) : WriterState :=
  match s.heap.manager.call c with
  | .error _ => s
  | .ok m    =>
    match c with
    | .commit x | .abort x =>
      { s.setManager m with locks := s.locks.releaseAll x, tasks := Function.update s.tasks x none }
    | _ => s.setManager m

def setTask (s : WriterState) (xid : Nat) (k : RowTask) (stage : Option WriteStage) : WriterState :=
  { s with tasks := Function.update s.tasks xid (stage.map (fun st => { k with stage := st })) }

/-- A row write under way holds a writer lease. -/
def leased (s : WriterState) : Bool := s.active.any (fun x => (s.tasks x).any RowTask.leased)

def step (s : WriterState) : WriterCall → WriterState
  | .manager (.commit x) =>
    match s.tasks x with
    | some _ => s
    | none   => s.managerCall (.commit x)
  | .manager c => s.managerCall c
  | .insert x values =>
    match s.table.insertMvcc x values with
    | .ok (table, _) => { s with table := table }
    | .error _       => s
  | .createIndex m d =>
    match s.table.createIndex m d with
    | .ok table => { s with table := table }
    | .error _  => s
  | .write leased x w tid sn recheck =>
    match s.tasks x, s.startWrite leased x w tid sn recheck with
    | none, .ok s' => s'
    | _, _         => s
  | .turn x =>
    match s.tasks x with
    | none   => s
    | some k =>
      match s.turn x k with
      | .ok (s', stage) => s'.setTask x k stage
      | .error _        => s.failTask x
  | .vacuum horizon =>
    if s.leased then s
    else { s with table := s.table.step (.vacuum horizon) }

def run (s : WriterState) (calls : List WriterCall) : WriterState := calls.foldl step s

/-- Every step of the run meets a condition, in the state before it. -/
def Along (P : WriterState → WriterCall → Prop) : WriterState → List WriterCall → Prop
  | _, [] => True
  | s, c :: calls => P s c ∧ Along P (s.step c) calls

end WriterState
end MiniPostgres
