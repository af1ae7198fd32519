import MiniPostgres.Types
/-!
# Txn — snapshots, statuses, transactions and the transaction manager

`transaction/snapshot.py`, `status.py`, `model.py`, `visibility.py` and the part of `manager.py` that is not the log:
the log record of a commit or an abort is written before these functions run (`Recovery.lean`), and the locks a
transaction holds are released after them (`Locks.lean`).

A `Transaction` is a mutable object that its session keeps after the manager forgot it, so the manager carries, beside
the keys of `_active`, every object it has handed out (`transactions`).
-/
namespace MiniPostgres

/-- `TID` of `row.py`: a page and a slot within that page. -/
structure TID where
  pageId : Nat
  slotId : Nat
  deriving DecidableEq, Repr

/-- Page order, then slot order. -/
def TID.before (a b : TID) : Prop := a.pageId < b.pageId ∨ (a.pageId = b.pageId ∧ a.slotId < b.slotId)

instance (a b : TID) : Decidable (a.before b) := inferInstanceAs (Decidable (_ ∨ _))

/-- `TupleVersion` of `storage/tuple.py`: one physical row version and its chain link. -/
structure TupleVersion where
  xmin    : Nat
  xmax    : Nat
  nextTid : Option TID
  values  : Values
  deriving DecidableEq, Repr

def systemXid : Nat := 1

/-! ## Snapshots and statuses -/

/-- `Snapshot`: its constructor refuses an active XID that is zero or not below `xmax`. -/
structure Snapshot where
  xmax       : Nat
  activeXids : List Nat
  valid      : ∀ x ∈ activeXids, 0 < x ∧ x < xmax
  deriving DecidableEq

/-- The snapshot with these xids, without those that could not have been active. -/
def Snapshot.of (xmax : Nat) (activeXids : List Nat) : Snapshot :=
  ⟨xmax, activeXids.filter (fun x => 0 < x ∧ x < xmax), fun _ hx => by simpa using (List.mem_filter.1 hx).2⟩

/-- `Snapshot.__post_init__`. -/
def Snapshot.create (xmax : Nat) (activeXids : List Nat) : Result Snapshot :=
  if h : ∀ x ∈ activeXids, 0 < x ∧ x < xmax then .ok ⟨xmax, activeXids, h⟩
  else raise .valueError "snapshot XIDs are invalid"

inductive TransactionStatus
  | inProgress | committed | aborted
  deriving DecidableEq, Repr

/-- `TransactionStatusTable`: the recorded outcomes by XID. -/
abbrev StatusTable := Nat → Option TransactionStatus

def StatusTable.empty : StatusTable := fun _ => none

def StatusTable.get (t : StatusTable) (xid : Nat) : TransactionStatus := (t xid).getD .inProgress

def StatusTable.set (t : StatusTable) (xid : Nat) (status : TransactionStatus) : Result StatusTable :=
  if t.get xid ≠ .inProgress ∧ t.get xid ≠ status then raise .valueError "transaction status is terminal"
  else .ok (Function.update t xid (some status))

/-! ## Transactions -/

inductive IsolationLevel
  | readCommitted | repeatableRead
  deriving DecidableEq, Repr

inductive TransactionState
  | active | failed | committed | aborted
  deriving DecidableEq, Repr

def TransactionState.value : TransactionState → String
  | .active    => "active"
  | .failed    => "failed"
  | .committed => "committed"
  | .aborted   => "aborted"

structure Transaction where
  xid                : Nat
  isolation          : IsolationLevel
  state              : TransactionState := .active
  repeatableSnapshot : Option Snapshot := none
  hasWrites          : Bool := false
  deriving DecidableEq

def Transaction.requireUsable (t : Transaction) : Result Unit :=
  if t.state ≠ .active then
    raise .transactionAborted ("transaction " ++ toString t.xid ++ " is " ++ t.state.value)
  else .ok ()

def Transaction.markFailed (t : Transaction) : Result Transaction := do
  t.requireUsable
  .ok { t with state := .failed }

def Transaction.markCommitted (t : Transaction) : Result Transaction :=
  if t.state ≠ .active then raise .transactionAborted "only an active transaction can commit"
  else .ok { t with state := .committed }

def Transaction.markAborted (t : Transaction) : Result Transaction :=
  if t.state = .committed then raise .transactionAborted "committed transaction cannot abort"
  else .ok { t with state := .aborted }

/-! ## Visibility -/

/-- The status of a creating XID: the versions of `SYSTEM_XID` are committed. -/
def StatusTable.creator (statuses : StatusTable) (xmin : Nat) : TransactionStatus :=
  if xmin = systemXid then .committed else statuses.get xmin

/-- `is_visible` of `visibility.py`: creator first, then deleter. -/
def isVisible (version : TupleVersion) (snapshot : Snapshot) (currentXid : Nat) (statuses : StatusTable) : Bool :=
  if version.xmin = currentXid then decide (version.xmax ≠ currentXid)
  else if statuses.creator version.xmin ≠ .committed ∨ version.xmin ≥ snapshot.xmax ∨
      version.xmin ∈ snapshot.activeXids then false
  else if version.xmax = 0 then true
  else if version.xmax = currentXid then false
  else decide (statuses.get version.xmax ≠ .committed ∨ version.xmax ≥ snapshot.xmax ∨
    version.xmax ∈ snapshot.activeXids)

/-! ## The manager -/

structure TransactionManager where
  nextXid      : Nat
  active       : List Nat
  transactions : Nat → Option Transaction
  statuses     : StatusTable

/-- What `recover` hands to the constructor (a new database: `nextXid = 2` and no outcome): every recorded outcome is
of an XID below `nextXid` that is not `SYSTEM_XID`. -/
structure Recovered where
  nextXid  : Nat
  statuses : StatusTable
  two_le   : 2 ≤ nextXid
  known    : ∀ x, statuses x ≠ none → 2 ≤ x ∧ x < nextXid

def Recovered.new : Recovered := ⟨2, StatusTable.empty, by decide, fun _ h => absurd rfl h⟩

namespace TransactionManager

def start (r : Recovered) : TransactionManager := ⟨r.nextXid, [], fun _ => none, r.statuses⟩

/-- The transaction object a caller holds. -/
def object (m : TransactionManager) (xid : Nat) : Result Transaction :=
  match m.transactions xid with
  | some t => .ok t
  | none   => raise .keyError "unknown transaction"

def put (m : TransactionManager) (t : Transaction) : TransactionManager :=
  { m with transactions := Function.update m.transactions t.xid (some t) }

def begin (m : TransactionManager) (isolation : IsolationLevel) : TransactionManager × Transaction :=
  let t : Transaction := { xid := m.nextXid, isolation := isolation }
  ({ m.put t with nextXid := m.nextXid + 1, active := m.active ++ [t.xid] }, t)

/-- The snapshot `statement_snapshot` builds when it does not return the retained one. -/
def freshSnapshot (m : TransactionManager) (xid : Nat) : Result Snapshot :=
  Snapshot.create m.nextXid (m.active.filter (· ≠ xid))

def statementSnapshot (m : TransactionManager) (xid : Nat) : Result (TransactionManager × Snapshot) := do
  let t ← m.object xid
  t.requireUsable
  match t.isolation, t.repeatableSnapshot with
  | .repeatableRead, some s => .ok (m, s)
  | .repeatableRead, none   => do
    let s ← m.freshSnapshot xid
    .ok (m.put { t with repeatableSnapshot := some s }, s)
  | .readCommitted, _       => do
    let s ← m.freshSnapshot xid
    .ok (m, s)

/-- The status write and the removal from `_active` that end `commit` and `abort`. -/
def finish (m : TransactionManager) (t : Transaction) (status : TransactionStatus) : Result TransactionManager := do
  let statuses ← m.statuses.set t.xid status
  .ok { m.put t with statuses := statuses, active := m.active.filter (· ≠ t.xid) }

def commit (m : TransactionManager) (xid : Nat) : Result TransactionManager := do
  let t ← m.object xid
  let t ← t.markCommitted
  m.finish t .committed

def abort (m : TransactionManager) (xid : Nat) : Result TransactionManager := do
  let t ← m.object xid
  let t ← (if t.state ≠ .aborted then t.markAborted else .ok t)
  m.finish t .aborted

/-- `mark_failed` on a transaction object, as `execute_for_session` and the deadlock handler call it. -/
def markFailed (m : TransactionManager) (xid : Nat) : Result TransactionManager := do
  let t ← m.object xid
  let t ← t.markFailed
  .ok (m.put t)

def activeTransactions (m : TransactionManager) : List Transaction := m.active.filterMap m.transactions

end TransactionManager

end MiniPostgres
