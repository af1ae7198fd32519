import MiniPostgres.Volcano
import MiniPostgres.BTreePages
import MiniPostgres.Lib.Stages
/-!
# Executors — operators that hold pins and are counted, and may raise anywhere

The operators of `executor/operators.py` as stages with their `_open`, `_next` and `_close` hooks, the range iterator that pins
the leaf it stands on, the instrumentation that counts opened and closed executors, and `build_executor`.  The tables are
functions on the database that may do anything to it, and may raise; the loops are interrupted after some rounds.
-/
namespace MiniPostgres

open Stages Operators

/-- Why a call ends early: an exception of the program, a failed assertion, or an interruption of a loop. -/
inductive Failure
  | raised (e : Error)
  | assertion
  | interrupted

namespace Executors

/-! ## The database, the tracker and the pins -/

/-- The database, the counts of the `InstrumentationTracker`, and how many pins range iterators have taken and given back. -/
structure World (D : Type) where
  data       : D
  openCount  : Nat
  closeCount : Nat
  pinned     : Nat
  released   : Nat

/-- The tables and indexes of a context, as operations on a database `D`; a scan is iterated by an `I`, a tree is a `B`. -/
structure Storage (D I B : Type) where
  /-- `_has_mvcc(context)` -/
  hasMvcc       : Bool
  /-- `context.table(table_id)`, and whether it is an `IndexedTableAccess`. -/
  table         : Nat → Program Failure D Bool
  scan          : Nat → Program Failure D I
  scanMvcc      : Nat → Program Failure D I
  iterate       : I → Program Failure D (Option (TID × Values) × I)
  findIndex     : Nat → Nat → Program Failure D (Option B)
  search        : B → Key → Program Failure D (List TID)
  firstLeafPage : B → Key → Program Failure D Nat
  /-- `pool.fetch_page`, which pins the page. -/
  fetchPage     : B → Nat → Program Failure D Unit
  /-- The page, when it is a leaf. -/
  decodeLeaf    : B → Nat → Program Failure D BTreePages.LeafPage
  resolveMvcc   : Nat → TID → Program Failure D (Option (TID × Values))
  fetch         : Nat → TID → Program Failure D (Option Values)
  fetchMvcc     : Nat → TID → Program Failure D (Option Values)
  insert        : Nat → Values → Program Failure D TID
  insertMvcc    : Nat → Values → Program Failure D TID
  replace       : Nat → TID → Values → Program Failure D (Option TID)
  replaceMvcc   : Nat → TID → Values → Option (Values → Result Bool) → Program Failure D (Option TID × Bool)
  delete        : Nat → TID → Program Failure D Bool
  deleteMvcc    : Nat → TID → Option (Values → Result Bool) → Program Failure D Bool

variable {D I B σ α : Type}

def onData (x : Program Failure D α) : Program Failure (σ × World D) α :=
  .focus (fun s => s.2.data) (fun d s => (s.1, { s.2 with data := d })) x

/-- What an exception of the program ends. -/
def returned (r : Result α) : Program Failure σ α := .ofExcept (r.mapError .raised)

def raised (kind : ErrorClass) (message : String) : Program Failure σ α := .raise (.raised ⟨kind, message⟩)

def own : Program Failure (σ × World D) σ := .read Prod.fst

def setOwn (f : σ → σ) : Program Failure (σ × World D) Unit := .modify fun s => (f s.1, s.2)

def takePin : Program Failure (σ × World D) Unit := .modify fun s => (s.1, { s.2 with pinned := s.2.pinned + 1 })

def givePin : Program Failure (σ × World D) Unit := .modify fun s => (s.1, { s.2 with released := s.2.released + 1 })

/-! ## The range iterator -/

structure PageGuard where
  page     : Nat
  released : Bool

structure RangeIterator (B : Type) where
  tree     : B
  lower    : Key
  upper    : Key
  guard    : Option PageGuard
  leaf     : Option BTreePages.LeafPage
  position : Nat
  closed   : Bool

variable (S : Storage D I B)

/-- `pin_leaf`: a page that is not a leaf is not kept pinned. -/
def pinLeaf (tree : B) (page : Nat) : Program Failure (σ × World D) BTreePages.LeafPage := do
  onData (S.fetchPage tree page)
  takePin
  .rescue (onData (S.decodeLeaf tree page)) fun e => do
    givePin
    .raise e

namespace RangeIterator

/-- `self._guard.release()`, which does nothing the second time. -/
def release : Program Failure (RangeIterator B × World D) Unit := do
  let it ← own
  match it.guard with
  | some ⟨page, false⟩ => do
    setOwn fun it => { it with guard := some ⟨page, true⟩ }
    givePin
  | _ => pure ()

def load (page : Nat) : Program Failure (RangeIterator B × World D) Unit := do
  release
  let it ← own
  let leaf ← pinLeaf S it.tree page
  setOwn fun it => { it with guard := some ⟨page, false⟩, leaf := some leaf, position := 0 }

def close : Program Failure (RangeIterator B × World D) Unit := do
  let it ← own
  if it.closed then pure ()
  else do
    setOwn fun it => { it with closed := true }
    release
    setOwn fun it => { it with guard := none, leaf := none }

/-- One round of `__next__`: an entry, the end, or another round. -/
def round : Program Failure (RangeIterator B × World D) (Unit ⊕ Option (Key × TID)) := do
  let it ← own
  if it.closed then pure (.inr none)
  else
    match it.leaf with
    | none      => pure (.inr none)
    | some leaf =>
      match leaf.entries[it.position]? with
      | some entry => do
        setOwn fun it => { it with position := it.position + 1 }
        if entry.key < it.lower then pure (.inl ())
        else if it.upper < entry.key then do
          close
          pure (.inr none)
        else pure (.inr (some (entry.key, entry.tid)))
      | none =>
        match leaf.rightSibling with
        | none      => do
          close
          pure (.inr none)
        | some page => do
          load S page
          pure (.inl ())

/-- `__next__`, interrupted after `n` rounds. -/
def next (n : Nat) : Program Failure (RangeIterator B × World D) (Option (Key × TID)) :=
  .loop .interrupted (fun _ => round S) n ()

end RangeIterator
/-! ## The account -/

/-- Executors that are opened and not closed in the counts of the tracker, and pages that range iterators hold pinned. -/
def account (w : World D) : ℤ × ℤ := (w.openCount - w.closeCount, w.pinned - w.released)

def RangeIterator.pins (it : RangeIterator B) : ℤ × ℤ :=
  match it.guard with
  | some ⟨_, false⟩ => (0, 1)
  | _               => 0

/-! ## The operators -/

abbrev Operator (D : Type) := Hooks Failure (World D) ExecutionRow (ℤ × ℤ)

/-- An executor, with what `Executor` of `executor/base.py` does around the hooks. -/
abbrev Executor (D : Type) := Stage Failure (World D) ExecutionRow (ℤ × ℤ)

def executor (h : Operator D) : Executor D :=
  h.stage (.raised ⟨.runtimeError, "cannot reopen a closed executor"⟩) (.raised ⟨.runtimeError, "executor is not open"⟩)

/-- A stage that holds nothing itself. -/
def nothing (_ : σ) : ℤ × ℤ := 0

open Hooks (leaf unary binary onOwn onChild onLeft onRight closeChild closeChildren)

variable (A : FloatArith) (n : Nat)

/-- `ValuesExecutor` -/
def values (rows : List (List BoundExpr)) : Operator D :=
  leaf 0 nothing (pure ()) (do
    let index ← own
    match rows[index]? with
    | none             => pure none
    | some expressions => do
      setOwn fun index => index + 1
      let row ← returned (valuesRow A expressions)
      pure (some row)) (pure ())

/-- `SeqScanExecutor` -/
def seqScan (tableId : Nat) : Operator D :=
  leaf none nothing (do
    let indexed ← onData (S.table tableId)
    let iterator ← onData (if indexed && S.hasMvcc then S.scanMvcc tableId else S.scan tableId)
    setOwn fun _ => some iterator) (do
    match ← own with
    | none          => .raise .assertion
    | some iterator => do
      let (item, iterator) ← onData (S.iterate iterator)
      setOwn fun _ => some iterator
      match item with
      | none               => pure none
      | some (tid, tuple) => do
        let _ ← onData (S.table tableId)
        pure (some (tableRow tableId tid tuple))) (setOwn fun _ => none)

/-- `self._iterator` of `IndexScanExecutor`: over the TIDs of one key, or over a range. -/
inductive ScanIterator (B : Type)
  | found (tids : List TID)
  | range (it : RangeIterator B)

structure IndexScan (B : Type) where
  iterator    : Option (ScanIterator B)
  seenVisible : List TID

namespace IndexScan

def access (tableId : Nat) : Program Failure (IndexScan B × World D) Unit := do
  let indexed ← onData (S.table tableId)
  if indexed then pure () else raised .constraintViolation "index scan requires indexed table access"

/-- `tree.range(lower, upper)`, whose iterator pins its first leaf. -/
def openRange (tree : B) (lower upper : Key) : Program Failure (IndexScan B × World D) Unit :=
  if upper < lower then raised .valueError "range lower bound must not exceed upper bound"
  else do
    let page ← onData (S.firstLeafPage tree lower)
    let leaf ← pinLeaf S tree page
    setOwn fun s => { s with iterator := some (.range ⟨tree, lower, upper, some ⟨page, false⟩, some leaf, 0, false⟩) }

def open_ (tableId indexId : Nat) (lower upper : Key) : Program Failure (IndexScan B × World D) Unit := do
  access S tableId
  match ← onData (S.findIndex tableId indexId) with
  | none      => raised .constraintViolation ("unknown runtime index: " ++ toString indexId)
  | some tree =>
    if lower = upper then do
      let tids ← onData (S.search tree lower)
      setOwn fun s => { s with iterator := some (.found tids) }
    else openRange S tree lower upper

/-- A call of the range iterator that the scan holds. -/
def onRange (it : RangeIterator B) (x : Program Failure (RangeIterator B × World D) α) :
    Program Failure (IndexScan B × World D) α :=
  .focus (fun s => (it, s.2)) (fun t s => ({ s.1 with iterator := some (.range t.1) }, t.2)) x

/-- `next(self._iterator)` -/
def advance : Program Failure (IndexScan B × World D) (Option TID) := do
  let s ← own
  match s.iterator with
  | none                        => .raise .assertion
  | some (.found [])            => pure none
  | some (.found (tid :: tids)) => do
    setOwn fun s => { s with iterator := some (.found tids) }
    pure (some tid)
  | some (.range it)            => do
    let entry ← onRange it (RangeIterator.next S n)
    pure (entry.map Prod.snd)

/-- The visible version of a candidate that was not seen before. -/
def resolve (tableId : Nat) (tid : TID) : Program Failure (IndexScan B × World D) (Option (TID × Values)) :=
  if S.hasMvcc then do
    match ← onData (S.resolveMvcc tableId tid) with
    | none                       => pure none
    | some (visibleTid, tuple) => do
      let s ← own
      if visibleTid ∈ s.seenVisible then pure none
      else do
        setOwn fun s => { s with seenVisible := visibleTid :: s.seenVisible }
        pure (some (visibleTid, tuple))
  else do
    let tuple ← onData (S.fetch tableId tid)
    pure (tuple.map fun tuple => (tid, tuple))

/-- One round of the loop in `_next`. -/
def round (tableId : Nat) (predicate : Option BoundExpr) :
    Program Failure (IndexScan B × World D) (Unit ⊕ Option ExecutionRow) := do
  match ← advance S n with
  | none     => pure (.inr none)
  | some tid => do
    match ← resolve S tableId tid with
    | none              => pure (.inl ())
    | some (tid, tuple) =>
      match predicate with
      | none           => pure (.inr (some (tableRow tableId tid tuple)))
      | some predicate => do
        let v ← returned (evaluate A predicate (tableRow tableId tid tuple))
        if v = .bool true then pure (.inr (some (tableRow tableId tid tuple))) else pure (.inl ())

def next (tableId : Nat) (predicate : Option BoundExpr) : Program Failure (IndexScan B × World D) (Option ExecutionRow) := do
  access S tableId
  .loop .interrupted (fun _ => round S A n tableId predicate) n ()

def close : Program Failure (IndexScan B × World D) Unit := do
  let s ← own
  match s.iterator with
  | some (.range it) => onRange it RangeIterator.close
  | _                => pure ()
  setOwn fun _ => ⟨none, []⟩

def pins (s : IndexScan B) : ℤ × ℤ :=
  match s.iterator with
  | some (.range it) => it.pins
  | _                => 0

end IndexScan

/-- `IndexScanExecutor` -/
def indexScan (tableId indexId : Nat) (lower upper : Key) (predicate : Option BoundExpr) : Operator D :=
  leaf (⟨none, []⟩ : IndexScan B) IndexScan.pins (IndexScan.open_ S tableId indexId lower upper)
    (IndexScan.next S A n tableId predicate) IndexScan.close

/-- `FilterExecutor` -/
def filter (child : Executor D) (predicate : BoundExpr) : Operator D :=
  unary child () nothing (onChild child.open_)
    (.loop .interrupted (fun _ => do
      match ← onChild child.next with
      | none     => pure (.inr none)
      | some row => do
        let v ← returned (evaluate A predicate row)
        if v = .bool true then pure (.inr (some row)) else pure (.inl ())) n ())
    (closeChild child id)

/-- `ProjectExecutor` -/
def project (child : Executor D) (items : List BoundSelectItem) : Operator D :=
  unary child () nothing (onChild child.open_)
    (do
      match ← onChild child.next with
      | none     => pure none
      | some row => do
        let out ← returned (projectRow A items row)
        pure (some out))
    (closeChild child id)

structure NestedLoopJoin where
  rightRows  : List ExecutionRow
  leftRow    : Option ExecutionRow
  rightIndex : Nat

/-- One round of the loops in `NestedLoopJoinExecutor._next`: another left row, or the next right row. -/
def NestedLoopJoin.round (left right : Executor D) (condition : BoundExpr) :
    Program Failure ((NestedLoopJoin × left.State × right.State) × World D) (Unit ⊕ Option ExecutionRow) := do
  let s ← onOwn own
  match s.leftRow with
  | none => do
    let row ← onLeft left.next
    onOwn (setOwn fun s => { s with leftRow := row, rightIndex := 0 })
    if row.isNone then pure (.inr none) else pure (.inl ())
  | some leftRow =>
    match s.rightRows[s.rightIndex]? with
    | none          => do
      onOwn (setOwn fun s => { s with leftRow := none })
      pure (.inl ())
    | some rightRow => do
      onOwn (setOwn fun s => { s with rightIndex := s.rightIndex + 1 })
      let merged ← returned (leftRow.merge rightRow)
      let v ← returned (evaluate A condition merged)
      if v = .bool true then pure (.inr (some merged)) else pure (.inl ())

/-- `NestedLoopJoinExecutor` -/
def nestedLoopJoin (left right : Executor D) (condition : BoundExpr) : Operator D :=
  binary left right ⟨[], none, 0⟩
    (do
      onLeft left.open_
      onRight right.open_
      let rows ← onRight (right.drain .interrupted n)
      onOwn (setOwn fun s => { s with rightRows := rows }))
    (.loop .interrupted (fun _ => NestedLoopJoin.round A left right condition) n ())
    (closeChildren left right fun s => { s with rightRows := [] })

structure HashJoin where
  hash       : HashTable
  found      : List ExecutionRow
  matchIndex : Nat

/-- One round of the loop in `HashJoinExecutor._next`: a match that is left, or the matches of another left row. -/
def HashJoin.round (left right : Executor D) (leftKey condition : BoundExpr) :
    Program Failure ((HashJoin × left.State × right.State) × World D) (Unit ⊕ Option ExecutionRow) := do
  let s ← onOwn own
  match s.found[s.matchIndex]? with
  | some row => do
    onOwn (setOwn fun s => { s with matchIndex := s.matchIndex + 1 })
    pure (.inr (some row))
  | none     => do
    match ← onLeft left.next with
    | none         => pure (.inr none)
    | some leftRow => do
      let key ← returned (evaluate A leftKey leftRow)
      onOwn (setOwn fun s => { s with found := [] })
      .forEach (s.hash.candidates key) fun rightRow => do
        let merged ← returned (leftRow.merge rightRow)
        let v ← returned (evaluate A condition merged)
        if v = .bool true then onOwn (setOwn fun s => { s with found := s.found ++ [merged] }) else pure ()
      onOwn (setOwn fun s => { s with matchIndex := 0 })
      pure (.inl ())

/-- `HashJoinExecutor` -/
def hashJoin (left right : Executor D) (leftKey rightKey condition : BoundExpr) : Operator D :=
  binary left right ⟨[], [], 0⟩
    (do
      onLeft left.open_
      onRight right.open_
      .whileSome .interrupted (onRight right.next) (fun _ row => do
        let key ← returned (evaluate A rightKey row)
        onOwn (setOwn fun s => { s with hash := s.hash.store key row })) n ())
    (.loop .interrupted (fun _ => HashJoin.round A left right leftKey condition) n ())
    (closeChildren left right fun s => { s with hash := [], found := [] })

/-- Rows that an operator has computed when it was opened, and how many it has given out. -/
structure Computed where
  rows  : List ExecutionRow
  index : Nat

def Computed.next {C : Type} : Program Failure ((Computed × C) × World D) (Option ExecutionRow) := do
  let s ← onOwn own
  match s.rows[s.index]? with
  | none     => pure none
  | some row => do
    onOwn (setOwn fun s => { s with index := s.index + 1 })
    pure (some row)

/-- `AggregateExecutor` -/
def aggregate (child : Executor D) (groupBy aggregates : List BoundExpr) : Operator D :=
  unary child ⟨[], 0⟩ nothing
    (do
      onChild child.open_
      let groups ← .whileSome .interrupted (onChild child.next)
        (fun groups row => returned (Executor.groupInto A groupBy groups row)) n []
      let rows ← returned (Executor.groupResults A groupBy aggregates groups)
      onOwn (setOwn fun s => { s with rows := rows }))
    Computed.next (closeChild child fun s => { s with rows := [] })

/-- `SortExecutor` -/
def sort (child : Executor D) (orderBy : List BoundOrderItem) : Operator D :=
  unary child ⟨[], 0⟩ nothing
    (do
      onChild child.open_
      .whileSome .interrupted (onChild child.next) (fun _ row => onOwn (setOwn fun s => { s with rows := s.rows ++ [row] })) n ()
      let s ← onOwn own
      let rows ← returned (sortRows A orderBy s.rows)
      onOwn (setOwn fun s => { s with rows := rows }))
    Computed.next (closeChild child fun s => { s with rows := [] })

/-- `LimitExecutor` -/
def limit (child : Executor D) (count : Nat) : Operator D :=
  unary child 0 nothing (onChild child.open_)
    (do
      let emitted ← onOwn own
      if count ≤ emitted then pure none
      else do
        let row ← onChild child.next
        if row.isSome then onOwn (setOwn fun emitted => emitted + 1) else pure ()
        pure row)
    (closeChild child id)

/-! ### Modifications -/

/-- `self._affected` and `self._emitted` of `ModificationExecutor`. -/
structure Modification where
  affected : Nat
  emitted  : Bool

def Modification.next {C : Type} : Program Failure ((Modification × C) × World D) (Option ExecutionRow) := do
  let s ← onOwn own
  if s.emitted then pure none
  else do
    onOwn (setOwn fun s => { s with emitted := true })
    pure (some (ExecutionRow.empty.putSlot 0 (.int s.affected)))

/-- What the child gives, made into a list of candidates; the child is closed before any is written. -/
def gather {β : Type} (child : Executor D) (candidate : ExecutionRow → Result β) :
    Program Failure ((Modification × child.State) × World D) (List β) := do
  onChild child.open_
  .finally_ (.whileSome .interrupted (onChild child.next) (fun candidates row => do
    let c ← returned (candidate row)
    pure (candidates ++ [c])) n []) (onChild child.close)

/-- `_has_mvcc(context) and isinstance(access, IndexedTableAccess)`, for the access of a table. -/
def versioned (tableId : Nat) : Program Failure (σ × World D) Bool := do
  let indexed ← onData (S.table tableId)
  pure (indexed && S.hasMvcc)

def validate (table : BoundTable) (values : Values) : Result Values :=
  match table.schema.validateRow values with
  | .error ⟨.catalogError, message⟩ => raise .constraintViolation message
  | r                               => r

/-- The values of one row of an INSERT, with NULL for the columns that it does not name. -/
def insertCandidate (table : BoundTable) (targetColumns : List Nat) (row : ExecutionRow) : Result Values := do
  let values ← targetColumns.zipIdx.foldlM (fun values (p : Nat × Nat) =>
    match row.computed.lookup (.slot p.2) with
    | none   => raise .keyError ("OutputSlot(index=" ++ toString p.2 ++ ")")
    | some v => .ok (values.set p.1 v)) (List.replicate table.schema.columns.length Scalar.null)
  validate table values

/-- What the handler of an INSERT undoes: nothing of a transaction, whose versions become invisible. -/
def undoInserts (tableId : Nat) (inserted : List TID) : Program Failure (σ × World D) Unit :=
  if S.hasMvcc then pure ()
  else .forEach inserted.reverse fun tid => do
    let _ ← onData (S.delete tableId tid)

/-- The loop over the candidates. -/
def insertRows (tableId : Nat) (mvcc : Bool) : List Values → List TID → Program Failure (σ × World D) Unit
  | [], _                        => pure ()
  | candidate :: candidates, inserted => do
    let tid ← .rescue (onData (if mvcc then S.insertMvcc tableId candidate else S.insert tableId candidate)) fun e => do
      undoInserts S tableId inserted
      .raise e
    insertRows tableId mvcc candidates (inserted ++ [tid])

/-- `InsertExecutor` -/
def insert (child : Executor D) (table : BoundTable) (targetColumns : List Nat) : Operator D :=
  unary child ⟨0, false⟩ nothing
    (do
      let candidates ← gather n child (insertCandidate table targetColumns)
      let mvcc ← versioned S table.tableId
      insertRows S table.tableId mvcc candidates []
      onOwn (setOwn fun s => { s with affected := candidates.length }))
    Modification.next (closeChild child id)

/-- The TID that an UPDATE changes, and its new values. -/
def updateCandidate (table : BoundTable) (assignments : List BoundAssignment) (row : ExecutionRow) : Result (TID × Values) :=
  match row.tids.lookup table.tableId with
  | none     => raise .constraintViolation "UPDATE input row has no source TID"
  | some tid => do
    let values ← (List.range table.schema.columns.length).mapM fun columnId =>
      match row.cells.lookup ⟨table.tableId, columnId⟩ with
      | none   => raise .keyError "ColumnBinding"
      | some v => Except.ok v
    let values ← assignments.foldlM (fun (values : Values) a => do
      let v ← evaluate A a.expression row
      .ok (values.set a.columnId v)) values
    let validated ← validate table values
    .ok (tid, validated)

def matchesPredicate (table : BoundTable) (predicate : BoundExpr) (values : Values) : Result Bool := do
  let v ← evaluate A predicate ⟨values.mapIdx fun i v => (⟨table.tableId, i⟩, v), [], []⟩
  .ok (decide (v = .bool true))

/-- The replacement of one row and its old values, or nothing when the recheck fails. -/
def updateRow (tableId : Nat) (mvcc : Bool) (recheck : Option (Values → Result Bool)) (tid : TID) (values : Values) :
    Program Failure (σ × World D) (Option (TID × Values)) := do
  let oldValues ← onData (if mvcc then S.fetchMvcc tableId tid else S.fetch tableId tid)
  match oldValues with
  | none           => raised .constraintViolation "UPDATE source tuple disappeared"
  | some oldValues => do
    let (replacement, matched) ← onData (if mvcc then S.replaceMvcc tableId tid values recheck else do
      let replacement ← S.replace tableId tid values
      pure (replacement, true))
    if !matched then pure none
    else
      match replacement with
      | none             => raised .constraintViolation "UPDATE source tuple disappeared"
      | some replacement => pure (some (replacement, oldValues))

def undoUpdates (tableId : Nat) (applied : List (TID × Values)) : Program Failure (σ × World D) Unit :=
  if S.hasMvcc then pure ()
  else .forEach applied.reverse fun p => do
    let restored ← onData (S.replace tableId p.1 p.2)
    if restored.isNone then raised .runtimeError "failed to roll back partial UPDATE" else pure ()

/-- The loop over the candidates, and how many rows were changed. -/
def updateRows (tableId : Nat) (mvcc : Bool) (recheck : Option (Values → Result Bool)) :
    List (TID × Values) → List (TID × Values) → Program Failure (σ × World D) Nat
  | [], applied                          => pure applied.length
  | (tid, values) :: candidates, applied => do
    let change ← .rescue (updateRow S tableId mvcc recheck tid values) fun e => do
      undoUpdates S tableId applied
      .raise e
    updateRows tableId mvcc recheck candidates (applied ++ change.toList)

/-- `UpdateExecutor` -/
def update (child : Executor D) (table : BoundTable) (assignments : List BoundAssignment) (recheckPredicate : Option BoundExpr) :
    Operator D :=
  unary child ⟨0, false⟩ nothing
    (do
      let candidates ← gather n child (updateCandidate A table assignments)
      let mvcc ← versioned S table.tableId
      let affected ← updateRows S table.tableId mvcc (recheckPredicate.map (matchesPredicate A table)) candidates []
      onOwn (setOwn fun s => { s with affected := affected }))
    Modification.next (closeChild child id)

def deleteCandidate (table : BoundTable) (row : ExecutionRow) : Result TID :=
  match row.tids.lookup table.tableId with
  | none     => raise .constraintViolation "DELETE input row has no source TID"
  | some tid => .ok tid

/-- The sum over the TIDs. -/
def deleteRows (tableId : Nat) (mvcc : Bool) (recheck : Option (Values → Result Bool)) :
    List TID → Nat → Program Failure (σ × World D) Nat
  | [], affected          => pure affected
  | tid :: tids, affected => do
    let deleted ← onData (if mvcc then S.deleteMvcc tableId tid recheck else S.delete tableId tid)
    deleteRows tableId mvcc recheck tids (affected + if deleted then 1 else 0)

/-- `DeleteExecutor` -/
def delete (child : Executor D) (table : BoundTable) (recheckPredicate : Option BoundExpr) : Operator D :=
  unary child ⟨0, false⟩ nothing
    (do
      let tids ← gather n child (deleteCandidate table)
      let mvcc ← versioned S table.tableId
      let affected ← deleteRows S table.tableId mvcc (recheckPredicate.map (matchesPredicate A table)) tids 0
      onOwn (setOwn fun s => { s with affected := affected }))
    Modification.next (closeChild child id)

/-! ### Instrumentation -/

/-- `_registered_open`, and `actual_rows` of the metrics. -/
structure Instrumented where
  registeredOpen : Bool
  actualRows     : Nat

namespace Instrumented

/-- An executor that is registered is counted as open. -/
def owes (s : Instrumented) : ℤ × ℤ := if s.registeredOpen then (1, 0) else 0

/-- `record_open` and the flag. -/
def register : Program Failure (Instrumented × World D) Unit := do
  .modify fun s => (s.1, { s.2 with openCount := s.2.openCount + 1 })
  setOwn fun s => { s with registeredOpen := true }

/-- The end of `_close`. -/
def unregister : Program Failure (Instrumented × World D) Unit := do
  let s ← own
  if s.registeredOpen then do
    setOwn fun s => { s with registeredOpen := false }
    .modify fun s => (s.1, { s.2 with closeCount := s.2.closeCount + 1 })
  else pure ()

end Instrumented

/-- `InstrumentedExecutor`, without its clock. -/
def instrumented (delegate : Executor D) : Operator D :=
  unary delegate ⟨false, 0⟩ Instrumented.owes
    (do
      onOwn Instrumented.register
      onChild delegate.open_)
    (do
      let row ← onChild delegate.next
      if row.isSome then onOwn (setOwn fun s => { s with actualRows := s.actualRows + 1 }) else pure ()
      pure row)
    (.finally_ (onChild delegate.close) (onOwn Instrumented.unregister))

/-! ### Plans -/

/-- `session.wrap`, when there is a session. -/
def wrap (session : Bool) (e : Executor D) : Executor D := if session then executor (instrumented e) else e

/-- `build_executor` -/
def build (session : Bool) : PhysicalPlan → Except Error (Executor D)
  | .values rows => .ok (wrap session (executor (values A rows)))
  | .seqScan table => .ok (wrap session (executor (seqScan S table.tableId)))
  | .indexScan table indexId predicate (some lowerKey) (some upperKey) =>
    .ok (wrap session (executor (indexScan S A n table.tableId indexId lowerKey upperKey predicate)))
  | .indexScan _ _ _ _ _ => .error ⟨.typeError, "physical index scan is missing encoded bounds"⟩
  | .filter child predicate => do
    let child ← build session child
    .ok (wrap session (executor (filter A n child predicate)))
  | .project child items => do
    let child ← build session child
    .ok (wrap session (executor (project A child items)))
  | .nestedLoopJoin left right condition => do
    let left ← build session left
    let right ← build session right
    .ok (wrap session (executor (nestedLoopJoin A n left right condition)))
  | .hashJoin left right leftKey rightKey condition => do
    let left ← build session left
    let right ← build session right
    .ok (wrap session (executor (hashJoin A n left right leftKey rightKey condition)))
  | .aggregate child groupBy aggregates => do
    let child ← build session child
    .ok (wrap session (executor (aggregate A n child groupBy aggregates)))
  | .sort child orderBy => do
    let child ← build session child
    .ok (wrap session (executor (sort A n child orderBy)))
  | .limit child count => do
    let child ← build session child
    .ok (wrap session (executor (limit child count)))
  | .modifyTable operation table child targetColumns assignments recheckPredicate => do
    let child ← build session child
    .ok (wrap session (executor (match operation with
      | .insert => insert S n child table targetColumns
      | .update => update S A n child table assignments recheckPredicate
      | .delete => delete S A n child table recheckPredicate)))

end Executors
end MiniPostgres
