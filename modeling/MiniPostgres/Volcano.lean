import MiniPostgres.JoinOrder
import MiniPostgres.Lib.Cursor
/-!
# Volcano — executors that are pulled row by row

`executor/base.py`, the query operators of `executor/operators.py`, and `executor/factory.py`: every operator is an object with
saved positions, and its `next` is a loop over the `next` of its children.  A context gives the rows that the snapshot of the
statement sees.
-/
namespace MiniPostgres

open Operators

/-- What the executors read of the tables, for one snapshot. -/
structure ExecutionContext where
  /-- `scan_mvcc`: the visible rows in scan order. -/
  scan    : Nat → List (TID × Values)
  /-- `tree.search` or `tree.range` of an index, when there is one. -/
  range   : Nat → Nat → Key → Key → Option (List TID)
  /-- `resolve_mvcc`: the visible version of a candidate. -/
  resolve : Nat → TID → Option (TID × Values)

inductive Lifecycle
  | created | opened | closed
  deriving DecidableEq, Repr

/-! ## Keys of a hash table -/

def floatNumber (bits : BitVec 64) : ℚ :=
  let exponent : Nat := bits.toNat / 2 ^ 52 % 2 ^ 11
  let fraction : Nat := bits.toNat % 2 ^ 52
  let magnitude : ℚ :=
    if exponent = 0 then (fraction : ℚ) / 2 ^ 1074 else ((2 ^ 52 + fraction : Nat) : ℚ) * 2 ^ exponent / 2 ^ 1075
  if 2 ^ 63 ≤ bits.toNat then -magnitude else magnitude

/-- What Python's `==` compares: numbers of every type by their value. -/
inductive HashKey
  | number (value : ℚ)
  | infinity (negative : Bool)
  | text (value : List Char)
  deriving DecidableEq

/-- The key of a value; a NaN has none, as no other object is equal to it. -/
def hashKey : Scalar → Option HashKey
  | .null       => none
  | .bool b     => some (.number (if b then 1 else 0))
  | .int n      => some (.number n)
  | .float bits =>
    if isNan bits then none
    else if bits.toNat / 2 ^ 52 % 2 ^ 11 = 2047 then some (.infinity (decide (2 ^ 63 ≤ bits.toNat)))
    else some (.number (floatNumber bits))
  | .text s     => some (.text s)

abbrev HashTable := List (HashKey × List ExecutionRow)

namespace HashTable

/-- `hash[key].append(row)`. -/
def add (key : HashKey) (row : ExecutionRow) : HashTable → HashTable
  | []                => [(key, [row])]
  | (k, rows) :: rest => if k = key then (k, rows ++ [row]) :: rest else (k, rows) :: add key row rest

/-- A row is stored under its key, unless that is NULL.  Only its own object finds a NaN, and no other row has that. -/
def store (table : HashTable) (value : Scalar) (row : ExecutionRow) : HashTable :=
  match hashKey value with
  | none     => table
  | some key => table.add key row

/-- `hash.get(key, ())`. -/
def candidates (table : HashTable) (value : Scalar) : List ExecutionRow :=
  match hashKey value with
  | none     => []
  | some key => (table.lookup key).getD []

end HashTable

/-! ## Executors -/

inductive Executor
  | values (life : Lifecycle) (rows : List (List BoundExpr)) (index : Nat)
  | seqScan (life : Lifecycle) (tableId : Nat) (iterator : List (TID × Values))
  | indexScan (life : Lifecycle) (tableId indexId : Nat) (lowerKey upperKey : Key) (predicate : Option BoundExpr)
      (iterator seenVisible : List TID)
  | filter (life : Lifecycle) (child : Executor) (predicate : BoundExpr)
  | project (life : Lifecycle) (child : Executor) (items : List BoundSelectItem)
  | nestedLoopJoin (life : Lifecycle) (left right : Executor) (condition : BoundExpr) (rightRows : List ExecutionRow)
      (leftRow : Option ExecutionRow) (rightIndex : Nat)
  | hashJoin (life : Lifecycle) (left right : Executor) (leftKey rightKey condition : BoundExpr) (hash : HashTable)
      (found : List ExecutionRow) (matchIndex : Nat)
  | aggregate (life : Lifecycle) (child : Executor) (groupBy aggregates : List BoundExpr) (results : List ExecutionRow)
      (index : Nat)
  | sort (life : Lifecycle) (child : Executor) (orderBy : List BoundOrderItem) (rows : List ExecutionRow) (index : Nat)
  | limit (life : Lifecycle) (child : Executor) (limit emitted : Nat)

namespace Executor

/-- `_build_executor`, for plans without modifications. -/
def build : PhysicalPlan → Result Executor
  | .values rows => .ok (.values .created rows 0)
  | .seqScan table => .ok (.seqScan .created table.tableId [])
  | .indexScan table indexId predicate (some lowerKey) (some upperKey) =>
    .ok (.indexScan .created table.tableId indexId lowerKey upperKey predicate [] [])
  | .indexScan _ _ _ _ _ => raise .typeError "physical index scan is missing encoded bounds"
  | .filter child predicate => do
    let child ← build child
    .ok (.filter .created child predicate)
  | .project child items => do
    let child ← build child
    .ok (.project .created child items)
  | .nestedLoopJoin left right condition => do
    let left ← build left
    let right ← build right
    .ok (.nestedLoopJoin .created left right condition [] none 0)
  | .hashJoin left right leftKey rightKey condition => do
    let left ← build left
    let right ← build right
    .ok (.hashJoin .created left right leftKey rightKey condition [] [] 0)
  | .aggregate child groupBy aggregates => do
    let child ← build child
    .ok (.aggregate .created child groupBy aggregates [] 0)
  | .sort child orderBy => do
    let child ← build child
    .ok (.sort .created child orderBy [] 0)
  | .limit child n => do
    let child ← build child
    .ok (.limit .created child n 0)
  | .modifyTable .. => raise .typeError "physical plan has no query executor"

def life : Executor → Lifecycle
  | .values l ..         => l
  | .seqScan l ..        => l
  | .indexScan l ..      => l
  | .filter l ..         => l
  | .project l ..        => l
  | .nestedLoopJoin l .. => l
  | .hashJoin l ..       => l
  | .aggregate l ..      => l
  | .sort l ..           => l
  | .limit l ..          => l

variable (A : FloatArith) (context : ExecutionContext)

/-- The candidates of one left row on which the condition is TRUE. -/
def matchesOf (leftKey condition : BoundExpr) (hash : HashTable) (left : ExecutionRow) : Result (List ExecutionRow) := do
  let key ← evaluate A leftKey left
  ((Pull.ofList (hash.candidates key)).bind (joined A condition left)).drain

open Fueled in
/-- `next`: a row, or `None` at the end, with the executor after it.  Every round of a loop takes one unit of fuel. -/
def next : Nat → Executor → Fueled Error (Option ExecutionRow × Executor)
  | 0, _ => outOfFuel
  | _ + 1, .values .opened rows index =>
    match rows[index]? with
    | none             => pure (none, .values .opened rows index)
    | some expressions => do
      let row ← done (valuesRow A expressions)
      pure (some row, .values .opened rows (index + 1))
  | _ + 1, .seqScan .opened tableId [] => pure (none, .seqScan .opened tableId [])
  | _ + 1, .seqScan .opened tableId ((tid, tuple) :: rest) =>
    pure (some (tableRow tableId tid tuple), .seqScan .opened tableId rest)
  | _ + 1, .indexScan .opened tableId indexId lowerKey upperKey predicate [] seenVisible =>
    pure (none, .indexScan .opened tableId indexId lowerKey upperKey predicate [] seenVisible)
  | n + 1, .indexScan .opened tableId indexId lowerKey upperKey predicate (tid :: rest) seenVisible =>
    match context.resolve tableId tid with
    | none => next n (.indexScan .opened tableId indexId lowerKey upperKey predicate rest seenVisible)
    | some (visibleTid, tuple) =>
      if visibleTid ∈ seenVisible then next n (.indexScan .opened tableId indexId lowerKey upperKey predicate rest seenVisible)
      else
        match predicate with
        | none => pure (some (tableRow tableId visibleTid tuple),
            .indexScan .opened tableId indexId lowerKey upperKey none rest (visibleTid :: seenVisible))
        | some p => do
          let v ← done (evaluate A p (tableRow tableId visibleTid tuple))
          if v = .bool true then
            pure (some (tableRow tableId visibleTid tuple),
              .indexScan .opened tableId indexId lowerKey upperKey (some p) rest (visibleTid :: seenVisible))
          else next n (.indexScan .opened tableId indexId lowerKey upperKey (some p) rest (visibleTid :: seenVisible))
  | n + 1, .filter .opened child predicate => do
    let (row, child) ← next n child
    match row with
    | none     => pure (none, .filter .opened child predicate)
    | some row => do
      let v ← done (evaluate A predicate row)
      if v = .bool true then pure (some row, .filter .opened child predicate) else next n (.filter .opened child predicate)
  | n + 1, .project .opened child items => do
    let (row, child) ← next n child
    match row with
    | none     => pure (none, .project .opened child items)
    | some row => do
      let out ← done (projectRow A items row)
      pure (some out, .project .opened child items)
  | n + 1, .nestedLoopJoin .opened left right condition rightRows none _ => do
    let (row, left) ← next n left
    match row with
    | none     => pure (none, .nestedLoopJoin .opened left right condition rightRows none 0)
    | some row => next n (.nestedLoopJoin .opened left right condition rightRows (some row) 0)
  | n + 1, .nestedLoopJoin .opened left right condition rightRows (some leftRow) rightIndex =>
    match rightRows[rightIndex]? with
    | none       => next n (.nestedLoopJoin .opened left right condition rightRows none rightIndex)
    | some right' => do
      let merged ← done (leftRow.merge right')
      let v ← done (evaluate A condition merged)
      if v = .bool true then
        pure (some merged, .nestedLoopJoin .opened left right condition rightRows (some leftRow) (rightIndex + 1))
      else next n (.nestedLoopJoin .opened left right condition rightRows (some leftRow) (rightIndex + 1))
  | n + 1, .hashJoin .opened left right leftKey rightKey condition hash found matchIndex =>
    match found[matchIndex]? with
    | some row => pure (some row, .hashJoin .opened left right leftKey rightKey condition hash found (matchIndex + 1))
    | none     => do
      let (row, left) ← next n left
      match row with
      | none     => pure (none, .hashJoin .opened left right leftKey rightKey condition hash found matchIndex)
      | some row => do
        let found ← done (matchesOf A leftKey condition hash row)
        next n (.hashJoin .opened left right leftKey rightKey condition hash found 0)
  | _ + 1, .aggregate .opened child groupBy aggregates results index =>
    match results[index]? with
    | none     => pure (none, .aggregate .opened child groupBy aggregates results index)
    | some row => pure (some row, .aggregate .opened child groupBy aggregates results (index + 1))
  | _ + 1, .sort .opened child orderBy rows index =>
    match rows[index]? with
    | none     => pure (none, .sort .opened child orderBy rows index)
    | some row => pure (some row, .sort .opened child orderBy rows (index + 1))
  | n + 1, .limit .opened child count emitted =>
    if count ≤ emitted then pure (none, .limit .opened child count emitted)
    else do
      let (row, child) ← next n child
      match row with
      | none     => pure (none, .limit .opened child count emitted)
      | some row => pure (some row, .limit .opened child count (emitted + 1))
  | _ + 1, _ => done (raise .runtimeError "executor is not open")

/-- An executor that was not opened raises. -/
example (n : Nat) (child : Executor) (predicate : BoundExpr) :
    next A context (n + 1) (.filter .created child predicate) = Fueled.done (raise .runtimeError "executor is not open") := by
  simp only [next]

/-! ### Loops over a child -/

/-- `while (row := executor.next()) is not None`. -/
def consume {σ : Type} (body : σ → ExecutionRow → Result σ) : Nat → σ → Executor → Fueled Error (σ × Executor) :=
  Cursor.consume (next A context) body

def drain (n : Nat) (e : Executor) : Fueled Error (List ExecutionRow × Executor) :=
  consume A context (fun rows row => .ok (rows ++ [row])) n [] e

/-- The body of the loop in `HashJoinExecutor._open`. -/
def hashRow (rightKey : BoundExpr) (hash : HashTable) (row : ExecutionRow) : Result HashTable := do
  let key ← evaluate A rightKey row
  .ok (hash.store key row)

/-- The body of the loop in `AggregateExecutor._open`. -/
def groupInto (groupBy : List BoundExpr) (groups : List Group) (row : ExecutionRow) : Result (List Group) := do
  let (row, key) ← groupKey A groupBy row
  .ok (addToGroups groupBy row key groups)

/-- The end of `AggregateExecutor._open`. -/
def groupResults (groupBy aggregates : List BoundExpr) (groups : List Group) : Result (List ExecutionRow) :=
  mapRows (fun g : Group => groupRow A groupBy aggregates g.key g.rows)
    (if groupBy.isEmpty && groups.isEmpty then [⟨.empty, [], []⟩] else groups)

/-! ### Opening and closing -/

/-- `open`: an open executor stays as it is, a closed one is not opened again. -/
def opening (e : Executor) (body : Fueled Error Executor) : Fueled Error Executor :=
  match e.life with
  | .opened  => pure e
  | .closed  => Fueled.done (raise .runtimeError "cannot reopen a closed executor")
  | .created => body

def open_ (n : Nat) : Executor → Fueled Error Executor
  | .values life rows index => opening (.values life rows index) (pure (.values .opened rows index))
  | .seqScan life tableId iterator => opening (.seqScan life tableId iterator)
    (pure (.seqScan .opened tableId (context.scan tableId)))
  | .indexScan life tableId indexId lowerKey upperKey predicate iterator seenVisible =>
    opening (.indexScan life tableId indexId lowerKey upperKey predicate iterator seenVisible)
      (match context.range tableId indexId lowerKey upperKey with
        | none      => Fueled.done (raise .constraintViolation ("unknown runtime index: " ++ toString indexId))
        | some tids => pure (.indexScan .opened tableId indexId lowerKey upperKey predicate tids seenVisible))
  | .filter life child predicate => opening (.filter life child predicate) (do
    let child ← open_ n child
    pure (.filter .opened child predicate))
  | .project life child items => opening (.project life child items) (do
    let child ← open_ n child
    pure (.project .opened child items))
  | .nestedLoopJoin life left right condition rightRows leftRow rightIndex =>
    opening (.nestedLoopJoin life left right condition rightRows leftRow rightIndex) (do
      let left ← open_ n left
      let right ← open_ n right
      let (rightRows, right) ← drain A context n right
      pure (.nestedLoopJoin .opened left right condition rightRows leftRow rightIndex))
  | .hashJoin life left right leftKey rightKey condition hash found matchIndex =>
    opening (.hashJoin life left right leftKey rightKey condition hash found matchIndex) (do
      let left ← open_ n left
      let right ← open_ n right
      let (hash, right) ← consume A context (hashRow A rightKey) n hash right
      pure (.hashJoin .opened left right leftKey rightKey condition hash found matchIndex))
  | .aggregate life child groupBy aggregates results index =>
    opening (.aggregate life child groupBy aggregates results index) (do
      let child ← open_ n child
      let (groups, child) ← consume A context (groupInto A groupBy) n [] child
      let results ← Fueled.done (groupResults A groupBy aggregates groups)
      pure (.aggregate .opened child groupBy aggregates results index))
  | .sort life child orderBy rows index => opening (.sort life child orderBy rows index) (do
    let child ← open_ n child
    let (rows, child) ← drain A context n child
    let rows ← Fueled.done (sortRows A orderBy rows)
    pure (.sort .opened child orderBy rows index))
  | .limit life child count emitted => opening (.limit life child count emitted) (do
    let child ← open_ n child
    pure (.limit .opened child count emitted))

/-- `close`: an open executor closes its children and clears what it saved. -/
def close : Executor → Executor
  | .values _ rows index => .values .closed rows index
  | .seqScan _ tableId _ => .seqScan .closed tableId []
  | .indexScan _ tableId indexId lowerKey upperKey predicate _ _ =>
    .indexScan .closed tableId indexId lowerKey upperKey predicate [] []
  | .filter .opened child predicate => .filter .closed (close child) predicate
  | .filter _ child predicate => .filter .closed child predicate
  | .project .opened child items => .project .closed (close child) items
  | .project _ child items => .project .closed child items
  | .nestedLoopJoin .opened left right condition _ leftRow rightIndex =>
    .nestedLoopJoin .closed (close left) (close right) condition [] leftRow rightIndex
  | .nestedLoopJoin _ left right condition rightRows leftRow rightIndex =>
    .nestedLoopJoin .closed left right condition rightRows leftRow rightIndex
  | .hashJoin .opened left right leftKey rightKey condition _ _ matchIndex =>
    .hashJoin .closed (close left) (close right) leftKey rightKey condition [] [] matchIndex
  | .hashJoin _ left right leftKey rightKey condition hash found matchIndex =>
    .hashJoin .closed left right leftKey rightKey condition hash found matchIndex
  | .aggregate .opened child groupBy aggregates _ index => .aggregate .closed (close child) groupBy aggregates [] index
  | .aggregate _ child groupBy aggregates results index => .aggregate .closed child groupBy aggregates results index
  | .sort .opened child orderBy _ index => .sort .closed (close child) orderBy [] index
  | .sort _ child orderBy rows index => .sort .closed child orderBy rows index
  | .limit .opened child count emitted => .limit .closed (close child) count emitted
  | .limit _ child count emitted => .limit .closed child count emitted

/-- `collect`: the rows, and the executor, which is closed. -/
def collect (n : Nat) (e : Executor) : Fueled Error (List ExecutionRow × Executor) := do
  let e ← open_ A context n e
  let (rows, e) ← drain A context n e
  pure (rows, e.close)

end Executor

/-- `collect(build_executor(plan))`. -/
def PhysicalPlan.execute (A : FloatArith) (context : ExecutionContext) (n : Nat) (plan : PhysicalPlan) :
    Fueled Error (List ExecutionRow × Executor) := do
  let e ← Fueled.done (Executor.build plan)
  Executor.collect A context n e

end MiniPostgres
