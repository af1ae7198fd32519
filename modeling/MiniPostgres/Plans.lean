import MiniPostgres.Expressions
import MiniPostgres.Lib.Pull
/-!
# Plans — logical plans, the planner and the operators

`planner/logical.py`, `Planner.logical` of `planner/planner.py`, and what the operators of `executor/operators.py` make of one
row, one group or one list of rows.  A scan gives the visible rows of its table in scan order, each with its TID.
-/
namespace MiniPostgres

/-! ## Bound statements -/

/-- `BoundTable`, as far as a plan reads it; the column at position `i` of the schema has the ID `i`. -/
structure BoundTable where
  tableId : Nat
  schema  : Schema
  deriving DecidableEq

structure BoundJoin where
  table     : BoundTable
  condition : BoundExpr
  deriving DecidableEq

structure BoundSelectItem where
  expression : BoundExpr
  name       : List Char
  deriving DecidableEq

inductive Direction
  | asc | desc
  deriving DecidableEq, Repr

inductive Nulls
  | first | last
  deriving DecidableEq, Repr

structure BoundOrderItem where
  expression : BoundExpr
  direction  : Direction
  nulls      : Option Nulls
  deriving DecidableEq

structure BoundSelect where
  items     : List BoundSelectItem
  fromTable : Option BoundTable
  joins     : List BoundJoin
  where_    : Option BoundExpr
  groupBy   : List BoundExpr
  orderBy   : List BoundOrderItem
  limit     : Option Nat
  deriving DecidableEq

structure BoundAssignment where
  columnId   : Nat
  expression : BoundExpr
  deriving DecidableEq

structure BoundInsert where
  table         : BoundTable
  targetColumns : List Nat
  rows          : List (List BoundExpr)
  deriving DecidableEq

structure BoundUpdate where
  table       : BoundTable
  assignments : List BoundAssignment
  where_      : Option BoundExpr
  deriving DecidableEq

structure BoundDelete where
  table  : BoundTable
  where_ : Option BoundExpr
  deriving DecidableEq

inductive BoundStatement
  | select (statement : BoundSelect)
  | insert (statement : BoundInsert)
  | update (statement : BoundUpdate)
  | delete (statement : BoundDelete)
  | explain (statement : BoundStatement)
  deriving DecidableEq

/-! ## Logical plans -/

inductive LogicalPlan
  | values (rows : List (List BoundExpr))
  | scan (table : BoundTable) (requiredColumnIds : Option (List Nat))
  | filter (child : LogicalPlan) (predicate : BoundExpr)
  | project (child : LogicalPlan) (items : List BoundSelectItem)
  | join (left right : LogicalPlan) (condition : BoundExpr)
  | aggregate (child : LogicalPlan) (groupBy aggregates : List BoundExpr)
  | sort (child : LogicalPlan) (orderBy : List BoundOrderItem)
  | limit (child : LogicalPlan) (limit : Nat)
  | insert (table : BoundTable) (targetColumns : List Nat) (child : LogicalPlan)
  | update (table : BoundTable) (assignments : List BoundAssignment) (child : LogicalPlan) (recheckPredicate : Option BoundExpr)
  | delete (table : BoundTable) (child : LogicalPlan) (recheckPredicate : Option BoundExpr)
  deriving DecidableEq

namespace Planner

/-- The functions that `_collect_aggregates` visits in one expression. -/
def functionsOf : BoundExpr → List BoundExpr
  | .function f a d n  => [.function f a d n]
  | .countStar         => [.countStar]
  | .unary _ o _ _     => functionsOf o
  | .binary l _ r _ _  => functionsOf l ++ functionsOf r
  | .cast o _ _        => functionsOf o
  | .isNull o _        => functionsOf o
  | _                  => []

/-- `if expression not in found: found.append(expression)`. -/
def appendNew (found : List BoundExpr) (e : BoundExpr) : List BoundExpr :=
  if found.any (fun f => decide (f.canon = e.canon)) then found else found ++ [e]

def collectAggregates (expressions : List BoundExpr) : List BoundExpr := (expressions.flatMap functionsOf).foldl appendNew []

/-- FROM with its joins, from left to right. -/
def joinTables (plan : LogicalPlan) (joins : List BoundJoin) : LogicalPlan :=
  joins.foldl (fun plan join => .join plan (.scan join.table none) join.condition) plan

def filtered (plan : LogicalPlan) : Option BoundExpr → LogicalPlan
  | none           => plan
  | some predicate => .filter plan predicate

def source (s : BoundSelect) : LogicalPlan :=
  let plan := match s.fromTable with
    | none       => LogicalPlan.values [[]]
    | some table => .scan table none
  filtered (joinTables plan s.joins) s.where_

def aggregatesOf (s : BoundSelect) : List BoundExpr :=
  collectAggregates (s.items.map (·.expression) ++ s.orderBy.map (·.expression))

def select (s : BoundSelect) : LogicalPlan :=
  let plan := source s
  let aggregates := aggregatesOf s
  let plan := if aggregates.isEmpty && s.groupBy.isEmpty then plan else .aggregate plan s.groupBy aggregates
  let plan := LogicalPlan.project plan s.items
  let plan := if s.orderBy.isEmpty then plan else .sort plan s.orderBy
  match s.limit with
  | none   => plan
  | some n => .limit plan n

def logical : BoundStatement → LogicalPlan
  | .select s => select s
  | .insert s => .insert s.table s.targetColumns (.values s.rows)
  | .update s => .update s.table s.assignments (filtered (.scan s.table none) s.where_) s.where_
  | .delete s => .delete s.table (filtered (.scan s.table none) s.where_) s.where_
  | .explain s => logical s

end Planner

/-! ## The operators -/

/-- The rows that a scan of each table gives. -/
abbrev TableContents := Nat → List (TID × Values)

namespace Operators

/-- A call for each element, up to the first that raises. -/
def mapRows {α β : Type} (f : α → Result β) : List α → Result (List β)
  | []      => .ok []
  | x :: xs => do
    let y ← f x
    let ys ← mapRows f xs
    .ok (y :: ys)

theorem mapRows_forall₂ {α β : Type} {f : α → Result β} : ∀ {xs : List α} {ys : List β}, mapRows f xs = .ok ys →
    List.Forall₂ (fun x y => f x = .ok y) xs ys
  | [], _, h => by cases h; exact .nil
  | x :: xs, _, h => by
    obtain ⟨y, hy, h⟩ := bind_eq_ok.1 h
    obtain ⟨ys, hys, h⟩ := bind_eq_ok.1 h
    cases h
    exact .cons hy (mapRows_forall₂ hys)

theorem mem_mapRows {α β : Type} {f : α → Result β} : ∀ {xs : List α} {ys : List β}, mapRows f xs = .ok ys → ∀ y ∈ ys,
    ∃ x ∈ xs, f x = .ok y
  | [], _, h, y, hy => by cases h; cases hy
  | x :: xs, _, h, y, hy => by
    obtain ⟨z, hz, h⟩ := bind_eq_ok.1 h
    obtain ⟨zs, hzs, h⟩ := bind_eq_ok.1 h
    cases h
    rcases List.mem_cons.1 hy with rfl | hy
    · exact ⟨x, List.mem_cons_self, hz⟩
    · obtain ⟨w, hw, hf⟩ := mem_mapRows hzs y hy
      exact ⟨w, List.mem_cons_of_mem _ hw, hf⟩

def tableRow (tableId : Nat) (tid : TID) (values : Values) : ExecutionRow :=
  ⟨values.mapIdx (fun i v => (⟨tableId, i⟩, v)), [(tableId, tid)], []⟩

variable (A : FloatArith)

def kept (predicate : BoundExpr) (row : ExecutionRow) : Pull Error ExecutionRow :=
  match evaluate A predicate row with
  | .error e => ⟨[], some e⟩
  | .ok v    => ⟨if v = .bool true then [row] else [], none⟩

/-- One pair of `NestedLoopJoinExecutor`. -/
def joined (condition : BoundExpr) (left right : ExecutionRow) : Pull Error ExecutionRow :=
  match left.merge right with
  | .error e   => ⟨[], some e⟩
  | .ok merged => kept A condition merged

/-- One left row, with the right rows that were drained when the join was opened. -/
def joinedAll (condition : BoundExpr) (rights : List ExecutionRow) (left : ExecutionRow) : Pull Error ExecutionRow :=
  (Pull.ofList rights).bind (joined A condition left)

/-- `ValuesExecutor`: the slots and the expressions of one row. -/
def valuesRow (expressions : List BoundExpr) : Result ExecutionRow := do
  let values ← mapRows (fun e => evaluate A e .empty) expressions
  .ok ((expressions.zip values).zipIdx.foldl (fun row p => (row.putSlot p.2 p.1.2).put p.1.1 p.1.2) .empty)

/-- `ProjectExecutor`: every item is evaluated on the row that comes in. -/
def projectRow (items : List BoundSelectItem) (row : ExecutionRow) : Result ExecutionRow := do
  let values ← mapRows (fun item : BoundSelectItem => evaluate A item.expression row) items
  .ok ((items.zip values).zipIdx.foldl (fun out p => (out.putSlot p.2 p.1.2).put p.1.1.expression p.1.2) row)

/-! ### Aggregates -/

/-- Python's `<` on two values of one type. -/
def scalarLt : Scalar → Scalar → Bool
  | .int a, .int b     => decide (a < b)
  | .float a, .float b => floatLt a b
  | .bool a, .bool b   => !a && b
  | .text a, .text b   => decide (a < b)
  | _, _               => false

/-- `_extreme`: a later value replaces the result only when it is beyond it. -/
def extreme (maximum : Bool) (values : List Scalar) (first : Scalar) : Scalar :=
  values.foldl (fun result v => if (if maximum then scalarLt result v else scalarLt v result) then v else result) first

def intsOf : List Scalar → Option (List Int)
  | []           => some []
  | .int n :: vs => (intsOf vs).map (n :: ·)
  | _ :: _       => none

def floatsOf : List Scalar → Option (List (BitVec 64))
  | []             => some []
  | .float b :: vs => (floatsOf vs).map (b :: ·)
  | _ :: _         => none

/-- `_aggregate_value` on the non-null values of its argument. -/
def aggregateOf (name : AggregateName) (dataType : DataType) (values : List Scalar) : Result Scalar :=
  match name, values with
  | .count, _     => .ok (.int values.length)
  | _, []         => .ok .null
  | .sum, _       =>
    match intsOf values, floatsOf values with
    | some ns, _      =>
      if dataType = .int64 then do let n ← validateInt64 ns.sum; .ok (.int n) else .ok (.int ns.sum)
    | none, some bs   => if dataType = .int64 then raise .typeMismatch "expected INT64" else .ok (.float (A.sum bs))
    | none, none      => raise .typeError "unsupported operand types for +"
  | .avg, _       =>
    match intsOf values, floatsOf values with
    | some ns, _    => .ok (.float (A.div (A.ofInt ns.sum) (A.ofInt values.length)))
    | none, some bs => .ok (.float (A.div (A.sum bs) (A.ofInt values.length)))
    | none, none    => raise .typeError "unsupported operand types for +"
  | .min, v :: vs => .ok (extreme false vs v)
  | .max, v :: vs => .ok (extreme true vs v)

def aggregateValue (aggregate : BoundExpr) (rows : List ExecutionRow) : Result Scalar :=
  match aggregate with
  | .function f argument d _ => do
    let values ← mapRows (fun row => evaluate A argument row) rows
    aggregateOf A f d (values.filter (fun v => v ≠ .null))
  | .countStar => .ok (.int rows.length)
  | _ => raise .typeError "not an aggregate"

/-- A NaN of an expression is one object on both rows: a literal, or a cell that both rows have from one tuple. -/
def sharedNan : BoundExpr → ExecutionRow → ExecutionRow → Bool
  | .literal .., _, _         => true
  | .column b _ _ _, r, r'    => decide (r.tids.lookup b.tableId = r'.tids.lookup b.tableId)
  | .unary .plus o _ _, r, r' => sharedNan o r r'
  | .cast o _ _, r, r'        => sharedNan o r r'
  | _, _, _                   => false

/-- Two components of a group key are one key: `==`, or one object. -/
def sameComponent (e : BoundExpr) (r r' : ExecutionRow) (v v' : Scalar) : Bool :=
  decide (v.canon = v'.canon) && (!v.isNanValue || sharedNan e r r')

/-- Two rows fall into one group. -/
def sameGroup : List BoundExpr → ExecutionRow × Values → ExecutionRow × Values → Bool
  | e :: es, (r, v :: vs), (r', v' :: vs') => sameComponent e r r' v v' && sameGroup es (r, vs) (r', vs')
  | _, _, _                                => true

/-- A group: its key, from its first row, and its rows in order. -/
structure Group where
  first : ExecutionRow
  key   : Values
  rows  : List ExecutionRow

/-- `groups.setdefault(key, []).append(row)`. -/
def addToGroups (groupBy : List BoundExpr) (row : ExecutionRow) (key : Values) : List Group → List Group
  | []      => [⟨row, key, [row]⟩]
  | g :: gs =>
    if sameGroup groupBy (g.first, g.key) (row, key) then { g with rows := g.rows ++ [row] } :: gs
    else g :: addToGroups groupBy row key gs

def groupKey (groupBy : List BoundExpr) (row : ExecutionRow) : Result (ExecutionRow × Values) := do
  let key ← mapRows (fun e => evaluate A e row) groupBy
  .ok (row, key)

/-- The row of a group: its key and its aggregates. -/
def groupRow (groupBy aggregates : List BoundExpr) (key : Values) (rows : List ExecutionRow) : Result ExecutionRow := do
  let values ← mapRows (fun a => aggregateValue A a rows) aggregates
  .ok ((groupBy.zip key ++ aggregates.zip values).foldl (fun row p => row.put p.1 p.2) .empty)

/-! ### Sorting -/

/-- `_compare_order_values`: whether the left value comes after the right one, `none` when neither comes first. -/
def orderAfter (direction : Direction) (nulls : Option Nulls) (left right : Scalar) : Option Bool :=
  let nullsFirst := match nulls with
    | some n => decide (n = .first)
    | none   => decide (direction = .desc)
  match left, right with
  | .null, .null => none
  | .null, _     => some (!nullsFirst)
  | _, .null     => some nullsFirst
  | l, r         =>
    if scalarLt l r then some (decide (direction = .desc))
    else if scalarLt r l then some (decide (direction = .asc))
    else none

/-- `_compare`: the first item that tells the rows apart. -/
def rowAfter : List BoundOrderItem → ExecutionRow → ExecutionRow → Result Bool
  | [], _, _            => .ok false
  | item :: items, l, r => do
    let v ← evaluate A item.expression l
    let w ← evaluate A item.expression r
    match orderAfter item.direction item.nulls v w with
    | some after => .ok after
    | none       => rowAfter items l r

/-- A row put into a sorted list, behind every row that does not come after it. -/
def insertRow (orderBy : List BoundOrderItem) (row : ExecutionRow) : List ExecutionRow → Result (List ExecutionRow)
  | []      => .ok [row]
  | r :: rs => do
    if ← rowAfter A orderBy row r then do
      let rest ← insertRow orderBy row rs
      .ok (r :: rest)
    else .ok (row :: r :: rs)

/-- A stable sort; which pairs it compares is the sort's own.  On rows that can be ordered it is the sort with `_compare`, which
`SortOrder.lean` models (`sortRows_eq_sortExecutor`). -/
def sortRows (orderBy : List BoundOrderItem) : List ExecutionRow → Result (List ExecutionRow)
  | []      => .ok []
  | r :: rs => do
    let sorted ← sortRows orderBy rs
    insertRow A orderBy r sorted

end Operators

end MiniPostgres
