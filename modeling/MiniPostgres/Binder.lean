import MiniPostgres.Plans
/-!
# Binder — names and types of a statement

`sql/ast.py` and `sql/binder.py` for SELECT: a statement is bound against a catalog, from the scope of its FROM tables.  The
two Unicode tables that the binder uses, `str.casefold` and `str.upper`, are a parameter (`Casing`).
-/
namespace MiniPostgres

abbrev Name := List Char

/-- `str.casefold` and `str.upper`. -/
structure Casing where
  casefold : Name → Name
  upper    : Name → Name

/-! ## Syntax -/

inductive Expr
  | literal (value : Scalar)
  | columnRef (name : Name) (table : Option Name)
  | star (table : Option Name)
  | unary (operator : UnaryOperator) (operand : Expr)
  | binary (left : Expr) (operator : BinaryOperator) (right : Expr)
  | isNull (operand : Expr) (negated : Bool)
  | function (name : Name) (arguments : List Expr)

def Expr.isStar : Expr → Bool
  | .star _ => true
  | _       => false

structure TableRef where
  name  : Name
  alias_ : Option Name

structure JoinClause where
  table     : TableRef
  condition : Expr

structure SelectItem where
  expression : Expr
  alias_      : Option Name

structure OrderItem where
  expression : Expr
  direction  : Direction
  nulls      : Option Nulls

structure SelectStmt where
  items     : List SelectItem
  fromTable : Option TableRef
  joins     : List JoinClause
  where_    : Option Expr
  groupBy   : List Expr
  orderBy   : List OrderItem
  limit     : Option Nat

/-- `TableMetadata`, as far as the binder reads it. -/
structure TableMetadata where
  name    : Name
  tableId : Nat
  schema  : Schema

abbrev Catalog := List TableMetadata

structure ScopeEntry where
  table        : BoundTable
  visibleNames : List Name

namespace Binder

/-! ## Expressions -/

def requireNumeric (e : BoundExpr) : Result Unit :=
  if e.dataType = some .int64 ∨ e.dataType = some .float64 then .ok () else raise .typeMismatch "numeric operand required"

def coerce (e : BoundExpr) (target : DataType) : Result BoundExpr :=
  match e.dataType with
  | none   =>
    match e with
    | .literal .null _ _ => .ok (.literal .null (some target) true)
    | _                  => raise .typeMismatch ("cannot infer value as " ++ target.value)
  | some d =>
    if d = target then .ok e
    else if d = .int64 ∧ target = .float64 then .ok (.cast e target e.nullable)
    else raise .typeMismatch ("expected " ++ target.value ++ ", got " ++ d.value)

def numericPair (left right : BoundExpr) : Result (BoundExpr × BoundExpr × DataType) := do
  requireNumeric left
  requireNumeric right
  if left.dataType = some .float64 ∨ right.dataType = some .float64 then do
    let l ← coerce left .float64
    let r ← coerce right .float64
    .ok (l, r, .float64)
  else .ok (left, right, .int64)

def comparablePair (left right : BoundExpr) : Result (BoundExpr × BoundExpr) :=
  match left.dataType, right.dataType with
  | none, none     => .ok (left, right)
  | none, some d   => do
    let l ← coerce left d
    .ok (l, right)
  | some d, none   => do
    let r ← coerce right d
    .ok (left, r)
  | some d, some e =>
    if d = e then .ok (left, right)
    else if (d = .int64 ∨ d = .float64) ∧ (e = .int64 ∨ e = .float64) then do
      let (l, r, _) ← numericPair left right
      .ok (l, r)
    else raise .typeMismatch ("cannot compare " ++ d.value ++ " with " ++ e.value)

def bindLiteral (value : Scalar) : Result BoundExpr :=
  match value with
  | .int n => do
    let m ← validateInt64 n
    .ok (.literal (.int m) (some .int64) false)
  | v      => .ok (.literal v (inferType v) (decide (v = .null)))

def bindUnary (operator : UnaryOperator) (operand : BoundExpr) : Result BoundExpr :=
  match operator with
  | .not =>
    if operand.dataType = some .boolean then .ok (.unary .not operand .boolean operand.nullable)
    else raise .typeMismatch "NOT operand must be BOOLEAN"
  | operator => do
    requireNumeric operand
    match operand.dataType with
    | some d => .ok (.unary operator operand d operand.nullable)
    | none   => raise .runtimeError "assertion failed"

def bindBinary (left : BoundExpr) (operator : BinaryOperator) (right : BoundExpr) : Result BoundExpr :=
  match operator with
  | .and | .or =>
    if left.dataType = some .boolean ∧ right.dataType = some .boolean then
      .ok (.binary left operator right .boolean (left.nullable || right.nullable))
    else raise .typeMismatch "operands must be BOOLEAN"
  | .add | .sub | .mul | .div => do
    let (l, r, d) ← numericPair left right
    .ok (.binary l operator r d (l.nullable || r.nullable))
  | _ => do
    let (l, r) ← comparablePair left right
    .ok (.binary l operator r .boolean (l.nullable || r.nullable))

variable (K : Casing)

/-- `schema.column(name)`: the position is the column ID. -/
def findColumn (schema : Schema) (name : Name) : Option (Nat × Column) :=
  (schema.columns.zipIdx.find? (fun c => decide (K.casefold c.1.name = K.casefold name))).map (fun c => (c.2, c.1))

def columnOf (tableId : Nat) (columnId : Nat) (column : Column) : BoundExpr :=
  .column ⟨tableId, columnId⟩ column.name column.dataType column.nullable

/-- The entries that a qualifier selects; `entries` are not empty then. -/
def entriesFor (scope : List ScopeEntry) : Option Name → Result (List ScopeEntry)
  | none       => .ok scope
  | some table =>
    match scope.filter (fun entry => entry.visibleNames.contains (K.casefold table)) with
    | []           => raise .bindError ("unknown table or alias: " ++ String.ofList table)
    | entry :: rest => .ok (entry :: rest)

def resolveColumn (scope : List ScopeEntry) (name : Name) (table : Option Name) : Result BoundExpr := do
  let entries ← entriesFor K scope table
  match entries.filterMap (fun entry => (findColumn K entry.table.schema name).map (fun c => (entry.table, c))) with
  | []           => raise .bindError ("unknown column: " ++ String.ofList name)
  | [(table, c)] => .ok (columnOf table.tableId c.1 c.2)
  | _            => raise .bindError ("ambiguous column: " ++ String.ofList name)

def aggregateNamed (name : Name) : Option AggregateName :=
  [AggregateName.count, .sum, .avg, .min, .max].find? (fun a => decide (a.value.toList = K.upper name))

/-- The end of `_bind_function`, for an argument that is bound. -/
def bindAggregate (name : AggregateName) (argument : BoundExpr) : Result BoundExpr :=
  match name with
  | .count => .ok (.function .count argument .int64 false)
  | name   => do
    if name = .sum ∨ name = .avg then requireNumeric argument else .ok ()
    match argument.dataType with
    | none   => raise .typeMismatch (name.value ++ " requires a typed argument")
    | some d => .ok (.function name argument (if name = .avg then .float64 else d) true)

/-- What `_bind_function` checks before it looks at the arguments. -/
def checkFunction (context : String) (allowAggregate insideAggregate : Bool) (name : Name) : Result AggregateName :=
  match aggregateNamed K name with
  | none   => raise .bindError ("unknown function: " ++ String.ofList name)
  | some f =>
    if !allowAggregate then raise .bindError ("aggregate function is not allowed in " ++ context)
    else if insideAggregate then raise .bindError "nested aggregate functions are not supported"
    else .ok f

/-- `_bind_expression_inner`. -/
def bindExpression (scope : List ScopeEntry) (context : String) (allowAggregate insideAggregate : Bool) : Expr → Result BoundExpr
  | .literal v            => bindLiteral v
  | .columnRef name table => resolveColumn K scope name table
  | .star _               => raise .bindError "star is only valid in SELECT lists or COUNT(*)"
  | .unary p e            => do
    let operand ← bindExpression scope context allowAggregate insideAggregate e
    bindUnary p operand
  | .binary l p r         => do
    let left ← bindExpression scope context allowAggregate insideAggregate l
    let right ← bindExpression scope context allowAggregate insideAggregate r
    bindBinary left p right
  | .isNull e negated     => do
    let operand ← bindExpression scope context allowAggregate insideAggregate e
    .ok (.isNull operand negated)
  | .function name [a]    => do
    let f ← checkFunction K context allowAggregate insideAggregate name
    if a.isStar then
      if f = .count then .ok .countStar else raise .bindError (f.value ++ "(*) is not supported")
    else do
      let argument ← bindExpression scope context true true a
      bindAggregate f argument
  | .function name _      => do
    let f ← checkFunction K context allowAggregate insideAggregate name
    raise .bindError (f.value ++ " requires exactly one argument")

def bindPredicate (scope : List ScopeEntry) (context : String) (e : Expr) : Result BoundExpr := do
  let bound ← bindExpression K scope context false false e
  match bound with
  | .literal .null _ _ => .ok (.literal .null (some .boolean) true)
  | bound              =>
    if bound.dataType = some .boolean then .ok bound else raise .typeMismatch (context ++ " expression must be BOOLEAN")

/-! ## SELECT -/

def findTable (catalog : Catalog) (name : Name) : Result TableMetadata :=
  match catalog.find? (fun t => decide (K.casefold t.name = K.casefold name)) with
  | none   => raise .bindError ("unknown table: " ++ String.ofList name)
  | some t => .ok t

def checkScope (tableId : Nat) (alias_ normalized : Name) : List ScopeEntry → Result Unit
  | []             => .ok ()
  | entry :: scope =>
    if entry.table.tableId = tableId then raise .bindError "self-joins are not supported"
    else if entry.visibleNames.contains normalized then raise .bindError ("duplicate table or alias: " ++ String.ofList alias_)
    else checkScope tableId alias_ normalized scope

/-- `_bind_table_ref`: the table, and the scope with its entry. -/
def bindTableRef (catalog : Catalog) (scope : List ScopeEntry) (reference : TableRef) :
    Result (BoundTable × List ScopeEntry) := do
  let metadata ← findTable K catalog reference.name
  let alias_ := reference.alias_.getD reference.name
  checkScope metadata.tableId alias_ (K.casefold alias_) scope
  let table : BoundTable := ⟨metadata.tableId, metadata.schema⟩
  .ok (table, scope ++ [⟨table, [K.casefold alias_]⟩])

/-- The joined tables enter the scope before any condition is bound. -/
def bindTables (catalog : Catalog) : List ScopeEntry → List TableRef → Result (List BoundTable × List ScopeEntry)
  | scope, []              => .ok ([], scope)
  | scope, reference :: rs => do
    let (table, scope) ← bindTableRef K catalog scope reference
    let (tables, scope) ← bindTables catalog scope rs
    .ok (table :: tables, scope)

def expandStar (scope : List ScopeEntry) (table : Option Name) : Result (List BoundSelectItem) := do
  let entries ← entriesFor K scope table
  if entries.isEmpty then raise .bindError "star requires a FROM table"
  else
    .ok (entries.flatMap (fun entry => entry.table.schema.columns.zipIdx.map (fun c =>
      (⟨columnOf entry.table.tableId c.2 c.1, c.1.name⟩ : BoundSelectItem))))

def defaultOutputName : Expr → Name
  | .columnRef name _ => name
  | .function name _  => K.casefold name
  | _                 => "?column?".toList

def bindItem (scope : List ScopeEntry) (item : SelectItem) : Result (List BoundSelectItem) :=
  match item.expression with
  | .star table => expandStar K scope table
  | e           => do
    let bound ← bindExpression K scope "SELECT" true false e
    .ok [⟨bound, item.alias_.getD (defaultOutputName K e)⟩]

/-- The first output column that an order item names. -/
def namedItem (items : List BoundSelectItem) : Expr → Option BoundSelectItem
  | .columnRef name none => items.find? (fun i => decide (K.casefold i.name = K.casefold name))
  | _                    => none

def bindOrderItem (scope : List ScopeEntry) (items : List BoundSelectItem) (item : OrderItem) : Result BoundOrderItem :=
  match namedItem K items item.expression with
  | some i => .ok ⟨i.expression, item.direction, item.nulls⟩
  | none   => do
    let bound ← bindExpression K scope "ORDER BY" true false item.expression
    .ok ⟨bound, item.direction, item.nulls⟩

def containsAggregate : BoundExpr → Bool
  | .function ..       => true
  | .countStar         => true
  | .unary _ o _ _     => containsAggregate o
  | .binary l _ r _ _  => containsAggregate l || containsAggregate r
  | .cast o _ _        => containsAggregate o
  | .isNull o _        => containsAggregate o
  | _                  => false

/-- `expression in group_by`; a NaN is equal to no other object. -/
def isGrouped (groupBy : List BoundExpr) (e : BoundExpr) : Bool := e.nanFree && groupBy.any (fun g => decide (g.canon = e.canon))

/-- `_ungrouped_columns`: the names of the columns that no GROUP BY expression covers. -/
def ungroupedColumns (groupBy : List BoundExpr) : BoundExpr → List Name
  | .column b m d n    => if isGrouped groupBy (.column b m d n) then [] else [m]
  | .unary p o d n     => if isGrouped groupBy (.unary p o d n) then [] else ungroupedColumns groupBy o
  | .binary l p r d n  =>
    if isGrouped groupBy (.binary l p r d n) then [] else ungroupedColumns groupBy l ++ ungroupedColumns groupBy r
  | .cast o d n        => if isGrouped groupBy (.cast o d n) then [] else ungroupedColumns groupBy o
  | .isNull o g        => if isGrouped groupBy (.isNull o g) then [] else ungroupedColumns groupBy o
  | _                  => []

def requireGrouped (groupBy : List BoundExpr) (e : BoundExpr) : Result Unit :=
  match ungroupedColumns groupBy e with
  | []        => .ok ()
  | name :: _ => raise .bindError ("column " ++ String.ofList name ++ " must appear in GROUP BY")

open Operators (mapRows)

def bindJoin (scope : List ScopeEntry) (clause : JoinClause × BoundTable) : Result BoundJoin := do
  let condition ← bindPredicate K scope "JOIN" clause.1.condition
  .ok ⟨clause.2, condition⟩

def bindWhere (scope : List ScopeEntry) : Option Expr → Result (Option BoundExpr)
  | none   => .ok none
  | some e => do
    let bound ← bindPredicate K scope "WHERE" e
    .ok (some bound)

def bindSelect (catalog : Catalog) (s : SelectStmt) : Result BoundSelect := do
  let (first, scope) ← bindTables K catalog [] s.fromTable.toList
  let (tables, scope) ← bindTables K catalog scope (s.joins.map (·.table))
  let joins ← mapRows (bindJoin K scope) (s.joins.zip tables)
  let where_ ← bindWhere K scope s.where_
  let groupBy ← mapRows (bindExpression K scope "GROUP BY" false false) s.groupBy
  let itemLists ← mapRows (bindItem K scope) s.items
  let items := itemLists.flatten
  let orderBy ← mapRows (bindOrderItem K scope items) s.orderBy
  let hasAggregate := items.any (fun i => containsAggregate i.expression) || orderBy.any (fun i => containsAggregate i.expression)
  if hasAggregate || !groupBy.isEmpty then do
    let _ ← mapRows (fun i : BoundSelectItem => requireGrouped groupBy i.expression) items
    let _ ← mapRows (fun i : BoundOrderItem => requireGrouped groupBy i.expression) orderBy
    .ok ⟨items, first.head?, joins, where_, groupBy, orderBy, s.limit⟩
  else .ok ⟨items, first.head?, joins, where_, groupBy, orderBy, s.limit⟩

end Binder
end MiniPostgres
