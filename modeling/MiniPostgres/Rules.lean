import MiniPostgres.Plans
/-!
# Rules — the rewrites of a logical plan

`planner/rules.py`: constants are folded, filters merged and pushed below joins, bottom up, until a pass changes nothing; the
scans of the result are annotated with the columns that are read above them.  A literal that a pass keeps is the same object, so
that two passes are compared by their structure.
-/
namespace MiniPostgres

open Operators (mapRows)

namespace Rules

def maxRewritePasses : Nat := 8

def relationIds : LogicalPlan → List Nat
  | .scan table _          => [table.tableId]
  | .join left right _     => relationIds left ++ relationIds right
  | .filter child _        => relationIds child
  | .project child _       => relationIds child
  | .aggregate child _ _   => relationIds child
  | .sort child _          => relationIds child
  | .limit child _         => relationIds child
  | .insert table _ _      => [table.tableId]
  | .update table _ _ _    => [table.tableId]
  | .delete table _ _      => [table.tableId]
  | .values _              => []

def conjuncts : BoundExpr → List BoundExpr
  | .binary l .and r _ _ => conjuncts l ++ conjuncts r
  | e                    => [e]

/-- `_and`. -/
def conjoin (left right : BoundExpr) : BoundExpr := .binary left .and right .boolean (left.nullable || right.nullable)

/-- `_combine` of a list with at least one expression. -/
def combine (first : BoundExpr) (rest : List BoundExpr) : BoundExpr := rest.foldl conjoin first

def addFilter (child : LogicalPlan) : List BoundExpr → LogicalPlan
  | []      => child
  | p :: ps =>
    match child with
    | .filter grandchild predicate => .filter grandchild (conjoin predicate (combine p ps))
    | child                        => .filter child (combine p ps)

/-- A conjunct reads some table, and only tables of the list. -/
def readsOnly (relations : List Nat) (conjunct : BoundExpr) : Bool :=
  !conjunct.bindings.isEmpty && conjunct.bindings.all (fun b => relations.contains b.tableId)

def pushFilter (predicate : BoundExpr) (left right : LogicalPlan) (condition : BoundExpr) : LogicalPlan :=
  let inLeft := readsOnly (relationIds left)
  let inRight := fun c => !inLeft c && readsOnly (relationIds right) c
  let rewritten := LogicalPlan.join (addFilter left ((conjuncts predicate).filter inLeft))
    (addFilter right ((conjuncts predicate).filter inRight)) condition
  match (conjuncts predicate).filter (fun c => !inLeft c && !inRight c) with
  | []      => rewritten
  | p :: ps => .filter rewritten (combine p ps)

/-- A filter over a rewritten child, with a folded predicate. -/
def rewriteFilter (child : LogicalPlan) (predicate : BoundExpr) : LogicalPlan :=
  match predicate with
  | .literal v _ _ => if v = .bool true then child else .values []
  | predicate      =>
    match child with
    | .filter grandchild below     => .filter grandchild (conjoin below predicate)
    | .join left right condition   => pushFilter predicate left right condition
    | child                        => .filter child predicate

variable (A : FloatArith)

def foldItem (item : BoundSelectItem) : Result BoundSelectItem := do
  let e ← foldExpression A item.expression
  .ok { item with expression := e }

def foldOrderItem (item : BoundOrderItem) : Result BoundOrderItem := do
  let e ← foldExpression A item.expression
  .ok { item with expression := e }

def foldAssignment (assignment : BoundAssignment) : Result BoundAssignment := do
  let e ← foldExpression A assignment.expression
  .ok { assignment with expression := e }

def foldRecheck : Option BoundExpr → Result (Option BoundExpr)
  | none   => .ok none
  | some e => do
    let e ← foldExpression A e
    .ok (some e)

def rewriteBottomUp : LogicalPlan → Result LogicalPlan
  | .values rows => do
    let rows ← mapRows (mapRows (foldExpression A)) rows
    .ok (.values rows)
  | .scan table required => .ok (.scan table required)
  | .filter child predicate => do
    let child ← rewriteBottomUp child
    let predicate ← foldExpression A predicate
    .ok (rewriteFilter child predicate)
  | .project child items => do
    let child ← rewriteBottomUp child
    let items ← mapRows (foldItem A) items
    .ok (.project child items)
  | .join left right condition => do
    let left ← rewriteBottomUp left
    let right ← rewriteBottomUp right
    let condition ← foldExpression A condition
    .ok (.join left right condition)
  | .aggregate child groupBy aggregates => do
    let aggregates ← mapRows (foldExpression A) aggregates
    let child ← rewriteBottomUp child
    let groupBy ← mapRows (foldExpression A) groupBy
    .ok (.aggregate child groupBy aggregates)
  | .sort child orderBy => do
    let child ← rewriteBottomUp child
    let orderBy ← mapRows (foldOrderItem A) orderBy
    .ok (.sort child orderBy)
  | .limit child n => do
    let child ← rewriteBottomUp child
    .ok (.limit child n)
  | .insert table targetColumns child => do
    let child ← rewriteBottomUp child
    .ok (.insert table targetColumns child)
  | .update table assignments child recheck => do
    let child ← rewriteBottomUp child
    let assignments ← mapRows (foldAssignment A) assignments
    let recheck ← foldRecheck A recheck
    .ok (.update table assignments child recheck)
  | .delete table child recheck => do
    let child ← rewriteBottomUp child
    let recheck ← foldRecheck A recheck
    .ok (.delete table child recheck)

/-- `_prune_columns`; the sets of columns are lists. -/
def pruneColumns (required : List ColumnBinding) : LogicalPlan → LogicalPlan
  | .scan table _ =>
    .scan table (some ((required.filter (fun b => decide (b.tableId = table.tableId))).map (·.columnId)).dedup)
  | .values rows => .values rows
  | .filter child predicate => .filter (pruneColumns (required ++ predicate.bindings) child) predicate
  | .project child items => .project (pruneColumns (required ++ items.flatMap (·.expression.bindings)) child) items
  | .join left right condition =>
    let all := required ++ condition.bindings
    .join (pruneColumns (all.filter (fun b => (relationIds left).contains b.tableId)) left)
      (pruneColumns (all.filter (fun b => (relationIds right).contains b.tableId)) right) condition
  | .aggregate child groupBy aggregates =>
    .aggregate (pruneColumns ((groupBy ++ aggregates).flatMap (·.bindings)) child) groupBy aggregates
  | .sort child orderBy => .sort (pruneColumns (required ++ orderBy.flatMap (·.expression.bindings)) child) orderBy
  | .limit child n => .limit (pruneColumns required child) n
  | .insert table targetColumns child => .insert table targetColumns (pruneColumns [] child)
  | .update table assignments child recheck =>
    let columns := (List.range table.schema.columns.length).map (fun c => (⟨table.tableId, c⟩ : ColumnBinding))
    .update table assignments (pruneColumns (columns ++ assignments.flatMap (·.expression.bindings)) child) recheck
  | .delete table child recheck =>
    let columns := (List.range table.schema.columns.length).map (fun c => (⟨table.tableId, c⟩ : ColumnBinding))
    .delete table (pruneColumns columns child) recheck

/-- The loop of `RuleOptimizer.rewrite`. -/
def rewritePasses : Nat → LogicalPlan → Result LogicalPlan
  | 0, _           => raise .runtimeError "logical rewrites did not converge"
  | n + 1, current => do
    let rewritten ← rewriteBottomUp A current
    if rewritten = current then .ok (pruneColumns [] rewritten) else rewritePasses n rewritten

def rewrite (plan : LogicalPlan) : Result LogicalPlan := rewritePasses A maxRewritePasses plan

end Rules
end MiniPostgres
