import MiniPostgres.Rules
/-!
# JoinOrder — physical plans and the order of joins

`planner/physical.py`, `Planner.physical`, `planner/memo.py` and the joins of `planner/optimizer.py`.  Estimated rows and costs
are floats that only decide which alternative is kept: they are a parameter (`Costing`), together with the plans of the leaves.
-/
namespace MiniPostgres

inductive ModifyOperation
  | insert | update | delete
  deriving DecidableEq, Repr

/-- The physical operators, without their estimates. -/
inductive PhysicalPlan
  | values (rows : List (List BoundExpr))
  | seqScan (table : BoundTable)
  | indexScan (table : BoundTable) (indexId : Nat) (predicate : Option BoundExpr) (lowerKey upperKey : Option Key)
  | filter (child : PhysicalPlan) (predicate : BoundExpr)
  | project (child : PhysicalPlan) (items : List BoundSelectItem)
  | nestedLoopJoin (left right : PhysicalPlan) (condition : BoundExpr)
  | hashJoin (left right : PhysicalPlan) (leftKey rightKey : BoundExpr) (condition : BoundExpr)
  | aggregate (child : PhysicalPlan) (groupBy aggregates : List BoundExpr)
  | sort (child : PhysicalPlan) (orderBy : List BoundOrderItem)
  | limit (child : PhysicalPlan) (limit : Nat)
  | modifyTable (operation : ModifyOperation) (table : BoundTable) (child : PhysicalPlan) (targetColumns : List Nat)
      (assignments : List BoundAssignment) (recheckPredicate : Option BoundExpr)
  deriving DecidableEq

/-! ## The plan as it is written -/

namespace Planner

/-- `_hash_join_keys` of `planner/planner.py`: the operands of an equality of columns of two tables, in written order. -/
def hashJoinKeys : BoundExpr → Option (BoundExpr × BoundExpr)
  | .binary (.column b m d n) .eq (.column b' m' d' n') _ _ =>
    if b.tableId ≠ b'.tableId then some (.column b m d n, .column b' m' d' n') else none
  | _ => none

def physical : LogicalPlan → PhysicalPlan
  | .values rows                       => .values rows
  | .scan table _                      => .seqScan table
  | .filter child predicate            => .filter (physical child) predicate
  | .project child items               => .project (physical child) items
  | .join left right condition         =>
    match hashJoinKeys condition with
    | some (leftKey, rightKey) => .hashJoin (physical left) (physical right) leftKey rightKey condition
    | none                     => .nestedLoopJoin (physical left) (physical right) condition
  | .aggregate child groupBy aggregates => .aggregate (physical child) groupBy aggregates
  | .sort child orderBy                => .sort (physical child) orderBy
  | .limit child n                     => .limit (physical child) n
  | .insert table columns child        => .modifyTable .insert table (physical child) columns [] none
  | .update table assignments child p  => .modifyTable .update table (physical child) [] assignments p
  | .delete table child p              => .modifyTable .delete table (physical child) [] [] p

end Planner

structure Alternative (R C : Type) where
  plan : PhysicalPlan
  rows : R
  cost : C

/-- The best plan for a set of relations, and the predicates that its joins evaluate. -/
structure MemoAlternative (R C : Type) where
  relationIds        : Finset Nat
  plan               : PhysicalPlan
  rows               : R
  cost               : C
  consumedPredicates : Finset Nat

/-- `_optimize` for the leaves of a join, the selectivity estimates and the cost model. -/
structure Costing (R C : Type) where
  optimize   : LogicalPlan → Result (Alternative R C)
  joinRows   : R → R → BoundExpr → Result R
  nestedCost : Alternative R C → Alternative R C → Result C
  hashCost   : Alternative R C → Alternative R C → Result C
  fewer      : R → R → Bool
  cheaper    : C → C → Bool
  /-- `tie_breaker <` -/
  before     : MemoAlternative R C → MemoAlternative R C → Bool

namespace CostBased

/-! ## Joins of a logical plan -/

/-- `_flatten_joins`: the leaves and the conditions of a join tree. -/
def flattenJoins : LogicalPlan → List LogicalPlan × List BoundExpr
  | .join left right condition =>
    ((flattenJoins left).1 ++ (flattenJoins right).1, (flattenJoins left).2 ++ (flattenJoins right).2 ++ [condition])
  | plan                       => ([plan], [])

def logicalRelationIds : LogicalPlan → List Nat
  | .scan table _         => [table.tableId]
  | .join left right _    => logicalRelationIds left ++ logicalRelationIds right
  | .filter child _       => logicalRelationIds child
  | .project child _      => logicalRelationIds child
  | .aggregate child _ _  => logicalRelationIds child
  | .sort child _         => logicalRelationIds child
  | .limit child _        => logicalRelationIds child
  | .insert _ _ child     => logicalRelationIds child
  | .update _ _ child _   => logicalRelationIds child
  | .delete _ child _     => logicalRelationIds child
  | .values _             => []

def singleRelationId (plan : LogicalPlan) : Option Nat :=
  match (logicalRelationIds plan).dedup with
  | [id] => some id
  | _    => none

def bindingTableIds (e : BoundExpr) : Finset Nat := (e.bindings.map (·.tableId)).toFinset

/-! ## Join alternatives -/

def hashJoinKeys (condition : BoundExpr) : Option (BoundExpr × BoundExpr) :=
  (Rules.conjuncts condition).findSome? (fun conjunct =>
    match conjunct with
    | .binary (.column b m d n) .eq (.column b' m' d' n') _ _ =>
      if b.tableId ≠ b'.tableId then some (.column b m d n, .column b' m' d' n') else none
    | _ => none)

variable {R C : Type} (K : Costing R C)

/-- `_join_alternatives`: the cheaper of a nested loop and, when the condition has an equality of columns, a hash join. -/
def joinAlternatives (left right : Alternative R C) (condition : BoundExpr) : Result (Alternative R C) := do
  let rows ← K.joinRows left.rows right.rows condition
  let nestedCost ← K.nestedCost left right
  match hashJoinKeys condition with
  | none                     => .ok ⟨.nestedLoopJoin left.plan right.plan condition, rows, nestedCost⟩
  | some (leftKey, rightKey) => do
    let hashCost ← K.hashCost left right
    if K.cheaper hashCost nestedCost then
      if K.fewer left.rows right.rows then .ok ⟨.hashJoin right.plan left.plan rightKey leftKey condition, rows, hashCost⟩
      else .ok ⟨.hashJoin left.plan right.plan leftKey rightKey condition, rows, hashCost⟩
    else .ok ⟨.nestedLoopJoin left.plan right.plan condition, rows, nestedCost⟩

/-! ## Enumeration -/

/-- `JoinMemo`: at most one alternative for each set of relations. -/
abbrev JoinMemo (R C : Type) := Finset Nat → Option (MemoAlternative R C)

def consider (memo : JoinMemo R C) (alternative : MemoAlternative R C) : JoinMemo R C :=
  match memo alternative.relationIds with
  | none         => Function.update memo alternative.relationIds (some alternative)
  | some current =>
    if K.before alternative current then Function.update memo alternative.relationIds (some alternative) else memo

/-- The predicates that a join of two sets of relations can evaluate, with their positions. -/
def connecting (predicates : List BoundExpr) (consumed relationSet leftIds rightIds : Finset Nat) : List (BoundExpr × Nat) :=
  predicates.zipIdx.filter (fun p => decide (p.2 ∉ consumed ∧ (bindingTableIds p.1).Nonempty ∧ bindingTableIds p.1 ⊆ relationSet ∧
    (bindingTableIds p.1 ∩ leftIds).Nonempty ∧ (bindingTableIds p.1 ∩ rightIds).Nonempty))

def considerPartition (predicates : List BoundExpr) (relationSet leftIds rightIds : Finset Nat) (memo : JoinMemo R C) :
    Result (JoinMemo R C) :=
  match memo leftIds, memo rightIds with
  | some left, some right =>
    match connecting predicates (left.consumedPredicates ∪ right.consumedPredicates) relationSet leftIds rightIds with
    | []      => .ok memo
    | p :: ps => do
      let joined ← joinAlternatives K ⟨left.plan, left.rows, left.cost⟩ ⟨right.plan, right.rows, right.cost⟩
        (Rules.combine p.1 (ps.map (·.1)))
      .ok (consider K memo ⟨relationSet, joined.plan, joined.rows, joined.cost,
        left.consumedPredicates ∪ right.consumedPredicates ∪ ((p :: ps).map (·.2)).toFinset⟩)
  | _, _ => .ok memo

def idsForMask (ids : List Nat) (mask : Nat) : Finset Nat :=
  ((ids.zipIdx.filter (fun p => mask.testBit p.2)).map (·.1)).toFinset

/-- The values of `left_mask`, from the given one on. -/
def leftMasks (mask : Nat) : Nat → List Nat
  | 0        => []
  | left + 1 => (left + 1) :: leftMasks mask (left &&& mask)
  termination_by left => left
  decreasing_by exact Nat.lt_succ_of_le Nat.and_le_left

/-- `mask & -mask`. -/
def firstBit (mask : Nat) : Nat := mask - (mask &&& (mask - 1))

/-- The partitions of a set of relations that are considered: the left part has the first relation. -/
def partitions (mask : Nat) : List (Nat × Nat) :=
  ((leftMasks mask ((mask - 1) &&& mask)).filter (fun left => left &&& firstBit mask ≠ 0 ∧ mask ^^^ left ≠ 0)).map
    (fun left => (mask, left))

/-- The loops of `_join_dp`: the sets with their partitions, smaller sets first. -/
def schedule (n : Nat) : List (Nat × Nat) :=
  (List.range' 2 (n - 1)).flatMap (fun size =>
    ((List.range' 1 (2 ^ n - 1)).filter (fun mask => (List.range n).countP mask.testBit = size)).flatMap partitions)

/-- The leaves, each with its best plan. -/
def leafMemo : List (Nat × LogicalPlan) → JoinMemo R C → Result (JoinMemo R C)
  | [], memo               => .ok memo
  | (id, leaf) :: rs, memo => do
    let alternative ← K.optimize leaf
    leafMemo rs (consider K memo ⟨{id}, alternative.plan, alternative.rows, alternative.cost, ∅⟩)

def enumerate (predicates : List BoundExpr) (ids : List Nat) : List (Nat × Nat) → JoinMemo R C → Result (JoinMemo R C)
  | [], memo                => .ok memo
  | (mask, left) :: ps, memo => do
    let memo ← considerPartition K predicates (idsForMask ids mask) (idsForMask ids left) (idsForMask ids (mask ^^^ left)) memo
    enumerate predicates ids ps memo

def joinDp (leaves : List LogicalPlan) (predicates : List BoundExpr) : Result (Option (Alternative R C)) :=
  match leaves.mapM singleRelationId with
  | none     => .ok none
  | some ids =>
    if ids.Nodup then do
      let memo ← leafMemo K (ids.zip leaves) (fun _ => none)
      let memo ← enumerate K predicates ids (schedule ids.length) memo
      match memo ids.toFinset with
      | none       => .ok none
      | some final => .ok (some ⟨final.plan, final.rows, final.cost⟩)
    else .ok none

end CostBased
end MiniPostgres
