import MiniPostgres.JoinOrder
import MiniPostgres.Folding
import MiniPostgres.Lib.Joins
/-!
# Reordering — a reordered join evaluates every condition once

The trees that the enumeration builds.  Every join node consumes at least one condition, no condition is consumed twice, and a
tree over `n` leaves has `n - 1` nodes for `n - 1` conditions: a tree over all leaves leaves none out.  Its rows are those of the
joins in source order.
-/
namespace MiniPostgres

open ExecutionRow (Plain)
open Operators (joined joinedAll kept)

/-! ## Join trees -/

/-- The joins of a plan, with the conditions that each of them evaluates. -/
inductive JoinTree
  | leaf (plan : LogicalPlan)
  | node (left right : JoinTree) (first : BoundExpr) (rest : List BoundExpr)

namespace JoinTree

def leaves : JoinTree → List LogicalPlan
  | leaf p       => [p]
  | node l r _ _ => leaves l ++ leaves r

def conditions : JoinTree → List BoundExpr
  | leaf _              => []
  | node l r first rest => conditions l ++ conditions r ++ first :: rest

/-- The joins of a logical plan, in source order. -/
def ofLogical : LogicalPlan → JoinTree
  | .join left right condition => node (ofLogical left) (ofLogical right) condition []
  | plan                       => leaf plan

/-- At each node the tables that its conditions read are below it. -/
def Scoped : JoinTree → Prop
  | leaf _              => True
  | node l r first rest => Scoped l ∧ Scoped r ∧ ∀ c ∈ first :: rest, ∀ b ∈ c.bindings,
      b.tableId ∈ (leaves l ++ leaves r).flatMap CostBased.logicalRelationIds

/-- The rows of a tree, with its conditions as filters over pairs of rows. -/
def rows (A : FloatArith) (leafRows : LogicalPlan → List ExecutionRow) : JoinTree → Result (List ExecutionRow)
  | leaf p              => .ok (leafRows p)
  | node l r first rest => do
    let lefts ← rows A leafRows l
    let rights ← rows A leafRows r
    ((Pull.ofList lefts).bind (joinedAll A (Rules.combine first rest) rights)).drain

end JoinTree

/-- The physical plan is the join tree, with a nested loop or a hash join at each node. -/
inductive Renders {R C : Type} (K : Costing R C) : JoinTree → PhysicalPlan → Prop
  | leaf {p : LogicalPlan} {a : Alternative R C} : K.optimize p = .ok a → Renders K (.leaf p) a.plan
  | nestedLoop {l r : JoinTree} {left right : PhysicalPlan} {first : BoundExpr} {rest : List BoundExpr} :
      Renders K l left → Renders K r right →
      Renders K (.node l r first rest) (.nestedLoopJoin left right (Rules.combine first rest))
  | hash {l r : JoinTree} {left right : PhysicalPlan} {first : BoundExpr} {rest : List BoundExpr} {leftKey rightKey : BoundExpr} :
      Renders K l left → Renders K r right →
      Renders K (.node l r first rest) (.hashJoin left right leftKey rightKey (Rules.combine first rest))

/-! ## Rows as maps -/

/-- A row has scalars under its columns and TIDs under its tables. -/
def RowValue : ColumnBinding ⊕ Nat → Type
  | .inl _ => Scalar
  | .inr _ => TID

namespace ExecutionRow

/-- The row as a map; two rows of one map are equal as Python values. -/
def asMap (row : ExecutionRow) : PartialRow RowValue
  | .inl b => row.cells.lookup b
  | .inr t => row.tids.lookup t

/-- A row of one relation, without computed values. -/
structure OfRelation (id : Nat) (row : ExecutionRow) : Prop where
  cells : ∀ c ∈ row.cells, c.1.tableId = id
  tids  : ∀ t ∈ row.tids, t.1 = id
  plain : Plain row

theorem asMap_append (a b : ExecutionRow) :
    asMap ⟨a.cells ++ b.cells, a.tids ++ b.tids, a.computed ++ b.computed⟩ = PartialRow.merge a.asMap b.asMap := by
  funext i
  cases i with
  | inl c => exact List.lookup_append
  | inr t => exact List.lookup_append

theorem merge_ok {a b m : ExecutionRow} (h : a.merge b = .ok m) :
    m = ⟨a.cells ++ b.cells, a.tids ++ b.tids, a.computed ++ b.computed⟩ := by
  unfold merge at h
  split at h
  · exact absurd h raise_ne_ok
  · split at h
    · exact absurd h raise_ne_ok
    · split at h
      · exact absurd h raise_ne_ok
      · cases h; rfl

end ExecutionRow

open ExecutionRow (asMap)

section Conditions

variable {A : FloatArith}

theorem bindings_of_evaluate : ∀ {e : BoundExpr} {row : ExecutionRow} {v : Scalar}, Plain row → evaluate A e row = .ok v →
    ∀ b ∈ e.bindings, row.cells.lookup b ≠ none
  | .literal _ _ _, _, _, _, _, b, hb => by cases hb
  | .column c m d n, row, v, h, he, b, hb => by
    rw [List.mem_singleton.1 hb]
    simp only [evaluate, h.found] at he
    split at he
    · rename_i w hw
      rw [hw]
      simp
    · exact absurd he raise_ne_ok
  | .cast o d n, row, v, h, he, b, hb => by
    simp only [evaluate, h.found] at he
    obtain ⟨w, hw, -⟩ := bind_eq_ok.1 he
    exact bindings_of_evaluate (e := o) h hw b hb
  | .unary p o d n, row, v, h, he, b, hb => by
    simp only [evaluate, h.found] at he
    obtain ⟨w, hw, -⟩ := bind_eq_ok.1 he
    exact bindings_of_evaluate (e := o) h hw b hb
  | .binary l p r d n, row, v, h, he, b, hb => by
    simp only [evaluate, h.found] at he
    obtain ⟨w, hw, he⟩ := bind_eq_ok.1 he
    obtain ⟨x, hx, -⟩ := bind_eq_ok.1 he
    rcases List.mem_append.1 hb with hb | hb
    · exact bindings_of_evaluate (e := l) h hw b hb
    · exact bindings_of_evaluate (e := r) h hx b hb
  | .isNull o g, row, v, h, he, b, hb => by
    simp only [evaluate, h.found] at he
    obtain ⟨w, hw, -⟩ := bind_eq_ok.1 he
    exact bindings_of_evaluate (e := o) h hw b hb
  | .function f a d n, row, v, h, he, b, hb => by
    simp only [evaluate, h.found] at he
    exact absurd he raise_ne_ok
  | .countStar, _, _, _, _, b, hb => by cases hb

def readCells (f : ColumnBinding → Option Scalar) (bs : List ColumnBinding) : List (ColumnBinding × Scalar) :=
  bs.filterMap (fun b => (f b).map (fun v => (b, v)))

theorem lookup_readCells {f : ColumnBinding → Option Scalar} : ∀ {bs : List ColumnBinding} {b : ColumnBinding}, b ∈ bs →
    (readCells f bs).lookup b = f b
  | c :: bs, b, hb => by
    unfold readCells
    by_cases hcb : b = c
    · subst hcb
      cases hm : f b with
      | some v => simp [hm]
      | none =>
        rw [List.filterMap_cons_none (by rw [hm]; rfl), List.lookup_eq_none_iff]
        rintro ⟨x, v⟩ hx
        obtain ⟨c, -, hc⟩ := List.mem_filterMap.1 hx
        obtain ⟨w, hw, hc⟩ := Option.map_eq_some_iff.1 hc
        cases hc
        refine bne_iff_ne.2 (fun (hxb : b = x) => ?_)
        subst hxb
        rw [hm] at hw
        cases hw
    · have hb : b ∈ bs := (List.mem_cons.1 hb).resolve_left hcb
      cases hm : f c with
      | some v =>
        rw [List.filterMap_cons_some (by rw [hm]; rfl), List.lookup_cons, beq_false_of_ne hcb]
        exact lookup_readCells hb
      | none =>
        rw [List.filterMap_cons_none (by rw [hm]; rfl)]
        exact lookup_readCells hb

/-- The cell of a map. -/
def cellAt (m : PartialRow RowValue) (b : ColumnBinding) : Option Scalar := m (.inl b)

/-- What an expression reads of a map. -/
def readRow (e : BoundExpr) (m : PartialRow RowValue) : ExecutionRow := ⟨readCells (cellAt m) e.bindings, [], []⟩

theorem plain_readRow (e : BoundExpr) (m : PartialRow RowValue) : Plain (readRow e m) := rfl

/-- Whether a condition is TRUE on a map. -/
def holdsOn (A : FloatArith) (e : BoundExpr) (m : PartialRow RowValue) : Option Bool :=
  match evaluate A e (readRow e m) with
  | .ok v    => some (decide (v = .bool true))
  | .error _ => none

theorem evaluate_readRow {e : BoundExpr} {row : ExecutionRow} (h : Plain row) :
    evaluate A e row = evaluate A e (readRow e row.asMap) :=
  evaluate_congr h (plain_readRow e _) (fun _ hb => (lookup_readCells (f := cellAt row.asMap) hb).symm)

theorem holdsOn_asMap {e : BoundExpr} {row : ExecutionRow} (h : Plain row) {v : Scalar} (he : evaluate A e row = .ok v) :
    holdsOn A e row.asMap = some (decide (v = .bool true)) := by
  unfold holdsOn
  rw [← evaluate_readRow h, he]

theorem persistent_holdsOn : JoinShape.Persistent (holdsOn A) := by
  intro c a b v hv hab
  unfold holdsOn at hv ⊢
  cases he : evaluate A c (readRow c a) with
  | error e =>
    rw [he] at hv
    cases hv
  | ok w =>
    have hread : readRow c b = readRow c a := by
      unfold readRow readCells
      rw [List.filterMap_congr (fun x hx => ?_)]
      have hne : (readRow c a).cells.lookup x ≠ none := bindings_of_evaluate (plain_readRow c a) he x hx
      have hsome : a (.inl x) ≠ none := fun hn => hne ((lookup_readCells (f := cellAt a) hx).trans hn)
      rw [show cellAt b x = cellAt a x from hab _ hsome]
    rw [hread]
    exact hv

theorem sqlAnd_eq_true {x y w : Scalar} (h : sqlAnd x y = .ok w) : w = .bool true ↔ x = .bool true ∧ y = .bool true := by
  obtain ⟨p, hp, h⟩ := bind_eq_ok.1 h
  obtain ⟨q, hq, h⟩ := bind_eq_ok.1 h
  cases h
  have hbool : ∀ {z : Scalar} {r : Option Bool}, requireSqlBool z = .ok r → (z = .bool true ↔ r = some true) := by
    intro z r hz
    cases z with
    | null => cases hz; simp
    | bool b => cases hz; simp
    | int _ | float _ | text _ => exact absurd hz raise_ne_ok
  rw [hbool hp, hbool hq]
  cases p with
  | none => cases q with
    | none => decide
    | some q => cases q <;> decide
  | some p => cases q with
    | none => cases p <;> decide
    | some q => cases p <;> cases q <;> decide

theorem evaluate_combine {row : ExecutionRow} (h : Plain row) : ∀ {rest : List BoundExpr} {first : BoundExpr} {v : Scalar},
    evaluate A (Rules.combine first rest) row = .ok v → (∀ c ∈ first :: rest, ∃ w, evaluate A c row = .ok w) ∧
      (v = .bool true ↔ ∀ c ∈ first :: rest, evaluate A c row = .ok (.bool true))
  | [], first, v, he => by
    have he : evaluate A first row = .ok v := he
    simp [he]
  | c :: rest, first, v, he => by
    have he : evaluate A (Rules.combine (Rules.conjoin first c) rest) row = .ok v := he
    obtain ⟨hval, hiff⟩ := evaluate_combine h he
    rw [List.forall_mem_cons] at hval hiff
    obtain ⟨w, hconj⟩ := hval.1
    rw [hconj] at hiff
    simp only [Rules.conjoin, evaluate, h.found] at hconj
    obtain ⟨x, hx, hconj⟩ := bind_eq_ok.1 hconj
    obtain ⟨y, hy, hconj⟩ := bind_eq_ok.1 hconj
    have hw : w = .bool true ↔ x = .bool true ∧ y = .bool true := sqlAnd_eq_true hconj
    refine ⟨List.forall_mem_cons.2 ⟨⟨x, hx⟩, List.forall_mem_cons.2 ⟨⟨y, hy⟩, hval.2⟩⟩, ?_⟩
    simp only [List.forall_mem_cons, hx, hy, Except.ok.injEq, hiff, hw, and_assoc]

end Conditions

/-! ## Rows of a tree -/

namespace JoinTree

variable {A : FloatArith} {leafRows : LogicalPlan → List ExecutionRow}

def shape (leafRows : LogicalPlan → List ExecutionRow) : JoinTree → JoinShape RowValue BoundExpr
  | leaf p              => .leaf ((leafRows p).map asMap : List _)
  | node l r first rest => .node (shape leafRows l) (shape leafRows r) (first :: rest)

theorem shape_leaves : ∀ (t : JoinTree),
    (t.shape leafRows).leaves = t.leaves.map (fun p => (((leafRows p).map asMap : List _) : Multiset _))
  | leaf p              => rfl
  | node l r first rest => by
    rw [shape, JoinShape.leaves, shape_leaves l, shape_leaves r, leaves, List.map_append]

theorem shape_conditions : ∀ (t : JoinTree), (t.shape leafRows).conditions = t.conditions
  | leaf p              => rfl
  | node l r first rest => by
    rw [shape, JoinShape.conditions, shape_conditions l, shape_conditions r]
    rfl

theorem joined_ok {condition : BoundExpr} {a b : ExecutionRow} (h : (joined A condition a b).failure = none) :
    ∃ m v, a.merge b = .ok m ∧ evaluate A condition m = .ok v ∧
      (joined A condition a b).items = if v = .bool true then [m] else [] := by
  unfold joined at h ⊢
  cases hm : a.merge b with
  | error e => rw [hm] at h; cases h
  | ok m =>
    rw [hm] at h
    simp only [kept] at h ⊢
    cases hv : evaluate A condition m with
    | error e => rw [hv] at h; cases h
    | ok v => exact ⟨m, v, rfl, hv, rfl⟩

theorem plain_merge {a b m : ExecutionRow} (ha : Plain a) (hb : Plain b) (h : a.merge b = .ok m) : Plain m := by
  rw [ExecutionRow.merge_ok h]
  unfold Plain at ha hb ⊢
  simp only [ha, hb, List.append_nil]

/-- A pair of rows, as rows and as maps: what the conditions of a node make of it. -/
theorem joined_pair {first : BoundExpr} {rest : List BoundExpr} {a b : ExecutionRow} (ha : Plain a) (hb : Plain b)
    (h : (joined A (Rules.combine first rest) a b).failure = none) : ∃ m, Plain m ∧ PartialRow.merge a.asMap b.asMap = m.asMap ∧
      (∀ c ∈ first :: rest, holdsOn A c m.asMap ≠ none) ∧ (joined A (Rules.combine first rest) a b).items =
        if ∀ c ∈ first :: rest, holdsOn A c m.asMap = some true then [m] else [] := by
  obtain ⟨m, v, hm, hv, hit⟩ := joined_ok h
  have hplain := plain_merge ha hb hm
  obtain ⟨hval, hiff⟩ := evaluate_combine hplain hv
  have hholds : ∀ c ∈ first :: rest, (evaluate A c m = .ok (.bool true) ↔ holdsOn A c m.asMap = some true) := by
    intro c hc
    obtain ⟨w, hw⟩ := hval c hc
    rw [holdsOn_asMap hplain hw, hw]
    simp
  refine ⟨m, hplain, ?_, fun c hc => ?_, ?_⟩
  · rw [ExecutionRow.merge_ok hm, ExecutionRow.asMap_append]
  · obtain ⟨w, hw⟩ := hval c hc
    rw [holdsOn_asMap hplain hw]
    simp
  · rw [hit, if_congr (hiff.trans (forall₂_congr hholds)) rfl rfl]

theorem joinedAll_ok {condition : BoundExpr} {lefts rights xs : List ExecutionRow}
    (h : ((Pull.ofList lefts).bind (joinedAll A condition rights)).drain = .ok xs) :
    (∀ a ∈ lefts, ∀ b ∈ rights, (joined A condition a b).failure = none) ∧
      xs = lefts.flatMap (fun a => rights.flatMap (fun b => (joined A condition a b).items)) := by
  rw [Pull.drain_eq_ok] at h
  have hall : ∀ a ∈ lefts, (joinedAll A condition rights a).failure = none :=
    (Pull.bind_failure (p := Pull.ofList lefts).1 (by rw [h])).2
  have hpair : ∀ a ∈ lefts, ∀ b ∈ rights, (joined A condition a b).failure = none :=
    fun a ha => (Pull.bind_failure (p := Pull.ofList rights).1 (hall a ha)).2
  refine ⟨hpair, ?_⟩
  have hitems : ((Pull.ofList lefts).bind (joinedAll A condition rights)).items = xs := by rw [h]
  rw [← hitems, Pull.bind_items hall]
  refine List.flatMap_congr (fun a ha => ?_)
  exact Pull.bind_items (p := Pull.ofList rights) (hpair a ha)

theorem filter_map_eq {α β γ : Type} {p : β → Prop} [DecidablePred p] {f : α → β} {g : α → List γ} {h : γ → β} :
    ∀ {xs : List α}, (∀ x ∈ xs, (g x).map h = if p (f x) then [f x] else []) → (xs.map f).filter p = (xs.flatMap g).map h
  | [], _ => rfl
  | x :: xs, hx => by
    rw [List.map_cons, List.flatMap_cons, List.map_append, hx x List.mem_cons_self,
      ← filter_map_eq (fun y hy => hx y (List.mem_cons_of_mem _ hy)), List.filter_cons]
    by_cases hp : p (f x)
    · simp [hp]
    · simp [hp]

/-- **The rows of a tree are the rows of its shape**, when no condition fails. -/
theorem rows_shape : ∀ {t : JoinTree} {xs : List ExecutionRow}, (∀ p ∈ t.leaves, ∀ row ∈ leafRows p, Plain row) →
    t.rows A leafRows = .ok xs → (∀ x ∈ xs, Plain x) ∧ (t.shape leafRows).Defined (holdsOn A) ∧
      (t.shape leafRows).rows (holdsOn A) = (xs.map asMap : List _)
  | leaf p, xs, hp, h => by
    cases h
    exact ⟨hp p (List.mem_singleton_self p), trivial, rfl⟩
  | node l r first rest, xs, hp, h => by
    obtain ⟨lefts, hl, h⟩ := bind_eq_ok.1 h
    obtain ⟨rights, hr, h⟩ := bind_eq_ok.1 h
    obtain ⟨hpl, hdl, hrl⟩ := rows_shape (fun p h => hp p (List.mem_append_left _ h)) hl
    obtain ⟨hpr, hdr, hrr⟩ := rows_shape (fun p h => hp p (List.mem_append_right _ h)) hr
    obtain ⟨hfail, rfl⟩ := joinedAll_ok h
    have hpair := fun a ha b hb => joined_pair (hpl a ha) (hpr b hb) (hfail a ha b hb)
    refine ⟨fun x hx => ?_, ⟨hdl, hdr, fun a ha => ?_⟩, ?_⟩
    · obtain ⟨a, ha, hx⟩ := List.mem_flatMap.1 hx
      obtain ⟨b, hb, hx⟩ := List.mem_flatMap.1 hx
      obtain ⟨m, hplain, -, -, hit⟩ := hpair a ha b hb
      rw [hit] at hx
      split at hx
      · rw [List.mem_singleton.1 hx]; exact hplain
      · cases hx
    · rw [hrl, hrr] at ha
      obtain ⟨x, hx, y, hy, rfl⟩ := Rows.mem_mul.1 ha
      obtain ⟨a, hal, rfl⟩ := List.mem_map.1 (Multiset.mem_coe.1 hx)
      obtain ⟨b, hbr, rfl⟩ := List.mem_map.1 (Multiset.mem_coe.1 hy)
      obtain ⟨m, -, hmerge, hdef, -⟩ := hpair a hal b hbr
      rw [hmerge]
      exact hdef
    · show (Rows.mul ((l.shape leafRows).rows (holdsOn A)) ((r.shape leafRows).rows (holdsOn A))).filter _ = _
      rw [hrl, hrr]
      have hmul : Rows.mul ((lefts.map asMap : List _) : Multiset (PartialRow RowValue)) (rights.map asMap : List _) =
          ((lefts.flatMap (fun a => rights.map (fun b => PartialRow.merge a.asMap b.asMap)) : List _) : Multiset _) := by
        unfold Rows.mul
        simp only [Multiset.map_coe, List.map_map, Multiset.coe_bind, List.flatMap_map]
        rfl
      rw [hmul, Multiset.filter_coe, List.filter_flatMap, List.map_flatMap]
      refine congrArg _ (List.flatMap_congr (fun a ha => ?_))
      refine filter_map_eq (fun b hb => ?_)
      obtain ⟨m, -, hmerge, -, hit⟩ := hpair a ha b hb
      rw [hmerge, hit]
      split <;> rfl

/-- **Trees with the same leaves and conditions have the same rows.** -/
theorem rows_perm {t t' : JoinTree} (hl : t.leaves.Perm t'.leaves) (hc : t.conditions.Perm t'.conditions)
    (hplain : ∀ p ∈ t.leaves, ∀ row ∈ leafRows p, Plain row)
    (hapart : t.leaves.Pairwise (fun p q => ∀ a ∈ leafRows p, ∀ b ∈ leafRows q, PartialRow.Separate a.asMap b.asMap))
    {xs ys : List ExecutionRow} (hx : t.rows A leafRows = .ok xs) (hy : t'.rows A leafRows = .ok ys) :
    (xs.map asMap).Perm (ys.map asMap) := by
  obtain ⟨-, hdx, hrx⟩ := rows_shape hplain hx
  obtain ⟨-, hdy, hry⟩ := rows_shape (fun p h => hplain p (hl.mem_iff.2 h)) hy
  have hpair : (t.shape leafRows).leaves.Pairwise Rows.Apart := by
    rw [shape_leaves, List.pairwise_map]
    refine hapart.imp (fun h a ha b hb => ?_)
    obtain ⟨x, hx, rfl⟩ := List.mem_map.1 (Multiset.mem_coe.1 ha)
    obtain ⟨y, hy, rfl⟩ := List.mem_map.1 (Multiset.mem_coe.1 hb)
    exact h x hx y hy
  have heq := @JoinShape.rows_eq_of_perm _ _ _ _ (persistent_holdsOn (A := A)) (t.shape leafRows) (t'.shape leafRows)
    (by rw [shape_leaves, shape_leaves]; exact hl.map _)
    (by rw [shape_conditions, shape_conditions]; exact hc) hpair hdx hdy
  rw [hrx, hry] at heq
  exact Multiset.coe_eq_coe.1 heq

end JoinTree

/-! ## The enumeration -/

namespace CostBased

variable {R C : Type} {K : Costing R C} {leaves : List LogicalPlan} {predicates : List BoundExpr} {ids : List Nat}

theorem joinAlternatives_ok {left right a : Alternative R C} {condition : BoundExpr}
    (h : joinAlternatives K left right condition = .ok a) : a.plan = .nestedLoopJoin left.plan right.plan condition ∨
      (∃ lk rk, a.plan = .hashJoin left.plan right.plan lk rk condition) ∨
      ∃ lk rk, a.plan = .hashJoin right.plan left.plan lk rk condition := by
  obtain ⟨rows, -, h⟩ := bind_eq_ok.1 h
  obtain ⟨nestedCost, -, h⟩ := bind_eq_ok.1 h
  split at h
  · cases h; exact Or.inl rfl
  · obtain ⟨hashCost, -, h⟩ := bind_eq_ok.1 h
    split at h
    · split at h
      · cases h; exact Or.inr (Or.inr ⟨_, _, rfl⟩)
      · cases h; exact Or.inr (Or.inl ⟨_, _, rfl⟩)
    · cases h; exact Or.inl rfl

/-- The leaves of some relations. -/
def leavesOf (ids : List Nat) (leaves : List LogicalPlan) (S : Finset Nat) : List LogicalPlan :=
  ((ids.zip leaves).filter (fun p => decide (p.1 ∈ S))).map (·.2)

/-- **An alternative for a set of relations**: a tree over their leaves, each of whose nodes consumes predicates that nothing
below it has consumed. -/
structure Planned (K : Costing R C) (leaves : List LogicalPlan) (predicates : List BoundExpr) (ids : List Nat) (S : Finset Nat)
    (e : MemoAlternative R C) : Prop where
  relations : S ⊆ ids.toFinset
  tree : ∃ (t : JoinTree) (consumed : List Nat), Renders K t e.plan ∧ t.leaves.Perm (leavesOf ids leaves S) ∧ t.Scoped ∧
    (t.conditions.map some).Perm (consumed.map (fun k => predicates[k]?)) ∧ consumed.Nodup ∧
    consumed.toFinset = e.consumedPredicates ∧ S.card ≤ consumed.length + 1 ∧
    ∀ k ∈ consumed, ∃ p, predicates[k]? = some p ∧ (bindingTableIds p).Nonempty ∧ bindingTableIds p ⊆ S

/-- Every entry of the memo is an alternative for its set. -/
def Sound (K : Costing R C) (leaves : List LogicalPlan) (predicates : List BoundExpr) (ids : List Nat)
    (memo : JoinMemo R C) : Prop :=
  ∀ S e, memo S = some e → Planned K leaves predicates ids S e

theorem Sound.consider {memo : JoinMemo R C} (h : Sound K leaves predicates ids memo) {a : MemoAlternative R C}
    (ha : Planned K leaves predicates ids a.relationIds a) : Sound K leaves predicates ids (consider K memo a) := by
  have hput : Sound K leaves predicates ids (Function.update memo a.relationIds (some a)) := by
    intro S e he
    by_cases hS : S = a.relationIds
    · subst hS
      rw [Function.update_self] at he
      cases he
      exact ha
    · rw [Function.update_of_ne hS] at he
      exact h S e he
  unfold CostBased.consider
  split
  · exact hput
  · split
    · exact hput
    · exact h

theorem leavesOf_union {S T : Finset Nat} (hd : Disjoint S T) :
    (leavesOf ids leaves S ++ leavesOf ids leaves T).Perm (leavesOf ids leaves (S ∪ T)) := by
  unfold leavesOf
  rw [← List.map_append]
  refine List.Perm.map _ ?_
  induction ids.zip leaves with
  | nil => exact .nil
  | cons p ps ih =>
    simp only [Finset.mem_union] at ih ⊢
    rw [List.filter_cons, List.filter_cons, List.filter_cons]
    by_cases hS : p.1 ∈ S
    · have hT : p.1 ∉ T := Finset.disjoint_left.1 hd hS
      simp only [hS, hT, true_or, decide_true, decide_false, if_true, Bool.false_eq_true, if_false]
      exact ih.cons p
    · by_cases hT : p.1 ∈ T
      · simp only [hS, hT, or_true, decide_true, decide_false, if_true, Bool.false_eq_true, if_false]
        exact (List.perm_middle).trans (ih.cons p)
      · simp only [hS, hT, or_self, decide_false, Bool.false_eq_true, if_false]
        exact ih

theorem mem_connecting {consumed S L T : Finset Nat} {p : BoundExpr × Nat} (h : p ∈ connecting predicates consumed S L T) :
    predicates[p.2]? = some p.1 ∧ p.2 ∉ consumed ∧ (bindingTableIds p.1).Nonempty ∧ bindingTableIds p.1 ⊆ S := by
  obtain ⟨hm, hp⟩ := List.mem_filter.1 h
  obtain ⟨hc, hn, hs, -⟩ := of_decide_eq_true hp
  exact ⟨List.mem_zipIdx_iff_getElem?.1 hm, hc, hn, hs⟩

theorem nodup_connecting {consumed S L T : Finset Nat} : ((connecting predicates consumed S L T).map (·.2)).Nodup := by
  have hsub : ((connecting predicates consumed S L T).map (·.2)).Sublist (predicates.zipIdx.map (·.2)) :=
    List.filter_sublist.map _
  refine hsub.nodup ?_
  rw [List.zipIdx_map_snd]
  exact List.nodup_range'

theorem mem_logicalRelationIds {leaf : LogicalPlan} {id : Nat} (h : singleRelationId leaf = some id) :
    id ∈ logicalRelationIds leaf := by
  unfold singleRelationId at h
  split at h
  · rename_i x hx
    cases h
    exact List.mem_dedup.1 (hx ▸ List.mem_singleton_self _)
  · cases h

theorem mem_leavesOf (hids : List.Forall₂ (fun leaf id => singleRelationId leaf = some id) leaves ids) {S : Finset Nat}
    {id : Nat} (hS : id ∈ S) (hid : id ∈ ids) : ∃ leaf ∈ leavesOf ids leaves S, id ∈ logicalRelationIds leaf := by
  induction hids with
  | nil => cases hid
  | @cons leaf x ls xs hx _ ih =>
    unfold leavesOf at ih ⊢
    rw [List.zip_cons_cons, List.filter_cons]
    rcases List.mem_cons.1 hid with rfl | hid
    · exact ⟨leaf, by simp [hS], mem_logicalRelationIds hx⟩
    · obtain ⟨leaf', hmem, hin⟩ := ih hid
      refine ⟨leaf', ?_, hin⟩
      split
      · exact List.mem_cons_of_mem _ hmem
      · exact hmem

section Join

variable {S L T : Finset Nat} {l r : MemoAlternative R C} {p : BoundExpr × Nat} {ps : List (BoundExpr × Nat)}

/-- **A join of two alternatives is an alternative.** -/
theorem planned_join (hids : List.Forall₂ (fun leaf id => singleRelationId leaf = some id) leaves ids) (hd : Disjoint L T)
    (hS : L ∪ T = S) (hl : Planned K leaves predicates ids L l) (hr : Planned K leaves predicates ids T r)
    (hc : connecting predicates (l.consumedPredicates ∪ r.consumedPredicates) S L T = p :: ps) {a : Alternative R C}
    (ha : joinAlternatives K ⟨l.plan, l.rows, l.cost⟩ ⟨r.plan, r.rows, r.cost⟩ (Rules.combine p.1 (ps.map (·.1))) = .ok a) :
    Planned K leaves predicates ids S ⟨S, a.plan, a.rows, a.cost,
      l.consumedPredicates ∪ r.consumedPredicates ∪ ((p :: ps).map (·.2)).toFinset⟩ := by
  obtain ⟨hrelL, tl, cl, hrendL, hleavesL, hscopeL, hcondL, hnodL, hsetL, hcardL, hreadL⟩ := hl
  obtain ⟨hrelR, tr, cr, hrendR, hleavesR, hscopeR, hcondR, hnodR, hsetR, hcardR, hreadR⟩ := hr
  subst hS
  have hrel : L ∪ T ⊆ ids.toFinset := Finset.union_subset hrelL hrelR
  have hnew : ∀ q ∈ p :: ps, predicates[q.2]? = some q.1 ∧ q.2 ∉ l.consumedPredicates ∪ r.consumedPredicates ∧
      (bindingTableIds q.1).Nonempty ∧ bindingTableIds q.1 ⊆ L ∪ T := fun q hq => mem_connecting (hc ▸ hq)
  have hleaves : (tl.leaves ++ tr.leaves).Perm (leavesOf ids leaves (L ∪ T)) :=
    (hleavesL.append hleavesR).trans (leavesOf_union hd)
  have hscope : ∀ c ∈ p.1 :: ps.map (·.1), ∀ b ∈ c.bindings,
      b.tableId ∈ (leavesOf ids leaves (L ∪ T)).flatMap logicalRelationIds := by
    intro c hcm b hb
    obtain ⟨q, hq, rfl⟩ := List.mem_map.1 (show c ∈ (p :: ps).map (·.1) from hcm)
    have hid : b.tableId ∈ L ∪ T := (hnew q hq).2.2.2 (List.mem_toFinset.2 (List.mem_map_of_mem hb))
    obtain ⟨leaf, hleaf, hin⟩ := mem_leavesOf hids hid (List.mem_toFinset.1 (hrel hid))
    exact List.mem_flatMap.2 ⟨leaf, hleaf, hin⟩
  have hnewCond : ((p :: ps).map (·.1)).map some = ((p :: ps).map (·.2)).map (fun k => predicates[k]?) := by
    rw [List.map_map, List.map_map]
    exact List.map_congr_left (fun q hq => ((hnew q hq).1).symm)
  -- either order of the two sides
  have hnode : ∀ {t₁ t₂ : JoinTree}, t₁.Scoped → t₂.Scoped → (t₁.leaves ++ t₂.leaves).Perm (tl.leaves ++ tr.leaves) →
      (t₁.conditions ++ t₂.conditions).Perm (tl.conditions ++ tr.conditions) →
      Renders K (.node t₁ t₂ p.1 (ps.map (·.1))) a.plan → ∃ (t : JoinTree) (consumed : List Nat), Renders K t a.plan ∧
        t.leaves.Perm (leavesOf ids leaves (L ∪ T)) ∧ t.Scoped ∧
        (t.conditions.map some).Perm (consumed.map (fun k => predicates[k]?)) ∧ consumed.Nodup ∧
        consumed.toFinset = l.consumedPredicates ∪ r.consumedPredicates ∪ ((p :: ps).map (·.2)).toFinset ∧
        (L ∪ T).card ≤ consumed.length + 1 ∧
        ∀ k ∈ consumed, ∃ q, predicates[k]? = some q ∧ (bindingTableIds q).Nonempty ∧ bindingTableIds q ⊆ L ∪ T := by
    intro t₁ t₂ hs₁ hs₂ hl hcs hrend
    refine ⟨_, cl ++ cr ++ (p :: ps).map (·.2), hrend, hl.trans hleaves, ⟨hs₁, hs₂, fun c hcm b hb => ?_⟩, ?_, ?_, ?_, ?_, ?_⟩
    · exact ((hl.trans hleaves).flatMap_right _).mem_iff.2 (hscope c hcm b hb)
    · have hold : ((t₁.conditions ++ t₂.conditions).map some).Perm ((cl ++ cr).map (fun k => predicates[k]?)) := by
        refine (hcs.map some).trans ?_
        simp only [List.map_append]
        exact hcondL.append hcondR
      have hall := hold.append (List.Perm.of_eq hnewCond)
      rw [← List.map_append, ← List.map_append] at hall
      exact hall
    · refine List.nodup_append.2 ⟨List.nodup_append.2 ⟨hnodL, hnodR, fun k hk k' hk' he => ?_⟩, hc ▸ nodup_connecting,
        fun k hk k' hk' he => ?_⟩
      · subst he
        obtain ⟨q, hq, ⟨x, hx⟩, hsub⟩ := hreadL k hk
        obtain ⟨q', hq', -, hsub'⟩ := hreadR k hk'
        rw [hq] at hq'
        cases hq'
        exact Finset.disjoint_left.1 hd (hsub hx) (hsub' hx)
      · subst he
        obtain ⟨q, hq, rfl⟩ := List.mem_map.1 hk'
        refine (hnew q hq).2.1 ?_
        rw [← hsetL, ← hsetR, ← List.toFinset_append]
        exact List.mem_toFinset.2 hk
    · rw [List.toFinset_append, List.toFinset_append, hsetL, hsetR]
    · rw [Finset.card_union_of_disjoint hd, List.length_append, List.length_append, List.length_map, List.length_cons]
      omega
    · intro k hk
      rcases List.mem_append.1 hk with hk | hk
      · rcases List.mem_append.1 hk with hk | hk
        · obtain ⟨q, hq, hne, hsub⟩ := hreadL k hk
          exact ⟨q, hq, hne, hsub.trans Finset.subset_union_left⟩
        · obtain ⟨q, hq, hne, hsub⟩ := hreadR k hk
          exact ⟨q, hq, hne, hsub.trans Finset.subset_union_right⟩
      · obtain ⟨q, hq, rfl⟩ := List.mem_map.1 hk
        exact ⟨q.1, (hnew q hq).1, (hnew q hq).2.2⟩
  refine ⟨hrel, ?_⟩
  rcases joinAlternatives_ok ha with hplan | ⟨lk, rk, hplan⟩ | ⟨lk, rk, hplan⟩
  · exact hnode hscopeL hscopeR (.refl _) (.refl _) (hplan ▸ .nestedLoop hrendL hrendR)
  · exact hnode hscopeL hscopeR (.refl _) (.refl _) (hplan ▸ .hash hrendL hrendR)
  · exact hnode hscopeR hscopeL List.perm_append_comm List.perm_append_comm (hplan ▸ .hash hrendR hrendL)

end Join

/-! ### Masks -/

/-- Every bit of one mask is a bit of the other. -/
def Submask (left mask : Nat) : Prop := ∀ i, left.testBit i = true → mask.testBit i = true

theorem submask_and (x mask : Nat) : Submask (x &&& mask) mask := by
  intro i h
  rw [Nat.testBit_and, Bool.and_eq_true] at h
  exact h.2

theorem mem_leftMasks {mask : Nat} : ∀ {start : Nat}, Submask start mask → ∀ left ∈ leftMasks mask start, Submask left mask := by
  intro start
  induction start using leftMasks.induct mask with
  | case1 =>
    intro _ left hl
    rw [leftMasks] at hl
    cases hl
  | case2 start ih =>
    intro hs left hl
    rw [leftMasks] at hl
    rcases List.mem_cons.1 hl with rfl | hl
    · exact hs
    · exact ih (submask_and _ _) left hl

theorem submask_of_mem_schedule {n mask left : Nat} (h : (mask, left) ∈ schedule n) : Submask left mask := by
  obtain ⟨size, -, h⟩ := List.mem_flatMap.1 h
  obtain ⟨m, -, h⟩ := List.mem_flatMap.1 h
  obtain ⟨x, hx, h⟩ := List.mem_map.1 h
  cases h
  exact mem_leftMasks (submask_and _ _) _ (List.mem_filter.1 hx).1

theorem mem_idsForMask {mask id : Nat} : id ∈ idsForMask ids mask ↔ ∃ i, ids[i]? = some id ∧ mask.testBit i = true := by
  unfold idsForMask
  rw [List.mem_toFinset, List.mem_map]
  constructor
  · rintro ⟨⟨x, i⟩, hm, rfl⟩
    obtain ⟨hm, hb⟩ := List.mem_filter.1 hm
    exact ⟨i, List.mem_zipIdx_iff_getElem?.1 hm, hb⟩
  · rintro ⟨i, hi, hb⟩
    exact ⟨(id, i), List.mem_filter.2 ⟨List.mem_zipIdx_iff_getElem?.2 hi, hb⟩, rfl⟩

/-- **A submask and the rest split the relations of a mask.** -/
theorem idsForMask_split (hn : ids.Nodup) {mask left : Nat} (h : Submask left mask) :
    Disjoint (idsForMask ids left) (idsForMask ids (mask ^^^ left)) ∧
      idsForMask ids left ∪ idsForMask ids (mask ^^^ left) = idsForMask ids mask := by
  constructor
  · refine Finset.disjoint_left.2 (fun id hl hr => ?_)
    obtain ⟨i, hi, hbl⟩ := mem_idsForMask.1 hl
    obtain ⟨j, hj, hbr⟩ := mem_idsForMask.1 hr
    have hij : i = j := by
      obtain ⟨hi', hi⟩ := List.getElem?_eq_some_iff.1 hi
      obtain ⟨hj', hj⟩ := List.getElem?_eq_some_iff.1 hj
      exact (hn.getElem_inj_iff).1 (hi.trans hj.symm)
    subst hij
    rw [Nat.testBit_xor, hbl, h i hbl] at hbr
    cases hbr
  · refine Finset.ext (fun id => ?_)
    rw [Finset.mem_union, mem_idsForMask, mem_idsForMask, mem_idsForMask]
    constructor
    · rintro (⟨i, hi, hb⟩ | ⟨i, hi, hb⟩)
      · exact ⟨i, hi, h i hb⟩
      · refine ⟨i, hi, ?_⟩
        rw [Nat.testBit_xor] at hb
        cases hm : mask.testBit i with
        | true => rfl
        | false =>
          cases hl : left.testBit i with
          | true => rw [h i hl] at hm; cases hm
          | false => rw [hm, hl] at hb; cases hb
    · rintro ⟨i, hi, hb⟩
      cases hl : left.testBit i with
      | true => exact Or.inl ⟨i, hi, hl⟩
      | false => exact Or.inr ⟨i, hi, by rw [Nat.testBit_xor, hb, hl]; rfl⟩

/-! ### The loops -/

theorem Sound.considerPartition (hids : List.Forall₂ (fun leaf id => singleRelationId leaf = some id) leaves ids)
    {S L T : Finset Nat} (hd : Disjoint L T) (hS : L ∪ T = S) {memo memo' : JoinMemo R C} (h : Sound K leaves predicates ids memo)
    (hc : considerPartition K predicates S L T memo = .ok memo') : Sound K leaves predicates ids memo' := by
  unfold CostBased.considerPartition at hc
  split at hc
  · rename_i l r hl hr
    split at hc
    · cases hc
      exact h
    · rename_i p ps hcon
      obtain ⟨joined, hj, hc⟩ := bind_eq_ok.1 hc
      cases hc
      exact h.consider (planned_join hids hd hS (h L l hl) (h T r hr) hcon hj)
  · cases hc
    exact h

theorem Sound.enumerate (hids : List.Forall₂ (fun leaf id => singleRelationId leaf = some id) leaves ids) (hn : ids.Nodup) :
    ∀ {ps : List (Nat × Nat)} {memo memo' : JoinMemo R C}, (∀ p ∈ ps, Submask p.2 p.1) → Sound K leaves predicates ids memo →
      enumerate K predicates ids ps memo = .ok memo' → Sound K leaves predicates ids memo'
  | [], _, _, _, h, he => by
    cases he
    exact h
  | (mask, left) :: ps, memo, memo', hps, h, he => by
    obtain ⟨memo₁, h₁, he⟩ := bind_eq_ok.1 he
    obtain ⟨hd, hu⟩ := @idsForMask_split ids hn mask left (hps _ List.mem_cons_self)
    exact Sound.enumerate hids hn (fun p hp => hps p (List.mem_cons_of_mem _ hp)) (h.considerPartition hids hd hu h₁) he

theorem leavesOf_singleton (hn : ids.Nodup) {id : Nat} {leaf : LogicalPlan} (h : (id, leaf) ∈ ids.zip leaves) :
    leavesOf ids leaves {id} = [leaf] := by
  unfold leavesOf
  simp only [Finset.mem_singleton]
  induction ids generalizing leaves with
  | nil => cases h
  | cons x xs ih =>
    cases leaves with
    | nil => cases h
    | cons l ls =>
      rw [List.zip_cons_cons] at h ⊢
      rw [List.nodup_cons] at hn
      have hrest : id = x → (xs.zip ls).filter (fun p => decide (p.1 = id)) = [] := by
        rintro rfl
        refine List.filter_eq_nil_iff.2 (fun p hp => ?_)
        rw [decide_eq_true_eq]
        rintro rfl
        exact hn.1 (List.of_mem_zip hp).1
      rcases List.mem_cons.1 h with heq | h
      · cases heq
        rw [List.filter_cons, hrest rfl]
        simp
      · have hne : x ≠ id := fun he => hn.1 (he ▸ (List.of_mem_zip h).1)
        rw [List.filter_cons, if_neg (by simpa using hne)]
        exact ih hn.2 h

theorem Sound.leafMemo (hn : ids.Nodup) : ∀ {rs : List (Nat × LogicalPlan)} {memo memo' : JoinMemo R C},
    (∀ p ∈ rs, p ∈ ids.zip leaves) → Sound K leaves predicates ids memo → leafMemo K rs memo = .ok memo' →
      Sound K leaves predicates ids memo'
  | [], _, _, _, h, he => by
    cases he
    exact h
  | (id, leaf) :: rs, memo, memo', hrs, h, he => by
    obtain ⟨a, ha, he⟩ := bind_eq_ok.1 he
    have hmem := hrs _ List.mem_cons_self
    refine Sound.leafMemo hn (fun p hp => hrs p (List.mem_cons_of_mem _ hp)) (h.consider ?_) he
    refine ⟨?_, .leaf leaf, [], .leaf ha, ?_, trivial, .nil, List.nodup_nil, rfl, ?_, fun k hk => by cases hk⟩
    · exact Finset.singleton_subset_iff.2 (List.mem_toFinset.2 (List.of_mem_zip hmem).1)
    · rw [leavesOf_singleton hn hmem]
      exact .refl _
    · exact (Finset.card_singleton id).le

/-! ## The plan over all leaves -/

theorem flattenJoins_length : ∀ (plan : LogicalPlan), (flattenJoins plan).1.length = (flattenJoins plan).2.length + 1
  | .join l r c => by
    have hl := flattenJoins_length l
    have hr := flattenJoins_length r
    simp only [flattenJoins, List.length_append, List.length_singleton]
    omega
  | .values _ | .scan _ _ | .filter _ _ | .project _ _ | .aggregate _ _ _ | .sort _ _ | .limit _ _ | .insert _ _ _
  | .update _ _ _ _ | .delete _ _ _ => rfl

theorem flattenJoins_ofLogical : ∀ (plan : LogicalPlan), (JoinTree.ofLogical plan).leaves = (flattenJoins plan).1 ∧
    (JoinTree.ofLogical plan).conditions = (flattenJoins plan).2
  | .join l r c => by
    obtain ⟨hl, hlc⟩ := flattenJoins_ofLogical l
    obtain ⟨hr, hrc⟩ := flattenJoins_ofLogical r
    simp only [JoinTree.ofLogical, JoinTree.leaves, JoinTree.conditions, flattenJoins, hl, hr, hlc, hrc, and_self]
  | .values _ | .scan _ _ | .filter _ _ | .project _ _ | .aggregate _ _ _ | .sort _ _ | .limit _ _ | .insert _ _ _
  | .update _ _ _ _ | .delete _ _ _ => ⟨rfl, rfl⟩

theorem mapM_forall₂ {α β : Type} {f : α → Option β} : ∀ {xs : List α} {ys : List β}, xs.mapM f = some ys →
    List.Forall₂ (fun x y => f x = some y) xs ys
  | [], ys, h => by
    rw [List.mapM_nil] at h
    cases h
    exact .nil
  | x :: xs, ys, h => by
    rw [List.mapM_cons] at h
    obtain ⟨y, hy, h⟩ := Option.bind_eq_some_iff.1 h
    obtain ⟨zs, hzs, h⟩ := Option.bind_eq_some_iff.1 h
    cases h
    exact .cons hy (mapM_forall₂ hzs)

theorem map_range_getElem? {α : Type} (xs : List α) : (List.range xs.length).map (fun k => xs[k]?) = xs.map some := by
  refine List.ext_getElem (by simp) (fun i h₁ h₂ => ?_)
  simp only [List.getElem_map, List.getElem_range]
  exact List.getElem?_eq_getElem (by simpa using h₂)

theorem consumed_all {consumed : List Nat} (hn : consumed.Nodup) (hlt : ∀ k ∈ consumed, k < predicates.length)
    (hlen : predicates.length ≤ consumed.length) : consumed.Perm (List.range predicates.length) := by
  have hsub : consumed.Subperm (List.range predicates.length) :=
    hn.subperm (fun k hk => List.mem_range.2 (hlt k hk))
  exact hsub.perm_of_length_le (by rw [List.length_range]; exact hlen)

theorem leavesOf_all (h : ids.length = leaves.length) : leavesOf ids leaves ids.toFinset = leaves := by
  unfold leavesOf
  rw [List.filter_eq_self.2 (fun p hp => decide_eq_true (List.mem_toFinset.2 (List.of_mem_zip hp).1)),
    List.map_snd_zip (by omega)]

/-- **A plan over all leaves evaluates every predicate**: each of its `n - 1` joins consumes one of the `n - 1` predicates, and
none is consumed twice. -/
theorem joinDp_complete (hlen : leaves.length = predicates.length + 1) {a : Alternative R C}
    (h : joinDp K leaves predicates = .ok (some a)) : ∃ (ids : List Nat) (t : JoinTree), ids.Nodup ∧
      List.Forall₂ (fun leaf id => singleRelationId leaf = some id) leaves ids ∧
      Renders K t a.plan ∧ t.leaves.Perm leaves ∧ t.conditions.Perm predicates ∧ t.Scoped := by
  unfold joinDp at h
  split at h
  · cases h
  · rename_i ids hm
    split at h
    · rename_i hn
      have hids : List.Forall₂ (fun leaf id => singleRelationId leaf = some id) leaves ids := mapM_forall₂ hm
      obtain ⟨memo₁, h₁, h⟩ := bind_eq_ok.1 h
      obtain ⟨memo₂, h₂, h⟩ := bind_eq_ok.1 h
      have hsound : Sound K leaves predicates ids memo₂ :=
        Sound.enumerate hids hn (fun p hp => submask_of_mem_schedule hp)
          (Sound.leafMemo hn (fun p hp => hp) (fun S e he => by cases he) h₁) h₂
      split at h
      · cases h
      · rename_i final hf
        cases h
        obtain ⟨t, consumed, hrend, hleaves, hscoped, hcond, hnod, -, hcard, hread⟩ := (hsound _ final hf).tree
        rw [leavesOf_all hids.length_eq.symm] at hleaves
        rw [List.toFinset_card_of_nodup hn, ← hids.length_eq, hlen] at hcard
        have hall := consumed_all hnod (fun k hk => by
          obtain ⟨p, hp, -⟩ := hread k hk
          exact (List.getElem?_eq_some_iff.1 hp).1) (by omega)
        refine ⟨ids, t, hn, hids, hrend, hleaves, ?_, hscoped⟩
        have hsome : (t.conditions.map some).Perm (predicates.map some) := by
          have := hcond.trans (hall.map _)
          rwa [map_range_getElem?] at this
        have := hsome.filterMap id
        simpa using this
    · cases h

theorem separate_of_relations {id id' : Nat} (hne : id ≠ id') {a b : ExecutionRow} (ha : a.OfRelation id)
    (hb : b.OfRelation id') :
    PartialRow.Separate a.asMap b.asMap := by
  have hkey : ∀ {β γ : Type} [DecidableEq β] {l : List (β × γ)} {k : β}, (∀ c ∈ l, c.1 ≠ k) → l.lookup k = none := by
    intro β γ _ l k h
    rw [List.lookup_eq_none_iff]
    exact fun c hc => bne_iff_ne.2 (h c hc).symm
  intro i
  cases i with
  | inl c =>
    by_cases hc : c.tableId = id
    · exact Or.inr (hkey (fun x hx he => hne (by rw [← hc, ← he, hb.cells x hx])))
    · exact Or.inl (hkey (fun x hx he => hc (by rw [← he, ha.cells x hx])))
  | inr t =>
    by_cases ht : t = id
    · exact Or.inr (hkey (fun x hx he => hne (by rw [← ht, ← he, hb.tids x hx])))
    · exact Or.inl (hkey (fun x hx he => ht (by rw [← he, ha.tids x hx])))

theorem leaves_separate {leafRows : LogicalPlan → List ExecutionRow} (hn : ids.Nodup)
    (hids : List.Forall₂ (fun leaf id => singleRelationId leaf = some id) leaves ids)
    (hrows : ∀ leaf ∈ leaves, ∀ id, singleRelationId leaf = some id → ∀ row ∈ leafRows leaf, row.OfRelation id) :
    leaves.Pairwise (fun p q => ∀ a ∈ leafRows p, ∀ b ∈ leafRows q, PartialRow.Separate a.asMap b.asMap) := by
  induction hids with
  | nil => exact .nil
  | @cons leaf id ls xs hid hrest ih =>
    rw [List.nodup_cons] at hn
    refine List.pairwise_cons.2 ⟨fun q hq a ha b hb => ?_, ih hn.2 (fun p hp => hrows p (List.mem_cons_of_mem _ hp))⟩
    obtain ⟨i, hi, rfl⟩ := List.getElem_of_mem hq
    have hi' : i < xs.length := by rw [← hrest.length_eq]; exact hi
    have hq' : singleRelationId ls[i] = some xs[i] := (List.forall₂_iff_get.1 hrest).2 i hi hi'
    refine separate_of_relations (fun (he : id = xs[i]) => hn.1 (he ▸ List.getElem_mem hi'))
      (hrows leaf List.mem_cons_self id hid a ha)
      (hrows _ (List.mem_cons_of_mem _ hq) _ hq' b hb)

open ExecutionRow (asMap) in
/-- **Join reordering keeps every predicate**: a plan of the enumeration has each leaf once, evaluates each ON condition in one
join, over tables that are below it, and gives the rows of the joins in source order. -/
theorem reordering_keeps_predicates {logical : LogicalPlan} {a : Alternative R C}
    (h : joinDp K (flattenJoins logical).1 (flattenJoins logical).2 = .ok (some a)) :
    ∃ t : JoinTree, Renders K t a.plan ∧ t.leaves.Perm (flattenJoins logical).1 ∧
      t.conditions.Perm (flattenJoins logical).2 ∧ t.Scoped ∧
      ∀ (A : FloatArith) (leafRows : LogicalPlan → List ExecutionRow),
        (∀ leaf ∈ (flattenJoins logical).1, ∀ id, singleRelationId leaf = some id → ∀ row ∈ leafRows leaf, row.OfRelation id) →
        ∀ xs ys, t.rows A leafRows = .ok xs → (JoinTree.ofLogical logical).rows A leafRows = .ok ys →
          (xs.map asMap).Perm (ys.map asMap) := by
  obtain ⟨ids, t, hn, hids, hrend, hleaves, hcond, hscoped⟩ := joinDp_complete (flattenJoins_length logical) h
  obtain ⟨hsource, hsourceCond⟩ := flattenJoins_ofLogical logical
  refine ⟨t, hrend, hleaves, hcond, hscoped, fun A leafRows hrows xs ys hx hy => ?_⟩
  have hplain : ∀ p ∈ t.leaves, ∀ row ∈ leafRows p, ExecutionRow.Plain row := by
    intro p hp row hrow
    obtain ⟨i, hi, rfl⟩ := List.getElem_of_mem (hleaves.mem_iff.1 hp)
    have hi' : i < ids.length := by rw [← hids.length_eq]; exact hi
    exact (hrows _ (List.getElem_mem hi) _ ((List.forall₂_iff_get.1 hids).2 i hi hi') row hrow).plain
  have hsep := leaves_separate hn hids hrows
  refine JoinTree.rows_perm (hleaves.trans (.of_eq hsource.symm)) (hcond.trans (.of_eq hsourceCond.symm)) hplain ?_ hx hy
  exact (hleaves.pairwise_iff (fun h a ha b hb => (h b hb a ha).symm)).2 hsep

/-! ### Two tables -/

/-- Leaves are scanned, and nothing costs anything. -/
def freeCosts : Costing Unit Unit where
  optimize
    | .scan table _ => .ok ⟨.seqScan table, (), ()⟩
    | _             => raise .typeError "cannot optimize logical plan"
  joinRows _ _ _ := .ok ()
  nestedCost _ _ := .ok ()
  hashCost _ _ := .ok ()
  fewer _ _ := false
  cheaper _ _ := false
  before _ _ := false

/-- The table `t1` or `t2`, with one column `x`. -/
def oneColumnTable (id : Nat) : BoundTable := ⟨id, ⟨[⟨['x'], .int64, false⟩]⟩⟩

/-- `t1 JOIN t2 ON t1.x = t2.x`. -/
def twoTableJoin : LogicalPlan :=
  .join (.scan (oneColumnTable 1) none) (.scan (oneColumnTable 2) none)
    (.binary (.column ⟨1, 0⟩ ['x'] .int64 false) .eq (.column ⟨2, 0⟩ ['x'] .int64 false) .boolean false)

theorem schedule_two : schedule 2 = [(3, 1)] := by
  simp [schedule, partitions, leftMasks, firstBit, List.range', List.range, List.range.loop, Nat.testBit]

theorem reordering_keeps_predicates_two : ∃ a : Alternative Unit Unit,
    joinDp freeCosts (flattenJoins twoTableJoin).1 (flattenJoins twoTableJoin).2 = .ok (some a) ∧
      ∃ t : JoinTree, Renders freeCosts t a.plan ∧ t.conditions.Perm (flattenJoins twoTableJoin).2 := by
  have h : joinDp freeCosts (flattenJoins twoTableJoin).1 (flattenJoins twoTableJoin).2 = .ok (some ⟨.nestedLoopJoin
      (.seqScan (oneColumnTable 1)) (.seqScan (oneColumnTable 2))
      (.binary (.column ⟨1, 0⟩ ['x'] .int64 false) .eq (.column ⟨2, 0⟩ ['x'] .int64 false) .boolean false), (), ()⟩) := by
    unfold joinDp
    rw [show (flattenJoins twoTableJoin).1.mapM singleRelationId = some [1, 2] from rfl]
    simp only
    rw [if_pos (by decide), show [1, 2].length = 2 from rfl, schedule_two]
    rfl
  obtain ⟨t, hrend, -, hcond, -⟩ := reordering_keeps_predicates h
  exact ⟨_, h, t, hrend, hcond⟩

end CostBased
end MiniPostgres
