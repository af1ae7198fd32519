import MiniPostgres.BinderScope
/-!
# SourceOrder — the plan of a SELECT as it is written

`Planner.physical` makes a hash join of an equality of columns, with the keys in the order in which they are written.  The plan
runs without a missing column exactly when the conditions are in order and the right keys are columns of the joined tables: the
right key is evaluated on the rows of the joined table as soon as the join is opened (`pull_misplaced`).
-/
namespace MiniPostgres

open Operators
open Fueled (Comes)

section Joins

variable {A : FloatArith} {context : ExecutionContext} {scope : List ScopeEntry}

theorem hashJoinKeys_eq_some {condition : BoundExpr} {k : BoundExpr × BoundExpr} (h : Planner.hashJoinKeys condition = some k) :
    ∃ b m d n b' m' d' n' r o, condition = .binary (.column b m d n) .eq (.column b' m' d' n') r o ∧ b.tableId ≠ b'.tableId ∧
      k = (.column b m d n, .column b' m' d' n') := by
  unfold Planner.hashJoinKeys at h
  split at h
  · split at h
    · rename_i hne
      cases h
      exact ⟨_, _, _, _, _, _, _, _, _, _, rfl, hne, rfl⟩
    · cases h
  · cases h

/-! ## Keys in order -/

/-- **Hash joins whose right keys are columns of the joined tables are oriented**, when the conditions are in order. -/
theorem oriented_joinTables (hn : (Binder.ids scope).Nodup) : ∀ {joins : List BoundJoin} {plan : LogicalPlan}
    {tables : List BoundTable}, plan.Oriented → plan.columns = columnsOf tables →
    (∀ t ∈ tables ++ joins.map (·.table), t ∈ scope.map (·.table)) → (∀ j ∈ joins, WellTyped scope j.condition) →
    InOrder tables joins → (∀ j ∈ joins, Binder.keysInOrder j.table j.condition = true) →
    (Planner.joinTables plan joins).Oriented
  | [], _, _, ho, _, _, _, _, _ => ho
  | j :: js, plan, tables, ho, hc, hsub, hj, hin, hkeys => by
    have hcolumns : plan.columns ++ (LogicalPlan.scan j.table none).columns = columnsOf (tables ++ [j.table]) := by
      rw [hc, columnsOf_append]
      simp [columnsOf]
    have htables : ∀ t ∈ tables, t ∈ scope.map (·.table) := fun t ht => hsub t (List.mem_append_left _ ht)
    have hjoined : ∀ t ∈ [j.table], t ∈ scope.map (·.table) := fun t ht =>
      hsub t (List.mem_append_right _ (by rw [List.mem_singleton.1 ht]; exact List.mem_cons_self))
    show (Planner.joinTables (.join plan (.scan j.table none) j.condition) js).Oriented
    refine oriented_joinTables hn ⟨ho, trivial, fun k hk => ?_⟩ hcolumns (fun t ht => hsub t (by simpa using ht))
      (fun i hi => hj i (List.mem_cons_of_mem _ hi)) hin.2 (fun i hi => hkeys i (List.mem_cons_of_mem _ hi))
    have hright := hkeys j List.mem_cons_self
    unfold Binder.keysInOrder at hright
    rw [hk] at hright
    obtain ⟨b, m, d, n, b', m', d', n', r, o, he, hne, rfl⟩ := hashJoinKeys_eq_some hk
    have hright : b'.tableId = j.table.tableId := by simpa [BoundExpr.bindings] using hright
    have hmem : b ∈ j.condition.bindings ∧ b' ∈ j.condition.bindings := by simp [he, BoundExpr.bindings]
    have hleft : b.tableId ∈ tables.map (·.tableId) := by
      have hin := hin.1 b hmem.1
      rw [List.map_append] at hin
      refine (List.mem_append.1 hin).resolve_right (fun hb => hne ?_)
      rw [hright]
      exact List.mem_singleton.1 hb
    have hcl := (mem_columnsOf hn htables (hj j List.mem_cons_self) hmem.1).2 hleft
    have hcr := (mem_columnsOf hn hjoined (hj j List.mem_cons_self) hmem.2).2 (List.mem_singleton.2 hright)
    have hscan : columnsOf [j.table] = (LogicalPlan.scan j.table none).columns := List.flatMap_singleton _ _
    constructor
    · simp only [readable, Bool.or_eq_true, List.contains_iff_mem]
      exact Or.inr (hc ▸ hcl)
    · simp only [readable, Bool.or_eq_true, List.contains_iff_mem]
      exact Or.inr (hscan ▸ hcr)

/-! ## A key that is not of the joined table -/

theorem joinTables_append (plan : LogicalPlan) (pre post : List BoundJoin) :
    Planner.joinTables plan (pre ++ post) = Planner.joinTables (Planner.joinTables plan pre) post := List.foldl_append

theorem pull_joinTables_ok : ∀ {joins : List BoundJoin} {plan : LogicalPlan},
    (∃ p, (Planner.physical plan).pull A context = .ok p) → (∀ j ∈ joins, context.scan j.table.tableId = []) →
    ∃ p, (Planner.physical (Planner.joinTables plan joins)).pull A context = .ok p
  | [], _, h, _ => h
  | j :: js, plan, ⟨p, hp⟩, hempty => by
    have hright : (Planner.physical (.scan j.table none)).pull A context = .ok (.ofList []) := by
      unfold Planner.physical PhysicalPlan.pull
      rw [hempty j List.mem_cons_self]
      rfl
    have hjoin : ∃ p, (Planner.physical (.join plan (.scan j.table none) j.condition)).pull A context = .ok p := by
      rw [Planner.physical]
      split
      · exact ⟨_, bind_eq_ok.2 ⟨p, hp, bind_eq_ok.2 ⟨_, hright, bind_eq_ok.2 ⟨[], rfl, rfl⟩⟩⟩⟩
      · exact ⟨_, bind_eq_ok.2 ⟨p, hp, bind_eq_ok.2 ⟨_, hright, bind_eq_ok.2 ⟨[], rfl, rfl⟩⟩⟩⟩
    show ∃ p, (Planner.physical (Planner.joinTables (.join plan (.scan j.table none) j.condition) js)).pull A context = .ok p
    exact pull_joinTables_ok hjoin (fun i hi => hempty i (List.mem_cons_of_mem _ hi))

theorem pull_joinTables_error {e : Error} : ∀ {joins : List BoundJoin} {plan : LogicalPlan},
    (Planner.physical plan).pull A context = .error e →
      (Planner.physical (Planner.joinTables plan joins)).pull A context = .error e
  | [], _, h => h
  | j :: js, plan, h => by
    have hjoin : (Planner.physical (.join plan (.scan j.table none) j.condition)).pull A context = .error e := by
      rw [Planner.physical]
      split
      · rw [PhysicalPlan.pull, h]
        rfl
      · rw [PhysicalPlan.pull, h]
        rfl
    show (Planner.physical (Planner.joinTables (.join plan (.scan j.table none) j.condition) js)).pull A context = .error e
    exact pull_joinTables_error hjoin

def someRow (schema : Schema) : Values := schema.columns.map (fun c =>
  match c.dataType with
  | .int64   => .int 0
  | .float64 => .float 0
  | .boolean => .bool false
  | .text    => .text [])

def oneRow (table : BoundTable) : ExecutionContext where
  scan tableId := if tableId = table.tableId then [(⟨0, 0⟩, someRow table.schema)] else []
  range _ _ _ _ := none
  resolve _ _ := none

theorem oneRow_full (table : BoundTable) (scans : List BoundTable) (h : ∀ t ∈ scans, t.tableId = table.tableId → t = table) :
    FullRows (oneRow table).scan scans := by
  intro t ht p hp
  simp only [oneRow] at hp
  split at hp
  · rename_i hid
    rw [List.mem_singleton.1 hp, h t ht hid, someRow, List.length_map]
  · cases hp

theorem evaluate_missing {b : ColumnBinding} {name : Name} {d : DataType} {n : Bool} {tableId : Nat} (h : b.tableId ≠ tableId)
    (tid : TID) (values : Values) : evaluate A (.column b name d n) (tableRow tableId tid values) =
      raise .typeMismatch ("column is unavailable: " ++ String.ofList name) := by
  have hlookup : (tableRow tableId tid values).cells.lookup b = none := by
    rw [List.lookup_eq_none_iff]
    intro p hp
    obtain ⟨i, hi, rfl⟩ := List.mem_mapIdx.1 hp
    simp only [bne_iff_ne, ne_eq]
    rintro rfl
    exact h rfl
  unfold evaluate
  rw [hlookup]
  rfl

/-- **The right key is evaluated on the rows of the joined table when the join is opened**, and misses a column of another one. -/
theorem pull_misplaced {plan : LogicalPlan} {p : Pull Error ExecutionRow} {j : BoundJoin}
    (hplan : (Planner.physical plan).pull A (oneRow j.table) = .ok p) (hkey : Binder.keysInOrder j.table j.condition = false) :
    ∃ e, (Planner.physical (.join plan (.scan j.table none) j.condition)).pull A (oneRow j.table) = .error e ∧ Unavailable e := by
  unfold Binder.keysInOrder at hkey
  split at hkey
  · cases hkey
  · rename_i leftKey rightKey hk
    obtain ⟨b, m, d, n, b', m', d', n', r, o, -, -, he⟩ := hashJoinKeys_eq_some hk
    obtain ⟨rfl, rfl⟩ := Prod.mk.inj he
    have hother : b'.tableId ≠ j.table.tableId := by simpa [BoundExpr.bindings] using hkey
    refine ⟨⟨.typeMismatch, "column is unavailable: " ++ String.ofList m'⟩, ?_, Or.inl ⟨_, rfl⟩⟩
    have hright : (Planner.physical (.scan j.table none)).pull A (oneRow j.table) =
        .ok (.ofList [tableRow j.table.tableId ⟨0, 0⟩ (someRow j.table.schema)]) := by
      simp only [Planner.physical, PhysicalPlan.pull, oneRow, if_pos, List.map_cons, List.map_nil]
    have hfold : Pull.fold (Executor.hashRow A (.column b' m' d' n')) []
        (.ofList [tableRow j.table.tableId ⟨0, 0⟩ (someRow j.table.schema)]) =
        .error ⟨.typeMismatch, "column is unavailable: " ++ String.ofList m'⟩ := by
      rw [Pull.ofList, Pull.fold_cons, Executor.hashRow, evaluate_missing hother]
      rfl
    rw [Planner.physical, hk]
    simp only [PhysicalPlan.pull]
    rw [hplan, hright]
    show (Pull.fold _ _ _ >>= _) = _
    rw [hfold]
    rfl

end Joins

/-! ## What stands above the joins -/

/-- The second plan is the first one under operators with one input. -/
inductive Above (below : LogicalPlan) : LogicalPlan → Prop
  | here : Above below below
  | filter {child : LogicalPlan} (predicate : BoundExpr) : Above below child → Above below (.filter child predicate)
  | project {child : LogicalPlan} (items : List BoundSelectItem) : Above below child → Above below (.project child items)
  | aggregate {child : LogicalPlan} (groupBy aggregates : List BoundExpr) : Above below child →
      Above below (.aggregate child groupBy aggregates)
  | sort {child : LogicalPlan} (orderBy : List BoundOrderItem) : Above below child → Above below (.sort child orderBy)
  | limit {child : LogicalPlan} (n : Nat) : Above below child → Above below (.limit child n)

namespace Above

variable {A : FloatArith} {context : ExecutionContext} {below plan : LogicalPlan}

theorem oriented (h : Above below plan) (ho : below.Oriented) : plan.Oriented := by
  induction h with
  | here => exact ho
  | filter _ _ ih | project _ _ ih | aggregate _ _ _ ih | sort _ _ ih | limit _ _ ih => exact ih

theorem scans (h : Above below plan) : plan.scans = below.scans := by
  induction h with
  | here => rfl
  | filter _ _ ih | project _ _ ih | aggregate _ _ _ ih | sort _ _ ih | limit _ _ ih => exact ih

theorem pull_error {e : Error} (h : Above below plan) (he : (Planner.physical below).pull A context = .error e) :
    (Planner.physical plan).pull A context = .error e := by
  induction h with
  | here => exact he
  | filter _ _ ih | project _ _ ih | aggregate _ _ _ ih | sort _ _ ih | limit _ _ ih =>
    rw [Planner.physical, PhysicalPlan.pull, ih]
    rfl

theorem build_ok (h : Above below plan) (hb : ∃ e, Executor.build (Planner.physical below) = .ok e) :
    ∃ e, Executor.build (Planner.physical plan) = .ok e := by
  induction h with
  | here => exact hb
  | filter _ _ ih | project _ _ ih | aggregate _ _ _ ih | sort _ _ ih | limit _ _ ih =>
    obtain ⟨e, he⟩ := ih
    exact ⟨_, bind_eq_ok.2 ⟨e, he, rfl⟩⟩

end Above

/-- FROM without its joins. -/
def Planner.base (b : BoundSelect) : LogicalPlan :=
  match b.fromTable with
  | none       => .values [[]]
  | some table => .scan table none

theorem Planner.above_select (b : BoundSelect) : Above (joinTables (base b) b.joins) (select b) := by
  have hsource : Above (joinTables (base b) b.joins) (source b) := by
    show Above _ (filtered (joinTables (base b) b.joins) b.where_)
    cases b.where_ with
    | none => exact .here
    | some p => exact .filter p .here
  have hgrouped : ∀ {grouped : Bool}, Above (joinTables (base b) b.joins)
      (if grouped then source b else .aggregate (source b) b.groupBy (aggregatesOf b)) := by
    intro grouped
    split
    · exact hsource
    · exact .aggregate _ _ hsource
  unfold select
  cases b.limit with
  | none =>
    dsimp only
    split
    · exact .project _ hgrouped
    · exact .sort _ (.project _ hgrouped)
  | some n =>
    dsimp only
    split
    · exact .limit n (.project _ hgrouped)
    · exact .limit n (.sort _ (.project _ hgrouped))

theorem build_joinTables :
    ∀ {joins : List BoundJoin} {plan : LogicalPlan}, (∃ e, Executor.build (Planner.physical plan) = .ok e) →
    ∃ e, Executor.build (Planner.physical (Planner.joinTables plan joins)) = .ok e
  | [], _, h => h
  | j :: js, plan, ⟨e, he⟩ => by
    have hjoin : ∃ e, Executor.build (Planner.physical (.join plan (.scan j.table none) j.condition)) = .ok e := by
      rw [Planner.physical]
      split
      · exact ⟨_, bind_eq_ok.2 ⟨e, he, rfl⟩⟩
      · exact ⟨_, bind_eq_ok.2 ⟨e, he, rfl⟩⟩
    show ∃ e, Executor.build (Planner.physical (Planner.joinTables (.join plan (.scan j.table none) j.condition) js)) = .ok e
    exact build_joinTables hjoin

theorem scans_joinTables : ∀ (joins : List BoundJoin) (plan : LogicalPlan),
    (Planner.joinTables plan joins).scans = plan.scans ++ joins.map (·.table)
  | [], _ => (List.append_nil _).symm
  | j :: js, plan => (scans_joinTables js (.join plan (.scan j.table none) j.condition)).trans (List.append_assoc _ _ _)

/-! ## SELECT -/

section Select

open Binder

variable {K : Casing} {catalog : Catalog} {s : SelectStmt} {b : BoundSelect} {scope : List ScopeEntry}

theorem oriented_select (h : Checked K catalog s b scope) (hin : InOrder b.fromTable.toList b.joins)
    (hkeys : ∀ j ∈ b.joins, keysInOrder j.table j.condition = true) : (Planner.select b).Oriented := by
  have hbase : (Planner.base b).Oriented ∧ (Planner.base b).columns = columnsOf b.fromTable.toList := by
    unfold Planner.base
    cases b.fromTable with
    | none => exact ⟨trivial, rfl⟩
    | some table => exact ⟨trivial, (List.flatMap_singleton _ _).symm⟩
  exact (Planner.above_select b).oriented (oriented_joinTables h.unique hbase.1 hbase.2 (fun t ht => h.tables ▸ ht)
    (fun j hj => (h.joins j hj).1) hin hkeys)

theorem scans_select (b : BoundSelect) : (Planner.select b).scans = b.fromTable.toList ++ b.joins.map (·.table) := by
  rw [(Planner.above_select b).scans, scans_joinTables]
  unfold Planner.base
  cases b.fromTable <;> rfl

/-- **With a key that is not of the joined table, one row of the joined table is enough for a missing column.** -/
theorem select_misplaced (h : Checked K catalog s b scope) {j : BoundJoin} (hj : j ∈ b.joins)
    (hkey : keysInOrder j.table j.condition = false) (A : FloatArith) : ∃ context : ExecutionContext,
      FullRows context.scan (Planner.select b).scans ∧ ∃ e, Unavailable e ∧
        Comes (fun n => (Planner.physical (Planner.select b)).execute A context n) (.error e) := by
  have hunique : ((b.fromTable.toList ++ b.joins.map (·.table)).map (·.tableId)).Nodup := by
    rw [← h.tables, List.map_map]
    exact h.unique
  obtain ⟨pre, post, hsplit⟩ := List.append_of_mem hj
  have hpre : ∀ i ∈ pre, (oneRow j.table).scan i.table.tableId = [] := by
    intro i hi
    refine if_neg (fun hid => ?_)
    rw [hsplit] at hunique
    simp only [List.map_append, List.map_cons] at hunique
    rw [← List.append_assoc] at hunique
    exact (List.nodup_append.1 hunique).2.2 _ (List.mem_append_right _ (List.mem_map_of_mem (List.mem_map_of_mem hi))) _
      List.mem_cons_self hid
  have hbase : ∃ p, (Planner.physical (Planner.base b)).pull A (oneRow j.table) = .ok p := by
    unfold Planner.base
    cases b.fromTable with
    | none => exact ⟨_, rfl⟩
    | some table => exact ⟨_, rfl⟩
  obtain ⟨p, hp⟩ := pull_joinTables_ok hbase hpre
  obtain ⟨e, he, hun⟩ := pull_misplaced hp hkey
  have hjoins : (Planner.physical (Planner.joinTables (Planner.base b) b.joins)).pull A (oneRow j.table) = .error e := by
    rw [hsplit, joinTables_append]
    show (Planner.physical (Planner.joinTables (.join _ (.scan j.table none) j.condition) post)).pull A (oneRow j.table) = _
    exact pull_joinTables_error he
  obtain ⟨executor, hbuild⟩ := (Planner.above_select b).build_ok (build_joinTables (by
    unfold Planner.base
    cases b.fromTable with
    | none => exact ⟨_, rfl⟩
    | some table => exact ⟨_, rfl⟩))
  refine ⟨oneRow j.table, ?_, e, hun, ?_⟩
  · rw [scans_select]
    refine oneRow_full _ _ (fun t ht hid => ?_)
    have hmem : j.table ∈ b.fromTable.toList ++ b.joins.map (·.table) := List.mem_append_right _ (List.mem_map_of_mem hj)
    exact List.inj_on_of_nodup_map hunique ht hmem hid
  · have hrun := PhysicalPlan.execute_results A (oneRow j.table) (Planner.physical (Planner.select b))
    rw [hbuild] at hrun
    have hpull := (Planner.above_select b).pull_error hjoins
    refine Cursor.Results.error ?_
    show Cursor.Results _ (.error e)
    have hvalue : ((Except.ok executor : Result Executor) >>= fun _ =>
        (Planner.physical (Planner.select b)).pull A (oneRow j.table) >>= Pull.drain) = .error e := by
      rw [hpull]
      rfl
    rwa [hvalue] at hrun

/-- **The plan of a bound statement reads what its nodes give, and its run misses nothing, exactly when each ON condition binds
with the tables up to its own and has the column of its own table on the right of an equality of columns.** -/
theorem select_well_scoped (hs : s.NanFree) (h : bindSelect K catalog s = .ok b) :
    ((Planner.logical (.select b)).WellScoped ∧
      ∀ (A : FloatArith) (context : ExecutionContext), FullRows context.scan (Planner.logical (.select b)).scans →
        ∃ outcome, Comes (fun n => (Planner.physical (Planner.logical (.select b))).execute A context n) outcome ∧
          ∀ e, outcome = .error e → ¬ Unavailable e) ↔
      conditionsInOrder K catalog s = true := by
  obtain ⟨⟨scope, hc⟩, hnan⟩ := bindSelect_ok h
  rw [hc.inOrder, Planner.logical]
  constructor
  · rintro ⟨hw, hrun⟩
    refine ⟨(wellScoped_select hc (hnan hs)).1 hw, fun j hj => ?_⟩
    by_contra hkey
    obtain ⟨context, hfull, e, hun, herr⟩ := select_misplaced hc hj (by simpa using hkey) FloatArith.unused
    obtain ⟨outcome, hout, hsafe⟩ := hrun _ context hfull
    exact hsafe e (hout.unique herr) hun
  · rintro ⟨hin, hkeys⟩
    have hw := (wellScoped_select hc (hnan hs)).2 hin
    exact ⟨hw, fun A context hfull => execute_available hw (oriented_select hc hin hkeys) hfull⟩

end Select

/-! ### Three statements -/

def threeTables : Catalog :=
  [⟨['a'], 1, ⟨[⟨['x'], .int64, false⟩]⟩⟩, ⟨['b'], 2, ⟨[⟨['x'], .int64, false⟩]⟩⟩, ⟨['c'], 3, ⟨[⟨['x'], .int64, false⟩]⟩⟩]

/-- `SELECT a.x FROM a JOIN b ON left.x = right.x JOIN c ON TRUE`. -/
def joinOn (left right : Name) : SelectStmt where
  items := [⟨.columnRef ['x'] (some ['a']), none⟩]
  fromTable := some ⟨['a'], none⟩
  joins := [⟨⟨['b'], none⟩, .binary (.columnRef ['x'] (some left)) .eq (.columnRef ['x'] (some right))⟩,
    ⟨⟨['c'], none⟩, .literal (.bool true)⟩]
  where_ := none
  groupBy := []
  orderBy := []
  limit := none

/-- One row in every table. -/
def oneEach : ExecutionContext := ⟨fun _ => [(⟨0, 0⟩, [.int 1])], fun _ _ _ _ => none, fun _ _ => none⟩

theorem oneEach_full {scans : List BoundTable} (h : ∀ t ∈ scans, t.schema.columns.length = 1) : FullRows oneEach.scan scans := by
  intro t ht p hp
  rw [List.mem_singleton.1 hp, h t ht]
  rfl

theorem select_well_scoped_ordered : ∃ b, Binder.bindSelect Casing.ascii threeTables (joinOn ['a'] ['b']) = .ok b ∧
    (Planner.logical (.select b)).WellScoped ∧ ∃ outcome,
      Comes (fun n => (Planner.physical (Planner.logical (.select b))).execute FloatArith.unused oneEach n) outcome ∧
        ∀ e, outcome = .error e → ¬ Unavailable e := by
  have hnan : (joinOn ['a'] ['b']).NanFree := by
    refine ⟨fun i hi => ?_, fun e he => (by cases he), fun i hi => by cases hi⟩
    rw [List.mem_singleton.1 hi]
    exact .columnRef
  obtain ⟨hw, hrun⟩ := (@select_well_scoped Casing.ascii threeTables (joinOn ['a'] ['b']) _ hnan rfl).2 (by decide)
  exact ⟨_, rfl, hw, hrun _ _ (oneEach_full (by decide))⟩

/-- A condition may name a table that is joined later, or a column of its own table on the left: its evaluation fails. -/
theorem later_table_unavailable :
    (∃ b, Binder.bindSelect Casing.ascii threeTables (joinOn ['b'] ['c']) = .ok b ∧ ¬ (Planner.logical (.select b)).WellScoped) ∧
    ∀ other ∈ [['a'], ['c']], ∃ b, Binder.bindSelect Casing.ascii threeTables (joinOn ['b'] other) = .ok b ∧
      FullRows oneEach.scan (Planner.logical (.select b)).scans ∧ ∃ e, Unavailable e ∧
        Comes (fun n => (Planner.physical (Planner.logical (.select b))).execute FloatArith.unused oneEach n) (.error e) := by
  refine ⟨⟨_, rfl, fun h => absurd h.1.1.2.2 (by decide)⟩, fun other ho => ?_⟩
  have hrun := fun b : BoundSelect =>
    PhysicalPlan.execute_results FloatArith.unused oneEach (Planner.physical (Planner.logical (.select b)))
  fin_cases ho
  · exact ⟨_, rfl, oneEach_full (by decide), ⟨.typeMismatch, "column is unavailable: x"⟩, Or.inl ⟨"x", rfl⟩, (hrun _).error⟩
  · exact ⟨_, rfl, oneEach_full (by decide), ⟨.typeMismatch, "column is unavailable: x"⟩, Or.inl ⟨"x", rfl⟩, (hrun _).error⟩

end MiniPostgres
