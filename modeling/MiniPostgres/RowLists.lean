import MiniPostgres.Lib.Groups
import MiniPostgres.Typing
import MiniPostgres.VolcanoSpec
/-!
# RowLists — what the operators compute, as lists

The meaning of a physical plan as a list of rows, by recursion on the plan and with no state: an expression that raises has no
value here.  An executor whose run raises nothing collects exactly this list, and a run raises nothing when no evaluation that the
list depends on does.
-/
namespace MiniPostgres

open Operators Cursor Fueled

/-! ## The meaning of the operators -/

section Meaning

variable (A : FloatArith) (context : ExecutionContext)

def valueOf (e : BoundExpr) (row : ExecutionRow) : Option Scalar := (evaluate A e row).toOption

/-- The predicate is TRUE on the row: neither FALSE nor NULL. -/
def isTrue (predicate : BoundExpr) (row : ExecutionRow) : Bool := decide (valueOf A predicate row = some (.bool true))

def pairOf (condition : BoundExpr) (left right : ExecutionRow) : Option ExecutionRow :=
  (left.merge right).toOption.bind (Option.guard (isTrue A condition))

/-- Two keys are equal, and not NULL. -/
def equalKeys (left right : Option Scalar) : Bool :=
  match left.bind hashKey, right.bind hashKey with
  | some a, some b => decide (a = b)
  | _, _           => false

def keyed (groupBy : List BoundExpr) (row : ExecutionRow) : Option (ExecutionRow × Values) :=
  (groupKey A groupBy row).toOption

/-- COUNT(*) counts rows; every other aggregate is of the values of its argument that are not NULL. -/
def aggregated (rows : List ExecutionRow) : BoundExpr → Option Scalar
  | .countStar              => some (.int rows.length)
  | .function f argument d _ =>
    (aggregateOf A f d ((rows.filterMap (valueOf A argument)).filter (fun v => v ≠ .null))).toOption
  | _                        => none

def groupedRow (groupBy aggregates : List BoundExpr) (group : Values × List ExecutionRow) : ExecutionRow :=
  (groupBy.zip group.1 ++ aggregates.zip (aggregates.filterMap (aggregated A group.2))).foldl
    (fun row p => row.put p.1 p.2) .empty

/-- The groups in the order of their first rows; without GROUP BY there is a group even of no rows. -/
def groupsOfRows (groupBy : List BoundExpr) (rows : List ExecutionRow) : List (Values × List ExecutionRow) :=
  if groupBy.isEmpty && rows.isEmpty then [([], [])]
  else (Groups.firstGroups (sameGroup groupBy) (rows.filterMap (keyed A groupBy))).map (fun g => (g.1.2, g.2.map Prod.fst))

/-- The left row does not come after the right one in the order of the items, as `sortRows` has it (`sortRows_eq_sortExecutor`
for the comparator of the source). -/
def notAfter (orderBy : List BoundOrderItem) (left right : ExecutionRow) : Prop :=
  (rowAfter A orderBy left right).toOption ≠ some true

instance (orderBy : List BoundOrderItem) : DecidableRel (notAfter A orderBy) := fun _ _ => instDecidableNot

/-- **The rows of a plan.** -/
def PhysicalPlan.listRows : PhysicalPlan → List ExecutionRow
  | .values rows => rows.filterMap (fun expressions => (valuesRow A expressions).toOption)
  | .seqScan table => (context.scan table.tableId).map (fun p => tableRow table.tableId p.1 p.2)
  | .indexScan table indexId predicate (some lowerKey) (some upperKey) =>
    let rows := (fetched context table.tableId [] ((context.range table.tableId indexId lowerKey upperKey).getD [])).map
      (fun p => tableRow table.tableId p.1 p.2)
    rows.filter (fun row => predicate.all (fun p => isTrue A p row))
  | .indexScan _ _ _ _ _ => []
  | .filter child predicate => child.listRows.filter (isTrue A predicate)
  | .project child items => child.listRows.filterMap (fun row => (projectRow A items row).toOption)
  | .nestedLoopJoin left right condition => left.listRows.flatMap (fun l => right.listRows.filterMap (pairOf A condition l))
  | .hashJoin left right leftKey rightKey condition =>
    left.listRows.flatMap (fun l =>
      (right.listRows.filter (fun r => equalKeys (valueOf A leftKey l) (valueOf A rightKey r))).filterMap (pairOf A condition l))
  | .aggregate child groupBy aggregates => (groupsOfRows A groupBy child.listRows).map (groupedRow A groupBy aggregates)
  | .sort child orderBy => child.listRows.insertionSort (notAfter A orderBy)
  | .limit child n => child.listRows.take n
  | .modifyTable _ _ _ _ _ _ => []

end Meaning

/-! ## Pulled rows and lists -/

variable {A : FloatArith} {context : ExecutionContext}

theorem along_filterMap {α β : Type} {p : Pull Error α} {xs : List α} {f : α → Pull Error β} {g : α → Option β}
    (h : Pull.Along p xs) (hf : ∀ x, Pull.Along (f x) (g x).toList) : Pull.Along (p.bind f) (xs.filterMap g) := by
  rw [List.filterMap_eq_flatMap_toList]
  exact h.bind hf

theorem along_kept (predicate : BoundExpr) (row : ExecutionRow) :
    Pull.Along (kept A predicate row) (Option.guard (isTrue A predicate) row).toList := by
  unfold kept Option.guard isTrue valueOf
  cases evaluate A predicate row with
  | error e => exact ⟨List.nil_prefix, fun hn => by cases hn⟩
  | ok v =>
    by_cases hv : v = .bool true
    · subst hv
      exact Pull.along_ofList [row]
    · simp only [Except.toOption, Option.some.injEq, hv, decide_false, Bool.false_eq_true, if_false]
      exact Pull.along_ofList []

theorem along_joined (condition : BoundExpr) (left right : ExecutionRow) :
    Pull.Along (joined A condition left right) (pairOf A condition left right).toList := by
  unfold joined pairOf
  cases left.merge right with
  | error e => exact ⟨List.nil_prefix, fun hn => by cases hn⟩
  | ok merged => exact along_kept condition merged

theorem along_joinedAll (condition : BoundExpr) (rights : List ExecutionRow) (left : ExecutionRow) :
    Pull.Along (joinedAll A condition rights left) (rights.filterMap (pairOf A condition left)) :=
  along_filterMap (Pull.along_ofList rights) (along_joined condition left)

/-! ### The hash table -/

theorem lookup_add (key k : HashKey) (row : ExecutionRow) : ∀ table : HashTable,
    ((table.add key row).lookup k).getD [] = (table.lookup k).getD [] ++ if key = k then [row] else []
  | [] => by
    by_cases hk : key = k
    · subst hk
      simp [HashTable.add]
    · have hne : (k == key) = false := by simpa using fun h : k = key => hk h.symm
      simp [HashTable.add, List.lookup_cons, hne, hk]
  | (k', rows) :: table => by
    unfold HashTable.add
    by_cases hk' : k' = key
    · subst hk'
      by_cases hk : k' = k
      · subst hk
        simp
      · have hne : (k == k') = false := by simpa using fun h : k = k' => hk h.symm
        simp [List.lookup_cons, hne, hk]
    · rw [if_neg hk']
      by_cases hk : k = k'
      · subst hk
        have hne : ¬key = k := fun h => hk' h.symm
        simp [hne]
      · have hne : (k == k') = false := by simpa using hk
        simp only [List.lookup_cons, hne]
        exact lookup_add key k row table

theorem candidates_store (table : HashTable) (value v : Scalar) (row : ExecutionRow) :
    (table.store value row).candidates v = table.candidates v ++ if equalKeys (some v) (some value) then [row] else [] := by
  unfold HashTable.store HashTable.candidates equalKeys
  cases hvalue : hashKey value with
  | none => cases hv : hashKey v <;> simp [hvalue, hv]
  | some key =>
    cases hv : hashKey v with
    | none => simp [hv]
    | some k =>
      simp only [Option.bind_some, hv, hvalue, decide_eq_true_eq]
      rw [lookup_add]
      by_cases hk : key = k
      · simp [hk]
      · have hne : ¬k = key := fun h => hk h.symm
        simp [hk, hne]

theorem candidates_nil (v : Scalar) : HashTable.candidates [] v = [] := by
  unfold HashTable.candidates
  cases hashKey v <;> rfl

/-- **A loop that stores every row finds them by their keys.** -/
theorem candidates_foldlM {rightKey : BoundExpr} {v : Scalar} : ∀ (rows : List ExecutionRow) {table hash : HashTable},
    rows.foldlM (Executor.hashRow A rightKey) table = .ok hash →
    hash.candidates v = table.candidates v ++ rows.filter (fun r => equalKeys (some v) (valueOf A rightKey r))
  | [], table, hash, h => by
    cases h
    rw [List.filter_nil, List.append_nil]
  | row :: rows, table, hash, h => by
    rw [List.foldlM_cons] at h
    obtain ⟨table', hrow, h⟩ := bind_eq_ok.1 h
    obtain ⟨value, hvalue, hrow⟩ := bind_eq_ok.1 hrow
    cases hrow
    rw [candidates_foldlM rows h, candidates_store, List.filter_cons, List.append_assoc]
    have hv : valueOf A rightKey row = some value := by rw [valueOf, hvalue]; rfl
    rw [hv]
    split <;> rfl

/-! ### Groups -/

def groupOf (g : (ExecutionRow × Values) × List (ExecutionRow × Values)) : Group := ⟨g.1.1, g.1.2, g.2.map Prod.fst⟩

theorem addToGroups_map (groupBy : List BoundExpr) (p : ExecutionRow × Values) :
    ∀ groups : List ((ExecutionRow × Values) × List (ExecutionRow × Values)),
      addToGroups groupBy p.1 p.2 (groups.map groupOf) = (Groups.put (sameGroup groupBy) p groups).map groupOf
  | [] => rfl
  | g :: groups => by
    unfold Groups.put
    simp only [List.map_cons, addToGroups]
    by_cases hg : sameGroup groupBy g.1 p = true
    · have hg' : sameGroup groupBy ((groupOf g).first, (groupOf g).key) (p.1, p.2) = true := hg
      rw [if_pos hg', if_pos hg]
      simp [groupOf]
    · have hg' : ¬sameGroup groupBy ((groupOf g).first, (groupOf g).key) (p.1, p.2) = true := hg
      rw [if_neg hg', if_neg hg, List.map_cons, addToGroups_map groupBy p groups]

theorem foldlM_groupInto {groupBy : List BoundExpr} : ∀ (rows : List ExecutionRow)
    (groups : List ((ExecutionRow × Values) × List (ExecutionRow × Values))) {result : List Group},
    rows.foldlM (Executor.groupInto A groupBy) (groups.map groupOf) = .ok result →
    result = ((rows.filterMap (keyed A groupBy)).foldl (fun gs p => Groups.put (sameGroup groupBy) p gs) groups).map groupOf
  | [], groups, result, h => by cases h; rfl
  | row :: rows, groups, result, h => by
    rw [List.foldlM_cons] at h
    obtain ⟨groups', hrow, h⟩ := bind_eq_ok.1 h
    obtain ⟨p, hp, hrow⟩ := bind_eq_ok.1 hrow
    cases hrow
    have hkeyed : keyed A groupBy row = some p := by rw [keyed, hp]; rfl
    have hput : addToGroups groupBy p.1 p.2 (groups.map groupOf) = _ := addToGroups_map groupBy p groups
    rw [hput] at h
    rw [List.filterMap_cons_some hkeyed, List.foldl_cons]
    exact foldlM_groupInto rows _ h

theorem groupInto_rows {groupBy : List BoundExpr} {rows : List ExecutionRow} {groups : List Group}
    (h : rows.foldlM (Executor.groupInto A groupBy) [] = .ok groups) :
    groups = (Groups.firstGroups (sameGroup groupBy) (rows.filterMap (keyed A groupBy))).map groupOf := by
  rw [foldlM_groupInto rows [] h, Groups.foldl_put]

theorem toOption_ok {α : Type} {r : Result α} {a : α} (h : r = .ok a) : r.toOption = some a := by rw [h]; rfl

theorem groupInto_isEmpty {groupBy : List BoundExpr} {rows : List ExecutionRow} {groups : List Group}
    (h : rows.foldlM (Executor.groupInto A groupBy) [] = .ok groups) : groups.isEmpty = rows.isEmpty := by
  cases rows with
  | nil => cases h; rfl
  | cons row rows =>
    have hg := groupInto_rows h
    rw [List.foldlM_cons] at h
    obtain ⟨gs, hrow, -⟩ := bind_eq_ok.1 h
    obtain ⟨p, hp, -⟩ := bind_eq_ok.1 hrow
    have hkeyed : keyed A groupBy row = some p := toOption_ok hp
    rw [List.filterMap_cons_some hkeyed, Groups.firstGroups] at hg
    rw [hg]
    rfl

theorem mapRows_filterMap {α β : Type} {f : α → Result β} {g : α → Option β} (hfg : ∀ x y, f x = .ok y → g x = some y)
    {xs : List α} {ys : List β} (h : mapRows f xs = .ok ys) : xs.filterMap g = ys := by
  have hall := mapRows_forall₂ h
  clear h
  induction hall with
  | nil => rfl
  | cons hxy _ ih => rw [List.filterMap_cons_some (hfg _ _ hxy), ih]

theorem aggregated_eq {rows : List ExecutionRow} {aggregate : BoundExpr} {v : Scalar}
    (h : aggregateValue A aggregate rows = .ok v) : aggregated A rows aggregate = some v := by
  cases aggregate with
  | function f argument d n =>
    obtain ⟨values, hvalues, h⟩ := bind_eq_ok.1 h
    have hrows : rows.filterMap (valueOf A argument) = values := mapRows_filterMap (fun row v hv => toOption_ok hv) hvalues
    rw [aggregated, hrows]
    exact toOption_ok h
  | countStar => cases h; rfl
  | _ => cases h

theorem groupedRow_eq {groupBy aggregates : List BoundExpr} {key : Values} {rows : List ExecutionRow} {row : ExecutionRow}
    (h : groupRow A groupBy aggregates key rows = .ok row) : row = groupedRow A groupBy aggregates (key, rows) := by
  obtain ⟨values, hvalues, h⟩ := bind_eq_ok.1 h
  cases h
  rw [groupedRow, mapRows_filterMap (fun a v hv => aggregated_eq hv) hvalues]

theorem groupResults_eq {groupBy aggregates : List BoundExpr} {rows : List ExecutionRow} {groups : List Group}
    {results : List ExecutionRow} (hgroups : rows.foldlM (Executor.groupInto A groupBy) [] = .ok groups)
    (h : Executor.groupResults A groupBy aggregates groups = .ok results) :
    results = (groupsOfRows A groupBy rows).map (groupedRow A groupBy aggregates) := by
  have hmap : ∀ gs : List Group, mapRows (fun g : Group => groupRow A groupBy aggregates g.key g.rows) gs = .ok results →
      results = gs.map (fun g => groupedRow A groupBy aggregates (g.key, g.rows)) := by
    intro gs hgs
    rw [← mapRows_filterMap (fun g row hrow => congrArg some (groupedRow_eq hrow).symm) hgs, List.filterMap_eq_map']
  have hempty := groupInto_isEmpty hgroups
  unfold Executor.groupResults at h
  unfold groupsOfRows
  rw [hempty] at h
  split at h
  · rename_i hnone
    rw [if_pos hnone, hmap _ h]
    rfl
  · rename_i hsome
    rw [if_neg hsome, hmap _ h, groupInto_rows hgroups, List.map_map, List.map_map]
    rfl

/-! ### Sorting -/

theorem insertRow_eq {orderBy : List BoundOrderItem} {row : ExecutionRow} : ∀ {rows sorted : List ExecutionRow},
    insertRow A orderBy row rows = .ok sorted → sorted = rows.orderedInsert (notAfter A orderBy) row
  | [], sorted, h => by cases h; rfl
  | r :: rows, sorted, h => by
    obtain ⟨after, hafter, h⟩ := bind_eq_ok.1 h
    cases after with
    | true =>
      obtain ⟨rest, hrest, h⟩ := bind_eq_ok.1 h
      cases h
      have hnot : ¬notAfter A orderBy row r := fun hn => hn (toOption_ok hafter)
      rw [List.orderedInsert_cons, if_neg hnot, insertRow_eq hrest]
    | false =>
      cases h
      have hnot : notAfter A orderBy row r := fun hn => by rw [toOption_ok hafter] at hn; cases hn
      rw [List.orderedInsert_cons, if_pos hnot]

theorem sortRows_eq {orderBy : List BoundOrderItem} : ∀ {rows sorted : List ExecutionRow},
    sortRows A orderBy rows = .ok sorted → sorted = rows.insertionSort (notAfter A orderBy)
  | [], sorted, h => by cases h; rfl
  | r :: rows, sorted, h => by
    obtain ⟨rest, hrest, h⟩ := bind_eq_ok.1 h
    rw [List.insertionSort_cons, insertRow_eq h, sortRows_eq hrest]

/-! ### Plans -/

variable (A context)

/-- **What is pulled from a plan agrees with its list.** -/
theorem PhysicalPlan.along : ∀ (plan : PhysicalPlan) {p : Pull Error ExecutionRow}, plan.pull A context = .ok p →
    Pull.Along p (plan.listRows A context) := by
  intro plan
  induction plan with
  | values rows =>
    intro p h
    cases h
    exact along_filterMap (Pull.along_ofList rows) (fun row => Pull.along_ofExcept _)
  | seqScan table =>
    intro p h
    cases h
    exact Pull.along_ofList _
  | indexScan table indexId predicate lowerKey upperKey =>
    intro p h
    cases lowerKey with
    | none => cases h
    | some lowerKey =>
      cases upperKey with
      | none => cases h
      | some upperKey =>
        simp only [PhysicalPlan.pull, PhysicalPlan.listRows] at h ⊢
        cases hrange : context.range table.tableId indexId lowerKey upperKey with
        | none => rw [hrange] at h; cases h
        | some tids =>
          rw [hrange] at h
          cases h
          rw [← List.filterMap_eq_filter]
          refine along_filterMap (Pull.along_ofList _) (fun row => ?_)
          cases predicate with
          | none => exact Pull.along_ofList [row]
          | some predicate => exact along_kept predicate row
  | filter child predicate ih =>
    intro p h
    obtain ⟨rows, hrows, h⟩ := bind_eq_ok.1 h
    cases h
    rw [PhysicalPlan.listRows, ← List.filterMap_eq_filter]
    exact along_filterMap (ih hrows) (along_kept predicate)
  | project child items ih =>
    intro p h
    obtain ⟨rows, hrows, h⟩ := bind_eq_ok.1 h
    cases h
    exact along_filterMap (ih hrows) (fun row => Pull.along_ofExcept _)
  | nestedLoopJoin left right condition ihl ihr =>
    intro p h
    obtain ⟨lefts, hlefts, h⟩ := bind_eq_ok.1 h
    obtain ⟨opened, hopened, h⟩ := bind_eq_ok.1 h
    obtain ⟨rights, hrights, h⟩ := bind_eq_ok.1 h
    cases h
    rw [(ihr hopened).drain hrights]
    exact (ihl hlefts).bind (along_joinedAll condition _)
  | hashJoin left right leftKey rightKey condition ihl ihr =>
    intro p h
    obtain ⟨lefts, hlefts, h⟩ := bind_eq_ok.1 h
    obtain ⟨opened, hopened, h⟩ := bind_eq_ok.1 h
    obtain ⟨hash, hhash, h⟩ := bind_eq_ok.1 h
    cases h
    obtain ⟨hnone, hhash⟩ := Pull.fold_eq_ok.1 hhash
    rw [(ihr hopened).whole hnone] at hhash
    refine (ihl hlefts).bind (fun l => Pull.along_ofResult (fun ys hys => ?_))
    obtain ⟨v, hv, hys⟩ := bind_eq_ok.1 hys
    have hcandidates := candidates_foldlM (v := v) _ hhash
    rw [candidates_nil, List.nil_append] at hcandidates
    rw [(along_joinedAll condition (hash.candidates v) l).drain hys, hcandidates, valueOf, toOption_ok hv]
  | aggregate child groupBy aggregates ih =>
    intro p h
    obtain ⟨opened, hopened, h⟩ := bind_eq_ok.1 h
    obtain ⟨groups, hgroups, h⟩ := bind_eq_ok.1 h
    obtain ⟨results, hresults, h⟩ := bind_eq_ok.1 h
    cases h
    obtain ⟨hnone, hgroups⟩ := Pull.fold_eq_ok.1 hgroups
    rw [(ih hopened).whole hnone] at hgroups
    rw [PhysicalPlan.listRows, ← groupResults_eq hgroups hresults]
    exact Pull.along_ofList results
  | sort child orderBy ih =>
    intro p h
    obtain ⟨opened, hopened, h⟩ := bind_eq_ok.1 h
    obtain ⟨rows, hrows, h⟩ := bind_eq_ok.1 h
    obtain ⟨sorted, hsorted, h⟩ := bind_eq_ok.1 h
    cases h
    rw [PhysicalPlan.listRows, ← (ih hopened).drain hrows, ← sortRows_eq hsorted]
    exact Pull.along_ofList sorted
  | limit child n ih =>
    intro p h
    obtain ⟨rows, hrows, h⟩ := bind_eq_ok.1 h
    cases h
    exact (ih hrows).take n
  | modifyTable => intro p h; cases h

/-! ## Runs that raise nothing -/

def Returns {α : Type} (r : Result α) : Prop := ∃ a, r = .ok a

section Evaluations

def pairValue (condition : BoundExpr) (left right : ExecutionRow) : Result Scalar := do
  let merged ← left.merge right
  evaluate A condition merged

/-- A plan without modifications. -/
def PhysicalPlan.isQuery : PhysicalPlan → Bool
  | .values _                   => true
  | .seqScan _                  => true
  | .indexScan _ _ _ _ _        => true
  | .filter child _             => child.isQuery
  | .project child _            => child.isQuery
  | .nestedLoopJoin left right _ => left.isQuery && right.isQuery
  | .hashJoin left right _ _ _  => left.isQuery && right.isQuery
  | .aggregate child _ _        => child.isQuery
  | .sort child _               => child.isQuery
  | .limit child _              => child.isQuery
  | .modifyTable _ _ _ _ _ _    => false

/-- **No evaluation raises** on the rows that the meaning of the plan has. -/
def PhysicalPlan.Evaluates : PhysicalPlan → Prop
  | .values rows => ∀ expressions ∈ rows, Returns (valuesRow A expressions)
  | .indexScan table indexId predicate lowerKey upperKey =>
    ∃ lower upper tids, lowerKey = some lower ∧ upperKey = some upper ∧
      context.range table.tableId indexId lower upper = some tids ∧
      ∀ p ∈ predicate, ∀ q ∈ fetched context table.tableId [] tids, Returns (evaluate A p (tableRow table.tableId q.1 q.2))
  | .filter child predicate => child.Evaluates ∧ ∀ row ∈ child.listRows A context, Returns (evaluate A predicate row)
  | .project child items => child.Evaluates ∧ ∀ row ∈ child.listRows A context, Returns (projectRow A items row)
  | .nestedLoopJoin left right condition => left.Evaluates ∧ right.Evaluates ∧
      ∀ l ∈ left.listRows A context, ∀ r ∈ right.listRows A context, Returns (pairValue A condition l r)
  | .hashJoin left right leftKey rightKey condition => left.Evaluates ∧ right.Evaluates ∧
      (∀ l ∈ left.listRows A context, Returns (evaluate A leftKey l)) ∧
      (∀ r ∈ right.listRows A context, Returns (evaluate A rightKey r)) ∧
      ∀ l ∈ left.listRows A context, ∀ r ∈ right.listRows A context,
        equalKeys (valueOf A leftKey l) (valueOf A rightKey r) = true → Returns (pairValue A condition l r)
  | .aggregate child groupBy aggregates => child.Evaluates ∧
      (∀ row ∈ child.listRows A context, Returns (groupKey A groupBy row)) ∧
      ∀ group ∈ groupsOfRows A groupBy (child.listRows A context), Returns (groupRow A groupBy aggregates group.1 group.2)
  | .sort child orderBy => child.Evaluates ∧
      ∀ l ∈ child.listRows A context, ∀ r ∈ child.listRows A context, Returns (rowAfter A orderBy l r)
  | .limit child _ => child.Evaluates
  | .seqScan _ => True
  | .modifyTable _ _ _ _ _ _ => True

end Evaluations

variable {A context}

theorem Returns.bind {α β : Type} {r : Result α} {f : α → Result β} (hr : Returns r) (hf : ∀ a, r = .ok a → Returns (f a)) :
    Returns (r >>= f) := by
  obtain ⟨a, rfl⟩ := hr
  exact hf a rfl

theorem returns_mapRows {α β : Type} {f : α → Result β} : ∀ {xs : List α}, (∀ x ∈ xs, Returns (f x)) → Returns (mapRows f xs)
  | [], _ => ⟨[], rfl⟩
  | x :: xs, h => by
    refine (h x List.mem_cons_self).bind (fun y _ => ?_)
    exact (returns_mapRows (fun z hz => h z (List.mem_cons_of_mem _ hz))).bind (fun ys _ => ⟨_, rfl⟩)

theorem returns_foldlM {α σ : Type} {body : σ → α → Result σ} : ∀ {xs : List α} (s : σ),
    (∀ x ∈ xs, ∀ s, Returns (body s x)) → Returns (xs.foldlM body s)
  | [], s, _ => ⟨s, rfl⟩
  | x :: xs, s, h => by
    rw [List.foldlM_cons]
    exact (h x List.mem_cons_self s).bind (fun t _ => returns_foldlM t (fun y hy => h y (List.mem_cons_of_mem _ hy)))

theorem kept_failure {predicate : BoundExpr} {row : ExecutionRow} (h : Returns (evaluate A predicate row)) :
    (kept A predicate row).failure = none := by
  obtain ⟨v, hv⟩ := h
  rw [kept, hv]

theorem ofExcept_failure {α : Type} {r : Result α} (h : Returns r) : (Pull.ofExcept r).failure = none := by
  obtain ⟨a, rfl⟩ := h
  rfl

theorem joined_failure {condition : BoundExpr} {left right : ExecutionRow} (h : Returns (pairValue A condition left right)) :
    (joined A condition left right).failure = none := by
  obtain ⟨v, hv⟩ := h
  obtain ⟨merged, hm, hv⟩ := bind_eq_ok.1 hv
  rw [joined, hm]
  exact kept_failure ⟨v, hv⟩

theorem returns_matchesOf {leftKey condition : BoundExpr} {hash : HashTable} {left : ExecutionRow} {v : Scalar}
    (hv : evaluate A leftKey left = .ok v) (h : ∀ r ∈ hash.candidates v, Returns (pairValue A condition left r)) :
    Returns (Executor.matchesOf A leftKey condition hash left) := by
  have hnone : ((Pull.ofList (hash.candidates v)).bind (joined A condition left)).failure = none :=
    Pull.bind_failure.2 ⟨rfl, fun r hr => joined_failure (h r hr)⟩
  refine Returns.bind ⟨v, hv⟩ (fun w hw => ?_)
  cases hv.symm.trans hw
  exact ⟨_, Pull.drain_eq_ok.2 (by rw [← hnone])⟩

theorem returns_insertRow {orderBy : List BoundOrderItem} {row : ExecutionRow} : ∀ {rows : List ExecutionRow},
    (∀ r ∈ rows, Returns (rowAfter A orderBy row r)) → Returns (insertRow A orderBy row rows)
  | [], _ => ⟨_, rfl⟩
  | r :: rows, h => by
    refine (h r List.mem_cons_self).bind (fun after _ => ?_)
    cases after with
    | true => exact (returns_insertRow (fun r' hr' => h r' (List.mem_cons_of_mem _ hr'))).bind (fun rest _ => ⟨_, rfl⟩)
    | false => exact ⟨_, rfl⟩

theorem returns_sortRows {orderBy : List BoundOrderItem} : ∀ {rows : List ExecutionRow},
    (∀ l ∈ rows, ∀ r ∈ rows, Returns (rowAfter A orderBy l r)) → Returns (sortRows A orderBy rows)
  | [], _ => ⟨_, rfl⟩
  | row :: rows, h => by
    refine (@returns_sortRows _ rows
      (fun l hl r hr => h l (List.mem_cons_of_mem _ hl) r (List.mem_cons_of_mem _ hr))).bind (fun sorted hsorted => ?_)
    refine returns_insertRow (fun r hr => h row List.mem_cons_self r (List.mem_cons_of_mem _ ?_))
    rw [sortRows_eq hsorted] at hr
    exact (List.mem_insertionSort _).1 hr

theorem returns_groupResults {groupBy aggregates : List BoundExpr} {rows : List ExecutionRow} {groups : List Group}
    (hgroups : rows.foldlM (Executor.groupInto A groupBy) [] = .ok groups)
    (h : ∀ group ∈ groupsOfRows A groupBy rows, Returns (groupRow A groupBy aggregates group.1 group.2)) :
    Returns (Executor.groupResults A groupBy aggregates groups) := by
  refine returns_mapRows (fun g hg => h (g.key, g.rows) ?_)
  rw [groupInto_isEmpty hgroups] at hg
  unfold groupsOfRows
  split at hg
  · rename_i hnone
    rw [if_pos hnone]
    cases List.mem_singleton.1 hg
    exact List.mem_singleton.2 rfl
  · rename_i hsome
    rw [if_neg hsome]
    rw [groupInto_rows hgroups] at hg
    obtain ⟨g', hg', rfl⟩ := List.mem_map.1 hg
    exact List.mem_map.2 ⟨g', hg', rfl⟩

variable (A context)

/-- **Without a failing evaluation nothing fails.** -/
theorem PhysicalPlan.evaluates_pull : ∀ plan : PhysicalPlan, plan.isQuery = true → plan.Evaluates A context →
    ∃ p, plan.pull A context = .ok p ∧ p.failure = none ∧ p.items = plan.listRows A context := by
  intro plan hq he
  suffices h : ∃ p, plan.pull A context = .ok p ∧ p.failure = none by
    obtain ⟨p, hp, hnone⟩ := h
    exact ⟨p, hp, hnone, (plan.along A context hp).whole hnone⟩
  induction plan with
  | values rows => exact ⟨_, rfl, Pull.bind_failure.2 ⟨rfl, fun row hrow => ofExcept_failure (he row hrow)⟩⟩
  | seqScan table => exact ⟨_, rfl, rfl⟩
  | indexScan table indexId predicate lowerKey upperKey =>
    obtain ⟨lower, upper, tids, rfl, rfl, hrange, he⟩ := he
    refine ⟨fetchedRows A context table.tableId predicate [] tids, by simp only [PhysicalPlan.pull, hrange], ?_⟩
    refine Pull.bind_failure.2 ⟨rfl, fun row hrow => ?_⟩
    obtain ⟨q, hmem, rfl⟩ := List.mem_map.1 hrow
    cases predicate with
    | none => rfl
    | some predicate => exact kept_failure (he predicate rfl q hmem)
  | filter child predicate ih =>
    obtain ⟨p, hp, hnone⟩ := ih hq he.1
    have hitems := (child.along A context hp).whole hnone
    exact ⟨_, bind_eq_ok.2 ⟨p, hp, rfl⟩, Pull.bind_failure.2 ⟨hnone, fun row hrow => kept_failure (he.2 row (hitems ▸ hrow))⟩⟩
  | project child items ih =>
    obtain ⟨p, hp, hnone⟩ := ih hq he.1
    have hitems := (child.along A context hp).whole hnone
    exact ⟨_, bind_eq_ok.2 ⟨p, hp, rfl⟩, Pull.bind_failure.2 ⟨hnone, fun row hrow => ofExcept_failure (he.2 row (hitems ▸ hrow))⟩⟩
  | nestedLoopJoin left right condition ihl ihr =>
    obtain ⟨hql, hqr⟩ := Bool.and_eq_true_iff.1 hq
    obtain ⟨pl, hpl, hl⟩ := ihl hql he.1
    obtain ⟨pr, hpr, hr⟩ := ihr hqr he.2.1
    have hlefts := (left.along A context hpl).whole hl
    have hrights := (right.along A context hpr).whole hr
    refine ⟨_, bind_eq_ok.2 ⟨pl, hpl, bind_eq_ok.2
      ⟨pr, hpr, bind_eq_ok.2 ⟨pr.items, Pull.drain_eq_ok.2 (by rw [← hr]), rfl⟩⟩⟩, ?_⟩
    refine Pull.bind_failure.2 ⟨hl, fun l hlm => Pull.bind_failure.2 ⟨rfl, fun r hrm => joined_failure ?_⟩⟩
    exact he.2.2 l (hlefts ▸ hlm) r (hrights ▸ hrm)
  | hashJoin left right leftKey rightKey condition ihl ihr =>
    obtain ⟨hql, hqr⟩ := Bool.and_eq_true_iff.1 hq
    obtain ⟨hel, her, hlk, hrk, hpairs⟩ := he
    obtain ⟨pl, hpl, hl⟩ := ihl hql hel
    obtain ⟨pr, hpr, hr⟩ := ihr hqr her
    have hlefts := (left.along A context hpl).whole hl
    have hrights := (right.along A context hpr).whole hr
    obtain ⟨hash, hhash⟩ : Returns (pr.items.foldlM (Executor.hashRow A rightKey) []) :=
      returns_foldlM [] (fun r hrm s => (hrk r (hrights ▸ hrm)).bind (fun v _ => ⟨_, rfl⟩))
    refine ⟨_, bind_eq_ok.2 ⟨pl, hpl, bind_eq_ok.2 ⟨pr, hpr, bind_eq_ok.2 ⟨hash, Pull.fold_eq_ok.2 ⟨hr, hhash⟩, rfl⟩⟩⟩, ?_⟩
    refine Pull.bind_failure.2 ⟨hl, fun l hlm => ?_⟩
    obtain ⟨v, hv⟩ := hlk l (hlefts ▸ hlm)
    obtain ⟨ys, hys⟩ : Returns (Executor.matchesOf A leftKey condition hash l) := by
      refine returns_matchesOf hv (fun r hrm => ?_)
      rw [candidates_foldlM _ hhash, candidates_nil, List.nil_append, List.mem_filter] at hrm
      exact hpairs l (hlefts ▸ hlm) r (hrights ▸ hrm.1) (by rw [valueOf, toOption_ok hv]; exact hrm.2)
    rw [hys]
    rfl
  | aggregate child groupBy aggregates ih =>
    obtain ⟨hec, hkeys, hgroups⟩ := he
    obtain ⟨p, hp, hnone⟩ := ih hq hec
    have hitems := (child.along A context hp).whole hnone
    obtain ⟨groups, hfold⟩ : Returns (p.items.foldlM (Executor.groupInto A groupBy) []) :=
      returns_foldlM [] (fun row hrow s => (hkeys row (hitems ▸ hrow)).bind (fun x _ => ⟨_, rfl⟩))
    obtain ⟨results, hresults⟩ : Returns (Executor.groupResults A groupBy aggregates groups) :=
      returns_groupResults hfold (hitems ▸ hgroups)
    exact ⟨_, bind_eq_ok.2 ⟨p, hp, bind_eq_ok.2 ⟨groups, Pull.fold_eq_ok.2 ⟨hnone, hfold⟩,
      bind_eq_ok.2 ⟨results, hresults, rfl⟩⟩⟩, rfl⟩
  | sort child orderBy ih =>
    obtain ⟨p, hp, hnone⟩ := ih hq he.1
    have hitems := (child.along A context hp).whole hnone
    obtain ⟨sorted, hsorted⟩ : Returns (sortRows A orderBy p.items) := returns_sortRows (by rw [hitems]; exact he.2)
    exact ⟨_, bind_eq_ok.2 ⟨p, hp, bind_eq_ok.2 ⟨p.items, Pull.drain_eq_ok.2 (by rw [← hnone]),
      bind_eq_ok.2 ⟨sorted, hsorted, rfl⟩⟩⟩, rfl⟩
  | limit child n ih =>
    obtain ⟨p, hp, hnone⟩ := ih hq he
    refine ⟨_, bind_eq_ok.2 ⟨p, hp, rfl⟩, ?_⟩
    unfold Pull.take
    split
    · rfl
    · exact hnone
  | modifyTable => cases hq

theorem Executor.returns_build : ∀ plan : PhysicalPlan, plan.isQuery = true → plan.Evaluates A context →
    Returns (Executor.build plan) := by
  intro plan hq he
  induction plan with
  | values rows => exact ⟨_, rfl⟩
  | seqScan table => exact ⟨_, rfl⟩
  | indexScan table indexId predicate lowerKey upperKey =>
    obtain ⟨lower, upper, tids, rfl, rfl, -⟩ := he
    exact ⟨_, rfl⟩
  | filter child predicate ih => exact (ih hq he.1).bind (fun e _ => ⟨_, rfl⟩)
  | project child items ih => exact (ih hq he.1).bind (fun e _ => ⟨_, rfl⟩)
  | nestedLoopJoin left right condition ihl ihr =>
    obtain ⟨hql, hqr⟩ := Bool.and_eq_true_iff.1 hq
    exact (ihl hql he.1).bind (fun l _ => (ihr hqr he.2.1).bind (fun r _ => ⟨_, rfl⟩))
  | hashJoin left right leftKey rightKey condition ihl ihr =>
    obtain ⟨hql, hqr⟩ := Bool.and_eq_true_iff.1 hq
    exact (ihl hql he.1).bind (fun l _ => (ihr hqr he.2.1).bind (fun r _ => ⟨_, rfl⟩))
  | aggregate child groupBy aggregates ih => exact (ih hq he.1).bind (fun e _ => ⟨_, rfl⟩)
  | sort child orderBy ih => exact (ih hq he.1).bind (fun e _ => ⟨_, rfl⟩)
  | limit child n ih => exact (ih hq he).bind (fun e _ => ⟨_, rfl⟩)
  | modifyTable => cases hq

/-! ## Volcano execution -/

/-- **Volcano execution is list semantics.**  A query plan comes to an outcome; rows that it returns are the list of the plan, and
it returns them unless an evaluation on the rows of the plan raises. -/
theorem PhysicalPlan.execute_listRows {plan : PhysicalPlan} (hq : plan.isQuery = true) :
    ∃ outcome, Comes (fun n => plan.execute A context n) outcome ∧
      (∀ rows e, outcome = .ok (rows, e) → rows = plan.listRows A context) ∧
      (plan.Evaluates A context → ∃ e, outcome = .ok (plan.listRows A context, e)) := by
  unfold PhysicalPlan.execute
  cases hb : Executor.build plan with
  | error error =>
    refine ⟨.error error, Comes.congr (comes_done _) (fun n => rfl), fun rows e h => (by cases h), fun he => ?_⟩
    obtain ⟨e, hok⟩ := Executor.returns_build A context plan hq he
    rw [hb] at hok
    cases hok
  | ok e =>
    obtain ⟨outcome, hc, hr⟩ := Executor.collect_results A context hb
    refine ⟨outcome, hc, fun rows e h => ?_, fun he => ?_⟩
    · subst h
      obtain ⟨p, hp, hd⟩ := bind_eq_ok.1 hr.symm
      exact (plan.along A context hp).drain hd
    · obtain ⟨p, hp, hnone, hitems⟩ := plan.evaluates_pull A context hq he
      have hd : p.drain = .ok (plan.listRows A context) := Pull.drain_eq_ok.2 (by rw [← hnone, ← hitems])
      rw [hp] at hr
      have hr : outcome.map Prod.fst = .ok (plan.listRows A context) := hr.trans hd
      cases outcome with
      | error error => cases hr
      | ok x =>
        obtain ⟨rows, e'⟩ := x
        cases hr
        exact ⟨e', rfl⟩

def numbers : ExecutionContext :=
  ⟨fun table => if table = 1 then [(⟨0, 0⟩, [.int 1]), (⟨0, 1⟩, [.int 2]), (⟨0, 2⟩, [.int 3])]
    else [(⟨0, 0⟩, [.int 3]), (⟨0, 1⟩, [.int 2])], fun _ _ _ _ => none, fun _ _ => none⟩

def numberColumn (tableId : Nat) : BoundExpr := .column ⟨tableId, 0⟩ ['n'] .int64 true

/-- `a.n > 1`. -/
def moreThanOne : BoundExpr := .binary (numberColumn 1) .gt (.literal (.int 1) (some .int64) false) .boolean true

/-- `a.n = b.n`. -/
def sameNumbers : BoundExpr := .binary (numberColumn 1) .eq (numberColumn 2) .boolean true

/-- The rows of `a JOIN b ON a.n = b.n` with `a.n > 1`. -/
def joinedNumbers : PhysicalPlan :=
  .nestedLoopJoin (.filter (.seqScan ⟨1, ⟨[]⟩⟩) moreThanOne) (.seqScan ⟨2, ⟨[]⟩⟩) sameNumbers

/-- `ORDER BY a.n DESC LIMIT 1`. -/
def largestJoined : PhysicalPlan := .limit (.sort joinedNumbers [⟨numberColumn 1, .desc, none⟩]) 1

theorem returns_isOk {α : Type} {r : Result α} (h : r.toOption.isSome = true) : Returns r := by
  cases r with
  | error e => cases h
  | ok a    => exact ⟨a, rfl⟩

theorem joinedNumbers_evaluates : joinedNumbers.Evaluates FloatArith.unused numbers := by
  refine ⟨⟨trivial, fun row hrow => returns_isOk ?_⟩, trivial, fun l hl r hr => returns_isOk ?_⟩
  · revert row; decide
  · revert l r; decide

theorem largestJoined_evaluates : largestJoined.Evaluates FloatArith.unused numbers := by
  refine ⟨joinedNumbers_evaluates, fun l hl r hr => returns_isOk ?_⟩
  revert l r; decide

/-- The filter keeps 2 and 3, the join both of them, and the limit the row that the sort puts first. -/
theorem execute_listRows_largest : ∃ e, Comes (fun n => largestJoined.execute FloatArith.unused numbers n)
    (.ok ([⟨[(⟨1, 0⟩, .int 3), (⟨2, 0⟩, .int 3)], [(1, ⟨0, 2⟩), (2, ⟨0, 0⟩)], []⟩], e)) := by
  obtain ⟨outcome, hc, -, hreturns⟩ :=
    PhysicalPlan.execute_listRows FloatArith.unused numbers (show largestJoined.isQuery = true from rfl)
  obtain ⟨e, rfl⟩ := hreturns largestJoined_evaluates
  exact ⟨e, hc⟩

end MiniPostgres
