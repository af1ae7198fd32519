import MiniPostgres.Volcano
/-!
# VolcanoSpec — what the executors give

Every state of an opened executor has a rest: the rows that its next calls give.  A call gives the first row of the rest and
leaves a state for the others, so the loop of `collect` gives what the plan gives as a whole.
-/
namespace MiniPostgres

open Operators Cursor Fueled

variable (A : FloatArith) (context : ExecutionContext)

/-! ## What is left of an executor -/

/-- The visible versions behind the candidates of an index, each at its first candidate. -/
def fetched (tableId : Nat) : List TID → List TID → List (TID × Values)
  | _, []             => []
  | seen, tid :: rest =>
    match context.resolve tableId tid with
    | none   => fetched tableId seen rest
    | some p => if p.1 ∈ seen then fetched tableId seen rest else p :: fetched tableId (p.1 :: seen) rest

/-- The predicate of an index scan may be missing. -/
def keptBy (predicate : Option BoundExpr) (row : ExecutionRow) : Pull Error ExecutionRow :=
  match predicate with
  | none   => .ofList [row]
  | some p => kept A p row

def fetchedRows (tableId : Nat) (predicate : Option BoundExpr) (seen tids : List TID) : Pull Error ExecutionRow :=
  (Pull.ofList ((fetched context tableId seen tids).map (fun p => tableRow tableId p.1 p.2))).bind (keptBy A predicate)

namespace Executor

def rest : Executor → Pull Error ExecutionRow
  | .values _ rows index => (Pull.ofList (rows.drop index)).bind (fun row => .ofExcept (valuesRow A row))
  | .seqScan _ tableId iterator => .ofList (iterator.map (fun p => tableRow tableId p.1 p.2))
  | .indexScan _ tableId _ _ _ predicate iterator seenVisible => fetchedRows A context tableId predicate seenVisible iterator
  | .filter _ child predicate => child.rest.bind (kept A predicate)
  | .project _ child items => child.rest.bind (fun row => .ofExcept (projectRow A items row))
  | .nestedLoopJoin _ left _ condition rightRows leftRow rightIndex =>
    ((Pull.ofList leftRow.toList).bind (joinedAll A condition (rightRows.drop rightIndex))).append
      (left.rest.bind (joinedAll A condition rightRows))
  | .hashJoin _ left _ leftKey _ condition hash found matchIndex =>
    (Pull.ofList (found.drop matchIndex)).append (left.rest.bind (fun row => .ofResult (matchesOf A leftKey condition hash row)))
  | .aggregate _ _ _ _ results index => .ofList (results.drop index)
  | .sort _ _ _ rows index => .ofList (rows.drop index)
  | .limit _ child count emitted => child.rest.take (count - emitted)

/-- An open executor with open children, down to the given depth; the right input of a join has been read, and so has the input
of an aggregate or a sort. -/
def Ready : Nat → Executor → Prop
  | 0, _                                    => False
  | _ + 1, .values l _ _                    => l = .opened
  | _ + 1, .seqScan l _ _                   => l = .opened
  | _ + 1, .indexScan l _ _ _ _ _ _ _       => l = .opened
  | h + 1, .filter l child _                => l = .opened ∧ Ready h child
  | h + 1, .project l child _               => l = .opened ∧ Ready h child
  | h + 1, .nestedLoopJoin l left _ _ _ _ _ => l = .opened ∧ Ready h left
  | h + 1, .hashJoin l left _ _ _ _ _ _ _   => l = .opened ∧ Ready h left
  | _ + 1, .aggregate l _ _ _ _ _           => l = .opened
  | _ + 1, .sort l _ _ _ _                  => l = .opened
  | h + 1, .limit l child _ _               => l = .opened ∧ Ready h child

/-- A ready executor with this rest. -/
def Leaves (h : Nat) (e : Executor) (p : Pull Error ExecutionRow) : Prop := Ready h e ∧ rest A context e = p

/-- Every call of an executor with this rest is right. -/
abbrev Turns (h : Nat) (e : Executor) (p : Pull Error ExecutionRow) : Prop :=
  Delivers (Leaves A context h) (fun n => next A context n e) p

variable {A context} {h : Nat}

/-! ## One call -/

theorem values_turns (rows : List (List BoundExpr)) (index : Nat) :
    Turns A context (h + 1) (.values .opened rows index) (rest A context (.values .opened rows index)) := by
  simp only [rest]
  cases hrow : rows[index]? with
  | none =>
    rw [List.drop_eq_nil_of_le (List.getElem?_eq_none_iff.1 hrow)]
    exact .ended (Comes.now fun n => by simp only [next, hrow]; rfl)
  | some expressions =>
    obtain ⟨hlt, hget⟩ := List.getElem?_eq_some_iff.1 hrow
    rw [List.drop_eq_getElem_cons hlt, hget, Pull.ofList, Pull.bind_cons]
    cases hr : valuesRow A expressions with
    | error e => exact .failed (Comes.now fun n => by simp only [next, hrow, hr]; rfl)
    | ok row =>
      exact .single (s := Executor.values .opened rows (index + 1))
        (Comes.now fun n => by simp only [next, hrow, hr]; rfl) ⟨rfl, rfl⟩

theorem seqScan_turns (tableId : Nat) (iterator : List (TID × Values)) :
    Turns A context (h + 1) (.seqScan .opened tableId iterator) (rest A context (.seqScan .opened tableId iterator)) := by
  cases iterator with
  | nil => exact .ended (Comes.now fun n => rfl)
  | cons p iterator => exact .item (Comes.now fun n => rfl) ⟨rfl, rfl⟩

theorem indexScan_turns (tableId indexId : Nat) (lowerKey upperKey : Key) (predicate : Option BoundExpr) :
    ∀ tids seen : List TID, Turns A context (h + 1) (.indexScan .opened tableId indexId lowerKey upperKey predicate tids seen)
      (fetchedRows A context tableId predicate seen tids) := by
  intro tids
  induction tids with
  | nil => exact fun seen => .ended (Comes.now fun n => rfl)
  | cons tid tids ih =>
    intro seen
    cases hres : context.resolve tableId tid with
    | none =>
      simp only [fetchedRows, fetched, hres] at ih ⊢
      exact (ih seen).round (fun n => by simp only [next, hres])
    | some p =>
      obtain ⟨visibleTid, tuple⟩ := p
      by_cases hseen : visibleTid ∈ seen
      · simp only [fetchedRows, fetched, hres, if_pos hseen] at ih ⊢
        exact (ih seen).round (fun n => by simp only [next, hres, if_pos hseen])
      · have hsplit : fetchedRows A context tableId predicate seen (tid :: tids) =
            (keptBy A predicate (tableRow tableId visibleTid tuple)).append
              (fetchedRows A context tableId predicate (visibleTid :: seen) tids) := by
          simp only [fetchedRows, fetched, hres, if_neg hseen, List.map_cons, Pull.ofList]
          exact Pull.bind_cons _ _ _ _
        rw [hsplit]
        cases predicate with
        | none =>
          refine .single (s := Executor.indexScan .opened tableId indexId lowerKey upperKey none tids (visibleTid :: seen))
            (Comes.now fun n => ?_) ⟨rfl, rfl⟩
          simp only [next, hres, if_neg hseen]
          rfl
        | some predicate =>
          simp only [keptBy, kept]
          cases hv : evaluate A predicate (tableRow tableId visibleTid tuple) with
          | error e => exact .failed (Comes.now fun n => by simp only [next, hres, if_neg hseen, hv]; rfl)
          | ok v =>
            by_cases htrue : v = .bool true
            · simp only [if_pos htrue]
              refine .single (s := Executor.indexScan .opened tableId indexId lowerKey upperKey
                (some predicate) tids (visibleTid :: seen))
                (Comes.now fun n => ?_) ⟨rfl, rfl⟩
              simp only [next, hres, if_neg hseen, hv]
              exact if_pos htrue
            · simp only [if_neg htrue]
              refine (ih (visibleTid :: seen)).round (fun n => ?_)
              simp only [next, hres, if_neg hseen, hv]
              exact if_neg htrue

theorem nestedLoopJoin_pairs (left right : Executor) (condition : BoundExpr) (rightRows : List ExecutionRow)
    (leftRow : ExecutionRow) {later : Pull Error ExecutionRow} (hready : Ready h left)
    (hlater : (left.rest A context).bind (joinedAll A condition rightRows) = later)
    (hnone : ∀ i, Turns A context (h + 1) (.nestedLoopJoin .opened left right condition rightRows none i) later) :
    ∀ (pairs : List ExecutionRow) (i : Nat), rightRows.drop i = pairs →
      Turns A context (h + 1) (.nestedLoopJoin .opened left right condition rightRows (some leftRow) i)
        ((joinedAll A condition pairs leftRow).append later) := by
  intro pairs
  induction pairs with
  | nil =>
    intro i hi
    have hend : rightRows[i]? = none := List.getElem?_eq_none_iff.2 (List.drop_eq_nil_iff.1 hi)
    exact (hnone i).round (fun n => by simp only [next, hend])
  | cons right' pairs ih =>
    intro i hi
    have hlt : i < rightRows.length := by
      by_contra hge
      rw [List.drop_eq_nil_of_le (by omega)] at hi
      cases hi
    rw [List.drop_eq_getElem_cons hlt] at hi
    obtain ⟨rfl, hrest⟩ := List.cons.inj hi
    have hget : rightRows[i]? = some rightRows[i] := List.getElem?_eq_getElem hlt
    have hsplit : joinedAll A condition (rightRows[i] :: pairs) leftRow =
        (joined A condition leftRow rightRows[i]).append (joinedAll A condition pairs leftRow) := Pull.bind_cons _ _ _ _
    rw [hsplit, Pull.append_assoc, joined]
    cases hm : leftRow.merge rightRows[i] with
    | error e => exact .failed (Comes.now fun n => by simp only [next, hget, hm]; rfl)
    | ok merged =>
      simp only [kept]
      cases hv : evaluate A condition merged with
      | error e =>
        refine .failed (Comes.now fun n => ?_)
        simp only [next, hget, hm]
        show (done (evaluate A condition merged) >>= _) = _
        rw [hv]
        rfl
      | ok v =>
        by_cases htrue : v = .bool true
        · simp only [if_pos htrue]
          refine .single (s := Executor.nestedLoopJoin .opened left right condition rightRows (some leftRow) (i + 1))
            (Comes.now fun n => ?_) ⟨⟨rfl, hready⟩, ?_⟩
          · simp only [next, hget, hm]
            show (done (evaluate A condition merged) >>= _) = _
            rw [hv]
            exact if_pos htrue
          · simp only [rest, Option.toList_some, hrest, hlater]
            rw [Pull.ofList, Pull.bind_cons]
            show Pull.append ((joinedAll A condition pairs leftRow).append (Pull.ofList [])) later = _
            rw [Pull.append_empty]
        · simp only [if_neg htrue]
          refine (ih (i + 1) hrest).round (fun n => ?_)
          simp only [next, hget, hm]
          show (done (evaluate A condition merged) >>= _) = _
          rw [hv]
          exact if_neg htrue

theorem hashJoin_found (left right : Executor) (leftKey rightKey condition : BoundExpr) (hash : HashTable)
    {found : List ExecutionRow} {i : Nat} {row : ExecutionRow} {p : Pull Error ExecutionRow} (hl : Leaves A context h left p)
    (hget : found[i]? = some row) : Turns A context (h + 1) (.hashJoin .opened left right leftKey rightKey condition hash found i)
      ((Pull.ofList (found.drop i)).append (p.bind (fun row => .ofResult (matchesOf A leftKey condition hash row)))) := by
  obtain ⟨hlt, rfl⟩ := List.getElem?_eq_some_iff.1 hget
  rw [List.drop_eq_getElem_cons hlt]
  refine .item (s := Executor.hashJoin .opened left right leftKey rightKey condition hash found (i + 1))
    (Comes.now fun n => by simp only [next, hget]; rfl) ⟨⟨rfl, hl.1⟩, ?_⟩
  simp only [rest, hl.2]
  rfl

/-! ### Operators with a child -/

variable (hchild : ∀ e p, Leaves A context h e p → Turns A context h e p)
include hchild

theorem filter_turns (predicate : BoundExpr) : ∀ (items : List ExecutionRow) (failure : Option Error) (child : Executor),
    Leaves A context h child ⟨items, failure⟩ →
    Turns A context (h + 1) (.filter .opened child predicate) (Pull.bind ⟨items, failure⟩ (kept A predicate)) := by
  intro items failure
  induction items with
  | nil =>
    intro child hc
    cases hchild child _ hc with
    | ended hn => exact .ended ((hn.bind (comes_pure _)).round (fun n => rfl))
    | failed hn => exact .failed (hn.bind_error.round (fun n => rfl))
  | cons row rows ih =>
    intro child hc
    cases hchild child _ hc with
    | item hn hs =>
      rename_i child'
      rw [Pull.bind_cons]
      simp only [kept]
      cases hv : evaluate A predicate row with
      | error e =>
        refine .failed ((hn.bind (Comes.congr (comes_done _) (fun n => ?_))).round (fun n => rfl))
        simp only [hv]
        rfl
      | ok v =>
        by_cases htrue : v = .bool true
        · simp only [if_pos htrue]
          refine .single (s := Executor.filter .opened child' predicate)
            ((hn.bind (Comes.congr (comes_pure _) (fun n => ?_))).round (fun n => rfl)) ⟨⟨rfl, hs.1⟩, ?_⟩
          · simp only [hv]
            exact if_pos htrue
          · simp only [rest, hs.2]
        · simp only [if_neg htrue]
          refine (Delivers.bind hn ((ih child' hs).congr (fun n => ?_))).round (fun n => rfl)
          simp only [hv]
          exact if_neg htrue

theorem project_turns (columns : List BoundSelectItem) (items : List ExecutionRow) (failure : Option Error) (child : Executor)
    (hc : Leaves A context h child ⟨items, failure⟩) : Turns A context (h + 1) (.project .opened child columns)
      (Pull.bind ⟨items, failure⟩ (fun row => .ofExcept (projectRow A columns row))) := by
  cases hchild child _ hc with
  | ended hn => exact .ended ((hn.bind (comes_pure _)).round (fun n => rfl))
  | failed hn => exact .failed (hn.bind_error.round (fun n => rfl))
  | item hn hs =>
    rename_i row rows child'
    rw [Pull.bind_cons]
    cases hv : projectRow A columns row with
    | error e =>
      refine .failed ((hn.bind (Comes.congr (comes_done _) (fun n => ?_))).round (fun n => rfl))
      simp only [hv]
      rfl
    | ok out =>
      refine .single (s := Executor.project .opened child' columns)
        ((hn.bind (Comes.congr (comes_pure _) (fun n => ?_))).round (fun n => rfl)) ⟨⟨rfl, hs.1⟩, ?_⟩
      · simp only [hv]
        rfl
      · simp only [rest, hs.2]

theorem nestedLoopJoin_turns (right : Executor) (condition : BoundExpr) (rightRows : List ExecutionRow) :
    ∀ (items : List ExecutionRow) (failure : Option Error) (left : Executor), Leaves A context h left ⟨items, failure⟩ →
    ∀ i, Turns A context (h + 1) (.nestedLoopJoin .opened left right condition rightRows none i)
      (Pull.bind ⟨items, failure⟩ (joinedAll A condition rightRows)) := by
  intro items failure
  induction items with
  | nil =>
    intro left hl i
    cases hchild left _ hl with
    | ended hn => exact .ended ((hn.bind (comes_pure _)).round (fun n => rfl))
    | failed hn => exact .failed (hn.bind_error.round (fun n => rfl))
  | cons row rows ih =>
    intro left hl i
    cases hchild left _ hl with
    | item hn hs =>
      rename_i left'
      rw [Pull.bind_cons]
      exact (Delivers.bind hn (nestedLoopJoin_pairs left' right condition rightRows row hs.1 (by rw [hs.2]) (ih left' hs)
        rightRows 0 List.drop_zero)).round (fun n => rfl)

theorem hashJoin_turns (right : Executor) (leftKey rightKey condition : BoundExpr) (hash : HashTable) :
    ∀ (items : List ExecutionRow) (failure : Option Error) (left : Executor), Leaves A context h left ⟨items, failure⟩ →
    ∀ found i, Turns A context (h + 1) (.hashJoin .opened left right leftKey rightKey condition hash found i)
      ((Pull.ofList (found.drop i)).append
        (Pull.bind ⟨items, failure⟩ (fun row => .ofResult (matchesOf A leftKey condition hash row)))) := by
  intro items failure
  induction items with
  | nil =>
    intro left hl found i
    cases hget : found[i]? with
    | some row => exact hashJoin_found left right leftKey rightKey condition hash hl hget
    | none =>
      rw [List.drop_eq_nil_of_le (List.getElem?_eq_none_iff.1 hget)]
      cases hchild left _ hl with
      | ended hn => exact .ended ((hn.bind (comes_pure _)).round (fun n => by simp only [next, hget]; rfl))
      | failed hn => exact .failed (hn.bind_error.round (fun n => by simp only [next, hget]; rfl))
  | cons row rows ih =>
    intro left hl found i
    cases hget : found[i]? with
    | some row => exact hashJoin_found left right leftKey rightKey condition hash hl hget
    | none =>
      rw [List.drop_eq_nil_of_le (List.getElem?_eq_none_iff.1 hget), Pull.empty_append, Pull.bind_cons]
      cases hchild left _ hl with
      | item hn hs =>
        rename_i left'
        cases hm : matchesOf A leftKey condition hash row with
        | error e =>
          refine .failed ((hn.bind (Comes.congr (comes_done _) (fun n => ?_))).round (fun n => by simp only [next, hget]; rfl))
          simp only [hm]
          rfl
        | ok matching =>
          refine (Delivers.bind hn ((ih left' hs matching 0).congr (fun n => ?_))).round (fun n => by simp only [next, hget]; rfl)
          simp only [hm]
          rfl

theorem limit_turns (count emitted : Nat) (items : List ExecutionRow) (failure : Option Error) (child : Executor)
    (hc : Leaves A context h child ⟨items, failure⟩) : Turns A context (h + 1) (.limit .opened child count emitted)
      (Pull.take (count - emitted) ⟨items, failure⟩) := by
  by_cases hend : count ≤ emitted
  · rw [Nat.sub_eq_zero_of_le hend, Pull.take_zero]
    exact .ended (Comes.now fun n => by simp only [next, if_pos hend]; rfl)
  · obtain ⟨k, hk⟩ : ∃ k, count - emitted = k + 1 := ⟨count - emitted - 1, by omega⟩
    rw [hk]
    cases hchild child _ hc with
    | ended hn => exact .ended ((hn.bind (comes_pure _)).round (fun n => by simp only [next, if_neg hend]; rfl))
    | failed hn => exact .failed (hn.bind_error.round (fun n => by simp only [next, if_neg hend]; rfl))
    | item hn hs =>
      rename_i row rows child'
      rw [Pull.take_cons]
      refine .single (s := Executor.limit .opened child' count (emitted + 1))
        ((hn.bind (comes_pure _)).round (fun n => by simp only [next, if_neg hend]; rfl)) ⟨⟨rfl, hs.1⟩, ?_⟩
      simp only [rest, hs.2]
      rw [show count - (emitted + 1) = k by omega]

omit hchild

theorem aggregate_turns (child : Executor) (groupBy aggregates : List BoundExpr) (results : List ExecutionRow) (index : Nat) :
    Turns A context (h + 1) (.aggregate .opened child groupBy aggregates results index) (.ofList (results.drop index)) := by
  cases hrow : results[index]? with
  | none =>
    rw [List.drop_eq_nil_of_le (List.getElem?_eq_none_iff.1 hrow)]
    exact .ended (Comes.now fun n => by simp only [next, hrow]; rfl)
  | some row =>
    obtain ⟨hlt, rfl⟩ := List.getElem?_eq_some_iff.1 hrow
    rw [List.drop_eq_getElem_cons hlt]
    exact .item (s := Executor.aggregate .opened child groupBy aggregates results (index + 1))
      (Comes.now fun n => by simp only [next, hrow]; rfl) ⟨rfl, rfl⟩

theorem sort_turns (child : Executor) (orderBy : List BoundOrderItem) (rows : List ExecutionRow) (index : Nat) :
    Turns A context (h + 1) (.sort .opened child orderBy rows index) (.ofList (rows.drop index)) := by
  cases hrow : rows[index]? with
  | none =>
    rw [List.drop_eq_nil_of_le (List.getElem?_eq_none_iff.1 hrow)]
    exact .ended (Comes.now fun n => by simp only [next, hrow]; rfl)
  | some row =>
    obtain ⟨hlt, rfl⟩ := List.getElem?_eq_some_iff.1 hrow
    rw [List.drop_eq_getElem_cons hlt]
    exact .item (s := Executor.sort .opened child orderBy rows (index + 1))
      (Comes.now fun n => by simp only [next, hrow]; rfl) ⟨rfl, rfl⟩

variable (A context)

/-- **Every call on a ready executor gives the first row of its rest.** -/
theorem next_turns : ∀ (h : Nat) (e : Executor) (p : Pull Error ExecutionRow), Leaves A context h e p → Turns A context h e p
  | 0, _, _, hl => hl.1.elim
  | h + 1, e, _, ⟨hready, hrest⟩ => by
    subst hrest
    cases e with
    | values => cases hready; exact values_turns _ _
    | seqScan => cases hready; exact seqScan_turns _ _
    | indexScan => cases hready; exact indexScan_turns _ _ _ _ _ _ _
    | filter => obtain ⟨rfl, hc⟩ := hready; exact filter_turns (next_turns h) _ _ _ _ ⟨hc, rfl⟩
    | project => obtain ⟨rfl, hc⟩ := hready; exact project_turns (next_turns h) _ _ _ _ ⟨hc, rfl⟩
    | nestedLoopJoin l left right condition rightRows leftRow rightIndex =>
      obtain ⟨rfl, hc⟩ := hready
      have hnone := nestedLoopJoin_turns (next_turns h) right condition rightRows _ _ left ⟨hc, rfl⟩
      cases leftRow with
      | none => exact hnone rightIndex
      | some leftRow =>
        have hpairs := nestedLoopJoin_pairs left right condition rightRows leftRow hc rfl hnone _ rightIndex rfl
        simp only [rest, Option.toList_some, Pull.ofList]
        rw [Pull.bind_cons]
        exact (Pull.append_empty (joinedAll A condition (rightRows.drop rightIndex) leftRow)).symm ▸ hpairs
    | hashJoin => obtain ⟨rfl, hc⟩ := hready; exact hashJoin_turns (next_turns h) _ _ _ _ _ _ _ _ ⟨hc, rfl⟩ _ _
    | aggregate => cases hready; exact aggregate_turns _ _ _ _ _
    | sort => cases hready; exact sort_turns _ _ _ _
    | limit => obtain ⟨rfl, hc⟩ := hready; exact limit_turns (next_turns h) _ _ _ _ _ ⟨hc, rfl⟩

end Executor

/-! ## Whole plans -/

def PhysicalPlan.pull : PhysicalPlan → Result (Pull Error ExecutionRow)
  | .values rows => .ok ((Pull.ofList rows).bind (fun row => .ofExcept (valuesRow A row)))
  | .seqScan table => .ok (.ofList ((context.scan table.tableId).map (fun p => tableRow table.tableId p.1 p.2)))
  | .indexScan table indexId predicate (some lowerKey) (some upperKey) =>
    match context.range table.tableId indexId lowerKey upperKey with
    | none      => raise .constraintViolation ("unknown runtime index: " ++ toString indexId)
    | some tids => .ok (fetchedRows A context table.tableId predicate [] tids)
  | .indexScan _ _ _ _ _ => raise .typeError "physical index scan is missing encoded bounds"
  | .filter child predicate => do
    let rows ← child.pull
    .ok (rows.bind (kept A predicate))
  | .project child items => do
    let rows ← child.pull
    .ok (rows.bind (fun row => .ofExcept (projectRow A items row)))
  | .nestedLoopJoin left right condition => do
    let lefts ← left.pull
    let opened ← right.pull
    let rights ← opened.drain
    .ok (lefts.bind (joinedAll A condition rights))
  | .hashJoin left right leftKey rightKey condition => do
    let lefts ← left.pull
    let opened ← right.pull
    let hash ← opened.fold (Executor.hashRow A rightKey) []
    .ok (lefts.bind (fun row => .ofResult (Executor.matchesOf A leftKey condition hash row)))
  | .aggregate child groupBy aggregates => do
    let opened ← child.pull
    let groups ← opened.fold (Executor.groupInto A groupBy) []
    let results ← Executor.groupResults A groupBy aggregates groups
    .ok (.ofList results)
  | .sort child orderBy => do
    let opened ← child.pull
    let rows ← opened.drain
    let sorted ← sortRows A orderBy rows
    .ok (.ofList sorted)
  | .limit child n => do
    let rows ← child.pull
    .ok (rows.take n)
  | .modifyTable .. => raise .typeError "physical plan has no query executor"

/-- The depth of the executors that are called after a plan was opened. -/
def PhysicalPlan.depth : PhysicalPlan → Nat
  | .filter child _          => child.depth + 1
  | .project child _         => child.depth + 1
  | .nestedLoopJoin left _ _ => left.depth + 1
  | .hashJoin left _ _ _ _   => left.depth + 1
  | .limit child _           => child.depth + 1
  | _                        => 1

namespace Executor

/-- The outcome of opening an executor: one that is ready and leaves all rows, or a failure. -/
inductive Opens (h : Nat) (call : Nat → Fueled Error Executor) : Result (Pull Error ExecutionRow) → Prop
  | opened {e : Executor} {p : Pull Error ExecutionRow} :
      Comes call (.ok e) → Leaves A context h e p → Opens h call (.ok p)
  | failed {error : Error} : Comes call (.error error) → Opens h call (.error error)

variable {A context} {h : Nat}

theorem Leaves.consumed {σ : Type} {e : Executor} {p : Pull Error ExecutionRow} (hl : Leaves A context h e p)
    (body : σ → ExecutionRow → Result σ) (s : σ) : Results (fun n => consume A context body n s e) (p.fold body s) :=
  consume_results (next_turns A context h) body p.items p.failure s e hl

theorem Leaves.drained {e : Executor} {p : Pull Error ExecutionRow} (hl : Leaves A context h e p) :
    Results (fun n => drain A context n e) p.drain := by
  have hd := hl.consumed (fun rows row => .ok (rows ++ [row])) []
  rw [Pull.fold_append] at hd
  cases hp : p.drain with
  | error error => rw [hp] at hd; exact hd
  | ok rows => rw [hp] at hd; exact hd

theorem Opens.bind {h' : Nat} {call : Nat → Fueled Error Executor} {g : Executor → Nat → Fueled Error Executor}
    {r : Result (Pull Error ExecutionRow)} {f : Pull Error ExecutionRow → Result (Pull Error ExecutionRow)}
    (hr : Opens A context h call r) (hg : ∀ e p, Leaves A context h e p → Opens A context h' (g e) (f p)) :
    Opens A context h' (fun n => call n >>= fun e => g e n) (r >>= f) := by
  cases hr with
  | failed hc => exact .failed hc.bind_error
  | opened hc hl =>
    rename_i e p
    have hgo := hg e p hl
    show Opens A context h' _ (f p)
    generalize f p = q at hgo ⊢
    cases hgo with
    | opened hc' hl' => exact .opened (hc.bind hc') hl'
    | failed hc' => exact .failed (hc.bind hc')

theorem Opens.after {α : Type} {call : Nat → Fueled Error (α × Executor)} {g : α × Executor → Nat → Fueled Error Executor}
    {r : Result α} {f : α → Result (Pull Error ExecutionRow)} (hr : Results call r)
    (hg : ∀ a e, Opens A context h (g (a, e)) (f a)) : Opens A context h (fun n => call n >>= fun x => g x n) (r >>= f) := by
  cases r with
  | error error => exact .failed hr.error.bind_error
  | ok a =>
    obtain ⟨e, hc⟩ := hr.ok
    have hgo := hg a e
    show Opens A context h _ (f a)
    generalize f a = q at hgo ⊢
    cases hgo with
    | opened hc' hl' => exact .opened (hc.bind hc') hl'
    | failed hc' => exact .failed (hc.bind hc')

theorem Opens.lift {α : Type} {g : α → Nat → Fueled Error Executor} {r : Result α}
    {f : α → Result (Pull Error ExecutionRow)} (hg : ∀ a, Opens A context h (g a) (f a)) :
    Opens A context h (fun n => done r >>= fun x => g x n) (r >>= f) := by
  cases r with
  | error error => exact .failed (Comes.congr (comes_done _) (fun n => rfl))
  | ok a => exact hg a

variable (A context)

/-- **Opening the executor of a plan.** -/
theorem open_opens : ∀ (plan : PhysicalPlan) (e : Executor), build plan = .ok e →
    Opens A context plan.depth (fun n => open_ A context n e) (plan.pull A context) := by
  intro plan
  induction plan with
  | values rows =>
    intro e he
    cases he
    exact .opened (comes_pure _) ⟨rfl, rfl⟩
  | seqScan table =>
    intro e he
    cases he
    exact .opened (comes_pure _) ⟨rfl, rfl⟩
  | indexScan table indexId predicate lowerKey upperKey =>
    intro e he
    cases lowerKey with
    | none => cases he
    | some lowerKey =>
      cases upperKey with
      | none => cases he
      | some upperKey =>
        cases he
        simp only [PhysicalPlan.pull, open_, opening, life]
        cases context.range table.tableId indexId lowerKey upperKey with
        | none => exact .failed (comes_done _)
        | some tids => exact .opened (comes_pure _) ⟨rfl, rfl⟩
  | filter child predicate ih =>
    intro e he
    obtain ⟨child', hb, he⟩ := bind_eq_ok.1 he
    cases he
    exact (ih child' hb).bind (fun e p hl => .opened (comes_pure _) ⟨⟨rfl, hl.1⟩, by rw [rest, hl.2]⟩)
  | project child items ih =>
    intro e he
    obtain ⟨child', hb, he⟩ := bind_eq_ok.1 he
    cases he
    exact (ih child' hb).bind (fun e p hl => .opened (comes_pure _) ⟨⟨rfl, hl.1⟩, by rw [rest, hl.2]⟩)
  | limit child n ih =>
    intro e he
    obtain ⟨child', hb, he⟩ := bind_eq_ok.1 he
    cases he
    exact (ih child' hb).bind (fun e p hl => .opened (comes_pure _) ⟨⟨rfl, hl.1⟩, by rw [rest, hl.2]; rfl⟩)
  | nestedLoopJoin left right condition ihl ihr =>
    intro e he
    obtain ⟨left', hbl, he⟩ := bind_eq_ok.1 he
    obtain ⟨right', hbr, he⟩ := bind_eq_ok.1 he
    cases he
    refine (ihl left' hbl).bind (fun el pl hl => ?_)
    refine (ihr right' hbr).bind (fun er pr hr => ?_)
    exact Opens.after hr.drained (fun rows e => .opened (comes_pure _) ⟨⟨rfl, hl.1⟩, by rw [rest, hl.2]; rfl⟩)
  | hashJoin left right leftKey rightKey condition ihl ihr =>
    intro e he
    obtain ⟨left', hbl, he⟩ := bind_eq_ok.1 he
    obtain ⟨right', hbr, he⟩ := bind_eq_ok.1 he
    cases he
    refine (ihl left' hbl).bind (fun el pl hl => ?_)
    refine (ihr right' hbr).bind (fun er pr hr => ?_)
    exact Opens.after (hr.consumed _ _) (fun hash e => .opened (comes_pure _) ⟨⟨rfl, hl.1⟩, by rw [rest, hl.2]; rfl⟩)
  | aggregate child groupBy aggregates ih =>
    intro e he
    obtain ⟨child', hb, he⟩ := bind_eq_ok.1 he
    cases he
    refine (ih child' hb).bind (fun ec pc hc => ?_)
    refine Opens.after (hc.consumed _ _) (fun groups e => ?_)
    exact Opens.lift (fun results => .opened (comes_pure _) ⟨rfl, rfl⟩)
  | sort child orderBy ih =>
    intro e he
    obtain ⟨child', hb, he⟩ := bind_eq_ok.1 he
    cases he
    refine (ih child' hb).bind (fun ec pc hc => ?_)
    refine Opens.after hc.drained (fun rows e => ?_)
    exact Opens.lift (fun sorted => .opened (comes_pure _) ⟨rfl, rfl⟩)
  | modifyTable => intro e he; cases he

/-- **Collecting the executor of a plan gives what the plan gives as a whole.** -/
theorem collect_results {plan : PhysicalPlan} {e : Executor} (hb : build plan = .ok e) :
    Results (fun n => collect A context n e) (plan.pull A context >>= Pull.drain) := by
  have ho := open_opens A context plan e hb
  generalize plan.pull A context = r at ho ⊢
  cases ho with
  | failed hc => exact ⟨_, hc.bind_error, rfl⟩
  | opened hc hl =>
    rename_i e' p
    obtain ⟨o, hd, hr⟩ := hl.drained
    cases o with
    | error error =>
      refine ⟨.error error, hc.bind hd.bind_error, ?_⟩
      exact hr
    | ok x => exact ⟨_, hc.bind (hd.bind (comes_pure _)), hr⟩

end Executor

/-- **A run of a plan comes to an outcome**: what the plan gives as a whole, when it can be built. -/
theorem PhysicalPlan.execute_results (plan : PhysicalPlan) :
    Results (fun n => plan.execute A context n) (Executor.build plan >>= fun _ => plan.pull A context >>= Pull.drain) := by
  cases hb : Executor.build plan with
  | error error => exact ⟨.error error, Comes.congr (comes_done _) (fun n => by unfold PhysicalPlan.execute; rw [hb]; rfl), rfl⟩
  | ok e =>
    obtain ⟨outcome, hc, hr⟩ := Executor.collect_results A context hb
    exact ⟨outcome, Comes.congr hc (fun n => by unfold PhysicalPlan.execute; rw [hb]; rfl), hr⟩

end MiniPostgres
