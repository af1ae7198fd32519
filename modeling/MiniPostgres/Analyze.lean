import MiniPostgres.Statistics
import MiniPostgres.VacuumReturns
/-!
# Analyze — ANALYZE over the states of a table

`_analyze` of `engine.py` reads a table with `HeapTable.scan`, which lists every stored version; a statement reads it with
`scan_visible`.  So the published statistics are those of the rows a new statement sees exactly when nothing else is stored:
no superseded, deleted or rolled-back version that no VACUUM has removed, and no NaN, on which the collector raises.
-/
namespace MiniPostgres

/-! ## The engine -/

/-- `StatisticsStore`: the last published statistics by table ID. -/
structure StatisticsStore where
  tables : Nat → Option TableStatistics

namespace StatisticsStore

def table (store : StatisticsStore) (tableId : Nat) : Option TableStatistics := store.tables tableId

def replace (store : StatisticsStore) (statistics : TableStatistics) : StatisticsStore :=
  ⟨Function.update store.tables statistics.tableId (some statistics)⟩

end StatisticsStore

/-- `HeapTable.scan`: the values of every live slot, in page and slot order. -/
def HeapTable.scan (t : HeapTable) : List (TID × Values) := t.scanVersions.map (fun p => (p.1, p.2.values))

/-- A table that ANALYZE reads: a table ID is positive, and the pages are those of its file. -/
structure AnalyzedTable where
  tableId   : Nat
  positive  : tableId ≠ 0
  pageCount : Nat
  heap      : HeapTable

/-- `_analyze`: one table after the other. -/
def analyze (store : StatisticsStore) (tables : List AnalyzedTable) : Result StatisticsStore :=
  tables.foldlM (fun store table => do
    let statistics ← analyzeTable table.tableId table.heap.schema.columns (table.heap.scan.map Prod.snd) table.pageCount
    .ok (store.replace statistics)) store

theorem analyze_one (store : StatisticsStore) (table : AnalyzedTable) :
    analyze store [table] = (do
      let statistics ← analyzeTable table.tableId table.heap.schema.columns (table.heap.scanVersions.map (fun p => p.2.values))
        table.pageCount
      .ok (store.replace statistics)) := by
  unfold analyze
  rw [List.foldlM_cons, show table.heap.scan.map Prod.snd = table.heap.scanVersions.map (fun p => p.2.values) from List.map_map]
  simp only [List.foldlM_nil, bind, Except.bind]
  cases analyzeTable table.tableId table.heap.schema.columns (table.heap.scanVersions.map (fun p => p.2.values))
    table.pageCount with
  | error e => rfl
  | ok s => rfl

/-! ## Stored rows -/

theorem validateColumns_mem : ∀ {cs : List Column} {vs ws : Values}, validateColumns cs vs = .ok ws → ∀ {i : Nat} {c : Column}
    {v : Scalar}, cs[i]? = some c → vs[i]? = some v → ∃ w, validateScalar v c.dataType c.nullable = .ok w
  | [], _, _, _, _, _, _, hc, _ => by cases hc
  | _ :: _, [], _, _, _, _, _, _, hv => by cases hv
  | c :: cs, v :: vs, ws, h, i, c', v', hc, hv => by
    simp only [validateColumns] at h
    split at h
    · rename_i w hw
      obtain ⟨ws', hws, -⟩ := bind_eq_ok.1 h
      cases i with
      | zero =>
        cases hc
        cases hv
        exact ⟨w, hw⟩
      | succ i => exact validateColumns_mem hws (i := i) hc hv
    · split at h
      · exact absurd h raise_ne_ok
      · cases h

/-- **A valid value of a column that is neither null nor NaN** is one the key codec accepts. -/
theorem keyable_of_validated {v w : Scalar} {d : DataType} {nullable : Bool} (h : validateScalar v d nullable = .ok w)
    (hn : v ≠ .null) (hnan : v.isNanValue = false) : Keyable d v := by
  unfold Keyable
  rw [keyCodec_single]
  unfold validateScalar at h
  cases v with
  | null => exact absurd rfl hn
  | int n =>
    simp only [inferType] at h
    split at h
    · exact absurd h raise_ne_ok
    · rename_i hd
      obtain rfl := not_not.1 hd
      obtain ⟨m, hm, -⟩ := bind_eq_ok.1 h
      exact ⟨_, by simp only [encodeComponent, hm]; rfl⟩
  | float b =>
    simp only [inferType] at h
    split at h
    · exact absurd h raise_ne_ok
    · rename_i hd
      obtain rfl := not_not.1 hd
      simp only [Scalar.isNanValue] at hnan
      exact ⟨_, by simp only [encodeComponent, hnan]; rfl⟩
  | bool b =>
    simp only [inferType] at h
    split at h
    · exact absurd h raise_ne_ok
    · rename_i hd
      obtain rfl := not_not.1 hd
      exact ⟨_, rfl⟩
  | text s =>
    simp only [inferType] at h
    split at h
    · exact absurd h raise_ne_ok
    · rename_i hd
      obtain rfl := not_not.1 hd
      exact ⟨_, rfl⟩

/-- **A stored row** has a value for every column, and the codec accepts those that are neither null nor NaN. -/
theorem Encodes.row {schema : Schema} {v : TupleVersion} (h : HeapTable.Encodes schema v) :
    v.values.length = schema.columns.length ∧ ∀ {i : Nat} {c : Column} {x : Scalar}, schema.columns[i]? = some c →
      v.values[i]? = some x → x ≠ .null → x.isNanValue = false → Keyable c.dataType x := by
  obtain ⟨n, hn⟩ := h
  unfold encodeVersion at hn
  split at hn
  · exact absurd hn raise_ne_ok
  · split at hn
    · exact absurd hn raise_ne_ok
    · obtain ⟨ws, hws, -⟩ := bind_eq_ok.1 hn
      unfold Schema.validateRow at hws
      split at hws
      · exact absurd hws raise_ne_ok
      · rename_i hlen
        refine ⟨not_not.1 hlen, fun hc hx hnull hnan => ?_⟩
        obtain ⟨w, hw⟩ := validateColumns_mem hws hc hx
        exact keyable_of_validated hw hnull hnan

/-! ## One table -/

/-- **The statistics of a table are exact** for rows whose values the codec accepts. -/
theorem analyzeTable_exact {tableId : Nat} (hid : tableId ≠ 0) {columns : List Column} {rows : List Values} (pageCount : Nat)
    (hlen : ∀ row ∈ rows, row.length = columns.length)
    (hkey : ∀ row ∈ rows, ∀ {i : Nat} {c : Column} {x : Scalar}, columns[i]? = some c → row[i]? = some x → x ≠ .null →
      Keyable c.dataType x) :
    ∃ s, analyzeTable tableId columns rows pageCount = .ok s ∧ s.tableId = tableId ∧ s.ExactFor columns rows := by
  have hcolumn : ∀ column ∈ columns.zipIdx, ∃ b : Nat × ColumnStatistics, (do
      let values ← rows.mapM (fun row => subscript row column.2)
      let s ← analyzeColumn column.1.dataType values
      .ok (column.2, s) : Result (Nat × ColumnStatistics)) = .ok b ∧ b.1 = column.2 ∧
        b.2.ExactFor (rows.map (fun row => row.getD b.1 .null)) := by
    rintro ⟨c, i⟩ hc
    have hget : columns[i]? = some c := List.mem_zipIdx_iff_getElem?.1 hc
    have hlt : i < columns.length := (List.getElem?_eq_some_iff.1 hget).1
    have hrow : ∀ row ∈ rows, row[i]? = some (row.getD i .null) := fun row hr => by
      rw [List.getD_eq_getElem?_getD, List.getElem?_eq_getElem (by rw [hlen row hr]; exact hlt), Option.getD_some]
    have haccepted : ∀ v ∈ rows.map (fun row => row.getD i .null), v ≠ .null → Keyable c.dataType v := by
      intro v hv hn
      obtain ⟨row, hr, rfl⟩ := List.mem_map.1 hv
      exact hkey row hr hget (hrow row hr) hn
    obtain ⟨s, hs, hexact⟩ := analyzeColumn_exact haccepted
    refine ⟨(i, s), ?_, rfl, hexact⟩
    rw [HeapTable.mapM_eq_ok rows (fun row hr => subscript_eq_ok.2 (hrow row hr))]
    simp only [bind, Except.bind, hs]
  obtain ⟨bs, hbs, hall⟩ := mapM_returns columns.zipIdx (fun column hc => (hcolumn column hc).imp (fun _ h => h.1))
  have hpart : ∀ i (hi : i < bs.length), bs[i].1 = i ∧ bs[i].2.ExactFor (rows.map (fun row => row.getD bs[i].1 .null)) := by
    intro i hi
    have hz : i < columns.zipIdx.length := hall.length_eq ▸ hi
    obtain ⟨b, hb, hfst, hexact⟩ := hcolumn _ (List.getElem_mem hz)
    have hgot := hall.get hz hi
    rw [List.get_eq_getElem, hb, Except.ok.injEq, List.get_eq_getElem] at hgot
    rw [← hgot]
    refine ⟨?_, hexact⟩
    rw [hfst, List.getElem_zipIdx, Nat.zero_add]
  refine ⟨⟨tableId, rows.length, pageCount, bs, false⟩, ?_, rfl, rfl, ?_, fun c hc => ?_⟩
  · unfold analyzeTable
    rw [hbs]
    exact if_neg hid
  · have hl : bs.length = columns.length := by rw [← hall.length_eq, List.length_zipIdx]
    refine List.ext_getElem (by rw [List.length_map, List.length_range, hl]) (fun i hi hi' => ?_)
    rw [List.length_map] at hi
    rw [List.getElem_map, (hpart i hi).1, List.getElem_range]
  · obtain ⟨i, hi, rfl⟩ := List.mem_iff_getElem.1 hc
    exact (hpart i hi).2

/-- **Statistics that were collected** count the rows, and no row has a NaN in a column of the table. -/
theorem analyzeTable_returned {tableId : Nat} {columns : List Column} {rows : List Values} {pageCount : Nat}
    {s : TableStatistics} (h : analyzeTable tableId columns rows pageCount = .ok s) :
    s.tableId = tableId ∧ s.rowCount = rows.length ∧
      ∀ row ∈ rows, row.length = columns.length → ∀ v ∈ row, v.isNanValue = false := by
  obtain ⟨bs, hbs, hcheck⟩ := bind_eq_ok.1 h
  unfold TableStatistics.check at hcheck
  split at hcheck
  · exact absurd hcheck raise_ne_ok
  · cases hcheck
    refine ⟨rfl, rfl, fun row hr hlen v hv => ?_⟩
    obtain ⟨i, hi, rfl⟩ := List.mem_iff_getElem.1 hv
    have hic : i < columns.length := hlen.symm ▸ hi
    have hcol : (columns[i], i) ∈ columns.zipIdx := List.mem_zipIdx_iff_getElem?.2 (List.getElem?_eq_getElem hic)
    obtain ⟨b, hb⟩ := mapM_returned_mem hbs _ hcol
    obtain ⟨values, hvalues, hb⟩ := bind_eq_ok.1 hb
    obtain ⟨c, hc, -⟩ := bind_eq_ok.1 hb
    refine analyzeColumn_keyable hc _ ?_
    obtain ⟨j, hj, rfl⟩ := List.mem_iff_getElem.1 hr
    have hall := mapM_returned hvalues
    have hj' : j < values.length := hall.length_eq ▸ hj
    have hget := hall.get hj hj'
    rw [List.get_eq_getElem, subscript_eq_ok, List.getElem?_eq_getElem hi, Option.some.injEq] at hget
    rw [hget]
    exact List.getElem_mem hj'

/-! ## What a new statement sees -/

namespace HeapTable

/-- A table that stores no version that another names as its next: every chain is one version. -/
def Unchained (t : HeapTable) : Prop := ∀ a v, t.physicalVersion a = some v → a ∉ t.continuations

theorem mem_of_scanVersions {t : HeapTable} {p : TID × TupleVersion} (h : p ∈ t.scanVersions) :
    t.physicalVersion p.1 = some p.2 := mem_scanVersions.1 h

theorem chainFrom_unchained {t : HeapTable} (hu : t.Unchained) {a : TID} {v : TupleVersion}
    (ha : t.physicalVersion a = some v) : t.chainFrom a = .ok [(a, v)] := by
  unfold chainFrom
  have hpos : 0 < t.scanVersions.length := List.length_pos_of_mem (mem_scanVersions.2 ha)
  obtain ⟨n, hn⟩ := Nat.exists_eq_succ_of_ne_zero (Nat.pos_iff_ne_zero.1 hpos)
  have hwalk : Linked.walk t.physicalVersion TupleVersion.nextTid (t.scanVersions.length + 1) [] (some a) = some [(a, v)] := by
    rw [hn, Linked.walk, if_neg List.not_mem_nil, ha]
    cases hnext : v.nextTid with
    | none => simp only [hnext, Linked.walk, Option.map_some]
    | some c =>
      have hdead : t.physicalVersion c = none := by
        by_contra hne
        obtain ⟨u, hu'⟩ := Option.ne_none_iff_exists'.1 hne
        exact hu c u hu' (mem_continuations.2 ⟨a, v, ha, hnext⟩)
      have hac : c ∉ [a] := fun hm => by
        rw [List.mem_singleton.1 hm, ha] at hdead
        cases hdead
      simp only [hnext, Linked.walk, if_neg hac, hdead, Option.map_some]
  rw [hwalk]

theorem resolveVisible_unchained {t : HeapTable} (hu : t.Unchained) {a : TID} {v : TupleVersion}
    (ha : t.physicalVersion a = some v) (sn : Snapshot) (x : Nat) (st : StatusTable) :
    t.resolveVisible a sn x st = .ok (if isVisible v sn x st then some (a, v.values) else none) := by
  unfold resolveVisible
  rw [chainFrom_unchained hu ha]
  cases hv : isVisible v sn x st with
  | false => simp [lastOf, hv, bind, Except.bind]
  | true => simp [lastOf, hv, bind, Except.bind]

theorem unchained_of_length {t : HeapTable} (h : t.scanVersions.length ≤ t.roots.length) : t.Unchained := by
  intro a v ha hc
  have hall := List.length_filter_eq_length_iff.1
    (Nat.le_antisymm (List.length_filter_le _ _) (by rw [List.length_map]; exact h))
  have := hall a (List.mem_map.2 ⟨(a, v), mem_scanVersions.2 ha, rfl⟩)
  exact of_decide_eq_true this hc

/-- **A scan of one-version chains** lists the versions it sees, in the order of the physical scan. -/
theorem scanVisible_unchained {t : HeapTable} (hu : t.Unchained) (sn : Snapshot) (x : Nat) (st : StatusTable) :
    t.scanVisible sn x st =
      .ok ((t.scanVersions.filter (fun p => isVisible p.2 sn x st)).map (fun p => (p.1, p.2.values))) := by
  have hroots : t.roots = t.scanVersions.map Prod.fst := by
    refine List.filter_eq_self.2 (fun a ha => ?_)
    obtain ⟨p, hp, rfl⟩ := List.mem_map.1 ha
    exact decide_eq_true (hu p.1 p.2 (mem_of_scanVersions hp))
  have hfound := mapM_eq_ok (f := (fun tid => t.resolveVisible tid sn x st) ∘ Prod.fst) t.scanVersions
    (fun p hp => resolveVisible_unchained hu (mem_of_scanVersions hp) sn x st)
  unfold scanVisible
  rw [hroots, List.mapM_map, hfound]
  simp only [bind, Except.bind, List.filterMap_map]
  refine congrArg Except.ok ?_
  generalize t.scanVersions = l
  induction l with
  | nil => rfl
  | cons p l ih =>
    cases hv : isVisible p.2 sn x st with
    | false => rw [List.filter_cons_of_neg (by simp [hv]), List.filterMap_cons_none (by simp [hv]), ih]
    | true =>
      rw [List.filter_cons_of_pos (by simp [hv]), List.filterMap_cons_some (b := (p.1, p.2.values))
        (by simp [hv]), List.map_cons, ih]

/-- **A scan that lists as many rows as there are versions** sees every version, and each is its own chain. -/
theorem scanVisible_all {t : HeapTable} {sn : Snapshot} {x : Nat} {st : StatusTable} {rows : List (TID × Values)}
    (h : t.scanVisible sn x st = .ok rows) (hlen : t.scanVersions.length ≤ rows.length) :
    t.Unchained ∧ ∀ a v, t.physicalVersion a = some v → isVisible v sn x st = true := by
  have hroots : t.scanVersions.length ≤ t.roots.length := by
    obtain ⟨found, hfound, he⟩ := bind_eq_ok.1 h
    cases he
    exact hlen.trans ((List.length_filterMap_le _ _).trans_eq (mapM_returned hfound).length_eq.symm)
  have hu := unchained_of_length hroots
  refine ⟨hu, fun a v ha => ?_⟩
  rw [scanVisible_unchained hu] at h
  cases h
  rw [List.length_map] at hlen
  exact List.length_filter_eq_length_iff.1 (Nat.le_antisymm (List.length_filter_le _ _) hlen) (a, v) (mem_scanVersions.2 ha)

end HeapTable

namespace TableState

/-- The rows a transaction that begins now sees with its first statement. -/
def freshRows (s : TableState) : Result (List Values) := do
  let (manager, t) := s.heap.manager.begin .readCommitted
  let (manager, snapshot) ← manager.statementSnapshot t.xid
  let rows ← s.heap.table.scanVisible snapshot t.xid manager.statuses
  .ok (rows.map Prod.snd)

/-- **ANALYZE publishes exact statistics** of the rows a fresh snapshot sees. -/
def AnalyzeExact (s : TableState) (store : StatisticsStore) (tableId : Nat) (positive : tableId ≠ 0) (pageCount : Nat) : Prop :=
  ∃ rows store' statistics, s.freshRows = .ok rows ∧
    analyze store [⟨tableId, positive, pageCount, s.heap.table⟩] = .ok store' ∧
    store'.table tableId = some statistics ∧ statistics.ExactFor s.heap.table.schema.columns rows

/-- Every stored version is one a transaction that begins now sees, and none is the next version of another. -/
def AllCurrent (s : TableState) : Prop :=
  ∀ a v, s.heap.table.physicalVersion a = some v →
    isVisible v (.of (s.heap.manager.nextXid + 1) []) s.heap.manager.nextXid s.statuses = true ∧
      a ∉ s.heap.table.continuations

def NoNanStored (s : TableState) : Prop :=
  ∀ a v, s.heap.table.physicalVersion a = some v → ∀ x ∈ v.values, x.isNanValue = false

theorem freshRows_eq {s : TableState} (hclosed : s.heap.manager.active = []) :
    s.freshRows = (do
      let rows ← s.heap.table.scanVisible (.of (s.heap.manager.nextXid + 1) []) s.heap.manager.nextXid s.statuses
      .ok (rows.map Prod.snd)) := by
  have hsnap : (s.heap.manager.begin .readCommitted).1.statementSnapshot s.heap.manager.nextXid =
      .ok ((s.heap.manager.begin .readCommitted).1, .of (s.heap.manager.nextXid + 1) []) := by
    have hothers : ([] ++ [s.heap.manager.nextXid]).filter (fun x => decide (x ≠ s.heap.manager.nextXid)) = [] := by simp
    simp only [TransactionManager.statementSnapshot, TransactionManager.object, TransactionManager.begin, TransactionManager.put,
      Function.update_self, Transaction.requireUsable, TransactionManager.freshSnapshot, hclosed, hothers, Snapshot.create,
      ne_eq, not_true_eq_false, if_false, bind, Except.bind]
    rfl
  unfold freshRows
  simp only [show (s.heap.manager.begin .readCommitted).2.xid = s.heap.manager.nextXid from rfl, hsnap, bind, Except.bind]
  rfl

/-- **ANALYZE is exact if and only if the table stores nothing but the rows a fresh snapshot sees**, none of them with a NaN. -/
theorem publishes_exact_iff {s : TableState} (ho : s.heap.ordered) (hclosed : s.heap.manager.active = [])
    (store : StatisticsStore)
    (tableId : Nat) (positive : tableId ≠ 0) (pageCount : Nat) :
    s.AnalyzeExact store tableId positive pageCount ↔ s.AllCurrent ∧ s.NoNanStored := by
  have hrow : ∀ p ∈ s.heap.table.scanVersions, HeapTable.Encodes s.heap.table.schema p.2 := fun p hp =>
    ho.encodes p.1 p.2 (HeapTable.mem_of_scanVersions hp)
  have hmem : ∀ a v, s.heap.table.physicalVersion a = some v →
      v.values ∈ s.heap.table.scanVersions.map (fun p => p.2.values) := fun a v ha =>
    List.mem_map.2 ⟨(a, v), HeapTable.mem_scanVersions.2 ha, rfl⟩
  unfold AnalyzeExact
  rw [freshRows_eq hclosed, analyze_one]
  constructor
  · rintro ⟨rows, store', statistics, hrows, hanalyze, hpublished, hexact⟩
    obtain ⟨found, hfound, he⟩ := bind_eq_ok.1 hrows
    cases he
    obtain ⟨collected, hcollected, he⟩ := bind_eq_ok.1 hanalyze
    cases he
    obtain ⟨hid, hcount, hnan⟩ := analyzeTable_returned hcollected
    have hsame : collected = statistics := by
      simp only [StatisticsStore.table, StatisticsStore.replace, hid, Function.update_self, Option.some.injEq] at hpublished
      exact hpublished
    have hlen : s.heap.table.scanVersions.length ≤ found.length := by
      have hrows := hexact.rowCount
      rw [← hsame, hcount, List.length_map, List.length_map] at hrows
      exact hrows.le
    obtain ⟨hu, hvisible⟩ := HeapTable.scanVisible_all hfound hlen
    refine ⟨fun a v ha => ⟨hvisible a v ha, hu a v ha⟩, fun a v ha => ?_⟩
    exact hnan v.values (hmem a v ha) (Encodes.row (ho.encodes a v ha)).1
  · rintro ⟨hall, hnan⟩
    have hevery : s.heap.table.scanVersions.filter
        (fun p => isVisible p.2 (.of (s.heap.manager.nextXid + 1) []) s.heap.manager.nextXid s.statuses) =
          s.heap.table.scanVersions :=
      List.filter_eq_self.2 (fun p hp => (hall p.1 p.2 (HeapTable.mem_of_scanVersions hp)).1)
    have hlen : ∀ row ∈ s.heap.table.scanVersions.map (fun p => p.2.values), row.length = s.heap.table.schema.columns.length := by
      intro row hr
      obtain ⟨p, hp, rfl⟩ := List.mem_map.1 hr
      exact (Encodes.row (hrow p hp)).1
    have hkey : ∀ row ∈ s.heap.table.scanVersions.map (fun p => p.2.values), ∀ {i : Nat} {c : Column} {x : Scalar},
        s.heap.table.schema.columns[i]? = some c → row[i]? = some x → x ≠ .null → Keyable c.dataType x := by
      intro row hr i c x hc hx hn
      obtain ⟨p, hp, rfl⟩ := List.mem_map.1 hr
      exact (Encodes.row (hrow p hp)).2 hc hx hn
        (hnan p.1 p.2 (HeapTable.mem_of_scanVersions hp) x (List.mem_of_getElem? hx))
    obtain ⟨statistics, hs, hid, hexact⟩ := analyzeTable_exact positive pageCount hlen hkey
    refine ⟨s.heap.table.scanVersions.map (fun p => p.2.values), store.replace statistics, statistics, ?_, ?_, ?_, hexact⟩
    · rw [HeapTable.scanVisible_unchained (fun a v ha => (hall a v ha).2), hevery]
      exact congrArg Except.ok List.map_map
    · rw [hs]
      rfl
    · simp only [StatisticsStore.table, StatisticsStore.replace, hid, Function.update_self]

/-- **In every state a run reaches with no transaction open, ANALYZE is exact if and only if every stored version is current**
and has no NaN: whatever was inserted, updated, deleted, committed, rolled back and vacuumed before. -/
theorem analyze_exact_iff (r : Recovered) (schema : Schema) (calls : List TableCall) (store : StatisticsStore) (tableId : Nat)
    (positive : tableId ≠ 0) (pageCount : Nat) (hclosed : ((start r schema).run calls).heap.manager.active = []) :
    ((start r schema).run calls).AnalyzeExact store tableId positive pageCount ↔
      ((start r schema).run calls).AllCurrent ∧ ((start r schema).run calls).NoNanStored :=
  publishes_exact_iff (ordered_run calls (TransactionManager.inv_start r) (ordered_start r schema)) hclosed store tableId positive
    pageCount

def oneRow : List TableCall :=
  [.heap (.manager (.begin .readCommitted)), .insertMvcc 2 [.int 1], .heap (.manager (.commit 2))]

/-- The row, updated by a second transaction that commits. -/
def rowUpdated : List TableCall :=
  oneRow ++ [.heap (.manager (.begin .readCommitted)), .replaceMvcc 3 ⟨0, 0⟩ (.of 4 []) [.int 2], .heap (.manager (.commit 3))]

def twoRows : List TableCall :=
  [.heap (.manager (.begin .readCommitted)), .insertMvcc 2 [.int 1], .insertMvcc 2 [.null], .heap (.manager (.commit 2))]

/-- Both rows are current, and their statistics are exact. -/
theorem analyze_exact_twoRows : ((start .new HeapState.oneColumn).run twoRows).AnalyzeExact ⟨fun _ => none⟩ 1 (by decide) 1 := by
  set s := (start .new HeapState.oneColumn).run twoRows with hs
  have hversions : ∀ q ∈ s.heap.table.scanVersions,
      (isVisible q.2 (.of (s.heap.manager.nextXid + 1) []) s.heap.manager.nextXid s.statuses = true ∧
        q.1 ∉ s.heap.table.continuations) ∧ ∀ x ∈ q.2.values, x.isNanValue = false := by
    rw [hs]
    decide +kernel
  exact (analyze_exact_iff .new HeapState.oneColumn twoRows ⟨fun _ => none⟩ 1 (by decide) 1 (by decide +kernel)).2
    ⟨fun a v hv => (hversions (a, v) (HeapTable.mem_scanVersions.2 hv)).1,
      fun a v hv => (hversions (a, v) (HeapTable.mem_scanVersions.2 hv)).2⟩

/-- **ANALYZE counts the superseded version of an updated row**: it publishes two rows where a fresh snapshot sees one. -/
theorem analyze_counts_superseded :
    (¬∀ (r : Recovered) (schema : Schema) (calls : List TableCall) (store : StatisticsStore) (tableId : Nat)
      (positive : tableId ≠ 0) (pageCount : Nat), ((start r schema).run calls).heap.manager.active = [] →
        ((start r schema).run calls).AnalyzeExact store tableId positive pageCount) ∧
    ((start .new HeapState.oneColumn).run rowUpdated).freshRows = .ok [[.int 2]] ∧
    ((start .new HeapState.oneColumn).run rowUpdated).heap.table.scan.map Prod.snd = [[.int 1], [.int 2]] := by
  refine ⟨fun h => ?_, by decide +kernel, by decide +kernel⟩
  have hclosed : ((start .new HeapState.oneColumn).run rowUpdated).heap.manager.active = [] := by decide +kernel
  have hexact := h .new HeapState.oneColumn rowUpdated ⟨fun _ => none⟩ 1 (by decide) 1 hclosed
  obtain ⟨hall, -⟩ := (publishes_exact_iff
    (ordered_run _ (TransactionManager.inv_start .new) (ordered_start .new HeapState.oneColumn)) hclosed _ _ _ _).1 hexact
  have hold : ((start .new HeapState.oneColumn).run rowUpdated).heap.table.physicalVersion ⟨0, 0⟩ =
      some ⟨2, 3, some ⟨0, 1⟩, [.int 1]⟩ := by decide +kernel
  have hvisible := (hall _ _ hold).1
  revert hvisible
  decide +kernel

end TableState

end MiniPostgres
