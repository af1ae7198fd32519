import MiniPostgres.CatalogStore
/-!
# CreateTable — a table and the indexes behind its unique columns

`_create_table` and `_create_constraint_index` of `engine.py`, and what `_create_index` and a restart do to the catalog.  The
table is published before its indexes are prepared, under names that another index may have.
-/
namespace MiniPostgres
namespace CatalogFile

variable {K : Casing}

/-! ## The statement -/

/-- `ColumnDefinition`, its type looked up in `DataType`. -/
structure ColumnDefinition where
  name       : Name
  dataType   : DataType
  nullable   : Bool
  primaryKey : Bool
  unique     : Bool

def ColumnDefinition.column (c : ColumnDefinition) : Result Column :=
  Column.create c.name c.dataType c.nullable c.primaryKey c.unique (-1)

structure CreateTableStmt where
  name    : Name
  columns : List ColumnDefinition

/-- Which steps of a constraint index raise, when they are reached. -/
structure IndexFaults where
  openTree     : Option Error
  flushAll     : Option Error
  syncRelation : Option Error
  publish      : Option PersistPoint

def IndexFaults.none : IndexFaults := ⟨.none, .none, .none, .none⟩

/-- Which steps of CREATE TABLE raise, when they are reached; `index` by the ID of the column. -/
structure CreateFaults where
  pageCount    : Option Error
  syncRelation : Option Error
  publish      : Option PersistPoint
  openHeap     : Option Error
  index        : Int → IndexFaults

variable (K) in
/-- The part of `Database` that the statement reads and writes; `accesses` has the indexes of each table's access. -/
structure Engine where
  catalog  : CatalogStore K
  accesses : Dict Int (List IndexMetadata)

namespace Engine

def constraintName (table : TableMetadata K) (column : Column) : Name :=
  table.name ++ ['_'] ++ column.name ++ ['_'] ++ (if column.primaryKey then "pkey".toList else "key".toList)

def addIndex (s : Engine K) (metadata : IndexMetadata) : Engine K × Result Unit :=
  match s.accesses.get? metadata.tableId with
  | none        => (s, raise .keyError "")
  | some access =>
    if access.any (fun i => decide (i.indexId = metadata.indexId)) then (s, raise .valueError "index is already registered")
    else ({ s with accesses := s.accesses.set metadata.tableId (access ++ [metadata]) }, .ok ())

def createConstraintIndex (s : Engine K) (table : TableMetadata K) (column : Column) (faults : IndexFaults) :
    Engine K × Result Unit :=
  match s.catalog.memory.prepareIndex (constraintName table column) table.tableId [column.columnId] true with
  | .error e     => (s, .error e)
  | .ok metadata =>
    match faults.openTree <|> faults.flushAll <|> faults.syncRelation with
    | some e => (s, .error e)
    | none   =>
      let published := s.catalog.publishIndex metadata faults.publish
      match published.2 with
      | .error e => ({ s with catalog := published.1 }, .error e)
      | .ok ()   => addIndex { s with catalog := published.1 } metadata

/-- The loop of `_create_table` over the columns. -/
def createConstraintIndexes (table : TableMetadata K) (faults : Int → IndexFaults) :
    List Column → Engine K → Engine K × Result Unit
  | [], s             => (s, .ok ())
  | column :: rest, s =>
    if column.unique then
      let made := s.createConstraintIndex table column (faults column.columnId)
      match made.2 with
      | .error e => (made.1, .error e)
      | .ok ()   => createConstraintIndexes table faults rest made.1
    else createConstraintIndexes table faults rest s

/-- The columns and `prepare_table`. -/
def prepared (s : Engine K) (statement : CreateTableStmt) : Result (TableMetadata K) := do
  let columns ← statement.columns.mapM ColumnDefinition.column
  s.catalog.memory.prepareTable statement.name columns

def createTable (s : Engine K) (statement : CreateTableStmt) (faults : CreateFaults) : Engine K × Result Unit :=
  match s.prepared statement with
  | .error e     => (s, .error e)
  | .ok metadata =>
    match faults.pageCount <|> faults.syncRelation with
    | some e => (s, .error e)
    | none   =>
      let published := s.catalog.publishTable metadata faults.publish
      match published.2 with
      | .error e => ({ s with catalog := published.1 }, .error e)
      | .ok ()   =>
        match faults.openHeap with
        | some e => ({ s with catalog := published.1 }, .error e)
        | none   =>
          createConstraintIndexes metadata faults.index metadata.schema.columns
            ⟨published.1, s.accesses.set metadata.tableId []⟩

/-! ## Preparing and publishing, in a catalog that can be read back -/

def constraintIndex (s : CatalogState K) (table : TableMetadata K) (column : Column) : IndexMetadata :=
  ⟨s.indexes.nextId, table.tableId, constraintName table column, [column.columnId], true⟩

/-- The name, as the catalog compares it. -/
def constraintKey (table : TableMetadata K) (column : Column) : Name := K.casefold (constraintName table column)

theorem validName_constraintName {table : TableMetadata K} (hn : ValidName table.name) (column : Column) :
    ValidName (constraintName table column) := by
  have hc := column.named
  refine ⟨fun he => ?_, fun hm => ?_⟩
  · simp only [constraintName, List.append_eq_nil_iff] at he
    exact hn.1 he.1.1.1.1
  · unfold constraintName at hm
    simp only [List.mem_append, List.mem_singleton] at hm
    rcases hm with (((hm | hm) | hm) | hm) | hm
    · exact hn.2 hm
    · exact absurd hm (by decide)
    · exact hc.2 hm
    · exact absurd hm (by decide)
    · split at hm <;> exact absurd hm (by decide)

theorem schema_column {t : TableMetadata K} {column : Column} (h : column ∈ t.schema.columns) :
    t.schema.column column.columnId = .ok column ∧ 0 ≤ column.columnId ∧ column.columnId < t.schema.columns.length := by
  obtain ⟨k, hk, hget⟩ := List.getElem_of_mem h
  have hid : column.columnId = k := by
    have hnum := congrArg (fun cs : List Column => cs[k]?) t.schema.numbered
    simp only [List.getElem?_map, List.getElem?_zipIdx, List.getElem?_eq_getElem hk, Option.map_some, hget] at hnum
    have := congrArg Column.columnId (Option.some.inj hnum)
    rw [this]
    simp [Column.withId]
  refine ⟨?_, by omega, by omega⟩
  unfold Schema.column
  rw [if_pos (by omega), hid, Int.toNat_natCast, List.getElem?_eq_getElem hk, hget]

/-- **`prepare_index` for a constraint** raises exactly when the name is taken. -/
theorem prepareIndex_constraint {s : CatalogState K} {t : TableMetadata K} {column : Column} (hn : ValidName t.name)
    (ht : s.tables.byId.get? t.tableId = some t) (hc : column ∈ t.schema.columns) :
    (constraintKey t column ∈ s.indexes.names.keys →
      ∃ e, s.prepareIndex (constraintName t column) t.tableId [column.columnId] true = .error e) ∧
    (constraintKey t column ∉ s.indexes.names.keys →
      s.prepareIndex (constraintName t column) t.tableId [column.columnId] true = .ok (constraintIndex s t column)) := by
  have hv := not_not.2 (validName_constraintName hn column)
  have htable : s.table t.tableId = .ok t := by
    unfold CatalogState.table
    rw [ht]
  unfold CatalogState.prepareIndex
  rw [if_neg hv]
  refine ⟨fun hm => ⟨_, if_pos hm⟩, fun hm => ?_⟩
  refine (if_neg hm).trans ?_
  have hcolumns : ([column.columnId].forM (fun columnId => do
      let _ ← t.schema.column columnId
      .ok ()) : Result Unit) = .ok () := by
    refine forM_ok (fun columnId hm => ?_)
    rw [List.mem_singleton.1 hm, (schema_column hc).1]
    rfl
  simp only [htable, bind, Except.bind, List.cons_ne_nil, if_false, List.nodup_singleton, not_true_eq_false]
  simp only [bind, Except.bind] at hcolumns
  rw [hcolumns]
  rfl

/-- Between the publication of the table and the end of the statement. -/
structure Creating (s : Engine K) (t : TableMetadata K) : Prop where
  valid  : s.catalog.memory.Valid
  file   : openCatalog K s.catalog.files = .ok s.catalog.memory
  table  : s.catalog.memory.tables.byId.get? t.tableId = some t
  access : ∃ a, s.accesses.get? t.tableId = some a ∧ ∀ i ∈ a, i.indexId < s.catalog.memory.indexes.nextId

/-- The index is unique, and on this column alone. -/
def Backs (t : TableMetadata K) (column : Column) (i : IndexMetadata) : Prop :=
  i.tableId = t.tableId ∧ i.columnIds = [column.columnId] ∧ i.unique = true

/-- No name of a constraint index is taken, or made twice. -/
def NamesFree (taken : List Name) (t : TableMetadata K) (columns : List Column) : Prop :=
  ((columns.filter (·.unique)).map (constraintKey t)).Nodup ∧ ∀ c ∈ columns, c.unique = true → constraintKey t c ∉ taken

/-- No step of a constraint index raises. -/
def Quiet (faults : Int → IndexFaults) (columns : List Column) : Prop :=
  ∀ c ∈ columns, c.unique = true → faults c.columnId = .none

theorem namesFree_cons {taken : List Name} {t : TableMetadata K} {c : Column} {rest : List Column} (hc : c.unique = true) :
    NamesFree taken t (c :: rest) ↔ constraintKey t c ∉ taken ∧ NamesFree (taken ++ [constraintKey t c]) t rest := by
  unfold NamesFree
  rw [List.filter_cons_of_pos hc, List.map_cons, List.nodup_cons, List.forall_mem_cons]
  simp only [List.mem_append, List.mem_singleton, not_or, List.mem_map, List.mem_filter, not_exists, not_and]
  constructor
  · rintro ⟨⟨h1, h2⟩, h3, h4⟩
    exact ⟨h3 hc, h2, fun d hd hu => ⟨h4 d hd hu, h1 d ⟨hd, hu⟩⟩⟩
  · rintro ⟨h1, h2, h3⟩
    exact ⟨⟨fun d hd => (h3 d hd.1 hd.2).2, h2⟩, fun _ => h1, fun d hd hu => (h3 d hd hu).1⟩

theorem namesFree_skip {taken : List Name} {t : TableMetadata K} {c : Column} {rest : List Column} (hc : ¬c.unique = true) :
    NamesFree taken t (c :: rest) ↔ NamesFree taken t rest := by
  unfold NamesFree
  rw [List.filter_cons_of_neg hc, List.forall_mem_cons]
  exact ⟨fun h => ⟨h.1, h.2.2⟩, fun h => ⟨h.1, fun hu => absurd hu hc, h.2⟩⟩

section loop

variable {s : Engine K} {t : TableMetadata K} {faults : Int → IndexFaults}

theorem Creating.published (h : Creating s t) {column : Column} (hn : ValidName t.name) (hc : column ∈ t.schema.columns)
    (hfree : constraintKey t column ∉ s.catalog.memory.indexes.names.keys) :
    (Publication.index (constraintIndex s.catalog.memory t column)).check s.catalog.memory = .ok () ∧
      ((Publication.index (constraintIndex s.catalog.memory t column)).added s.catalog.memory).Valid := by
  have htable : s.catalog.memory.table t.tableId = .ok t := by
    unfold CatalogState.table
    rw [h.table]
  constructor
  · refine (if_neg (not_not.2 rfl)).trans ((if_neg hfree).trans ?_)
    show (s.catalog.memory.table t.tableId >>= _) = _
    rw [htable]
    rfl
  · refine h.valid.addIndex rfl hfree (validName_constraintName hn column).1 ⟨t, h.table, List.cons_ne_nil _ _, fun c hm => ?_⟩
    rw [List.mem_singleton.1 hm]
    exact (schema_column hc).2

/-- **One constraint index**: it is published, or the catalog stays as it is. -/
theorem createConstraintIndex_cases (h : Creating s t) (hn : ValidName t.name) {column : Column} (hc : column ∈ t.schema.columns)
    (f : IndexFaults) :
    ((∃ e, (s.createConstraintIndex t column f).2 = .error e) ∧
      (s.createConstraintIndex t column f).1.catalog.memory = s.catalog.memory ∧
      (constraintKey t column ∈ s.catalog.memory.indexes.names.keys ∨ f ≠ .none)) ∨
    ((s.createConstraintIndex t column f).2 = .ok () ∧ constraintKey t column ∉ s.catalog.memory.indexes.names.keys ∧ f = .none ∧
      (s.createConstraintIndex t column f).1.catalog.memory =
        (Publication.index (constraintIndex s.catalog.memory t column)).added s.catalog.memory ∧
      Creating (s.createConstraintIndex t column f).1 t) := by
  obtain ⟨htaken, hfree⟩ := prepareIndex_constraint hn h.table hc
  unfold createConstraintIndex
  by_cases hname : constraintKey t column ∈ s.catalog.memory.indexes.names.keys
  · obtain ⟨e, he⟩ := htaken hname
    rw [he]
    exact .inl ⟨⟨e, rfl⟩, rfl, .inl hname⟩
  · rw [hfree hname]
    obtain ⟨hcheck, hvalid⟩ := h.published hn hc hname
    obtain ⟨openTree, flushAll, syncRelation, publish⟩ := f
    cases hfault : (openTree <|> flushAll <|> syncRelation) with
    | some e =>
      refine .inl ⟨⟨e, rfl⟩, rfl, .inr (fun hf => ?_)⟩
      cases hf
      cases hfault
    | none =>
      simp only
      unfold CatalogStore.publishIndex
      cases publish with
      | some point =>
        obtain ⟨⟨e, he⟩, hmem, -⟩ := CatalogStore.publish_fault hcheck point
        simp only [he]
        refine .inl ⟨⟨e, rfl⟩, ?_, .inr (fun hf => by cases hf)⟩
        rw [hmem]
        exact (Publication.removed_added_iff hcheck).2 h.valid.indexes.new
      | none =>
        obtain ⟨a, ha, hlt⟩ := h.access
        have hnew : a.any (fun i => decide (i.indexId = (constraintIndex s.catalog.memory t column).indexId)) = false := by
          rw [List.any_eq_false]
          intro i hi heq
          have := hlt i hi
          rw [of_decide_eq_true heq] at this
          exact lt_irrefl _ this
        have haccess : s.accesses.get? (constraintIndex s.catalog.memory t column).tableId = some a := ha
        simp only [CatalogStore.publish_none hcheck, addIndex, haccess, hnew, Bool.false_eq_true, if_false]
        have hnone : (⟨openTree, flushAll, syncRelation, none⟩ : IndexFaults) = .none := by
          cases openTree with
          | some e => cases hfault
          | none =>
            cases flushAll with
            | some e => cases hfault
            | none =>
              cases syncRelation with
              | some e => cases hfault
              | none => rfl
        refine .inr ⟨trivial, hname, hnone, trivial, hvalid, hvalid.openCatalog_document none, h.table, a ++ [_],
          Dict.get?_set_self _ _ _, ?_⟩
        rw [List.forall_mem_append, List.forall_mem_singleton]
        have hnext : ((Publication.index (constraintIndex s.catalog.memory t column)).added s.catalog.memory).indexes.nextId =
            s.catalog.memory.indexes.nextId + 1 := rfl
        have hid : (constraintIndex s.catalog.memory t column).indexId = s.catalog.memory.indexes.nextId := rfl
        simp only [hnext, hid]
        exact ⟨fun i hi => lt_trans (hlt i hi) (lt_add_one _), lt_add_one _⟩

theorem added_constraintIndex {m : CatalogState K} (hv : m.Valid) {column : Column}
    (hfree : constraintKey t column ∉ m.indexes.names.keys) :
    ((Publication.index (constraintIndex m t column)).added m).indexes.values = m.indexes.values ++ [constraintIndex m t column] ∧
      ((Publication.index (constraintIndex m t column)).added m).indexes.names.keys = m.indexes.names.keys ++
        [constraintKey t column] := by
  refine ⟨hv.indexes.values_add _ _, ?_⟩
  show Dict.keys (m.indexes.names.set (constraintKey t column) m.indexes.nextId) = _
  rw [Dict.set_of_notMem _ hfree, Dict.keys, List.map_append]
  rfl

/-- **The loop** makes an index for every unique column, or raises with the table in the catalog. -/
theorem createConstraintIndexes_cases (hn : ValidName t.name) : ∀ {columns : List Column} {s : Engine K}, Creating s t →
    columns ⊆ t.schema.columns →
    ((∃ e, (createConstraintIndexes t faults columns s).2 = .error e) ∧
      (createConstraintIndexes t faults columns s).1.catalog.memory.tables = s.catalog.memory.tables ∧
      ¬(NamesFree s.catalog.memory.indexes.names.keys t columns ∧ Quiet faults columns)) ∨
    ((createConstraintIndexes t faults columns s).2 = .ok () ∧
      (NamesFree s.catalog.memory.indexes.names.keys t columns ∧ Quiet faults columns) ∧
      Creating (createConstraintIndexes t faults columns s).1 t ∧
      (createConstraintIndexes t faults columns s).1.catalog.memory.tables = s.catalog.memory.tables ∧
      ∃ new, (createConstraintIndexes t faults columns s).1.catalog.memory.indexes.values =
        s.catalog.memory.indexes.values ++ new ∧
        List.Forall₂ (Backs t) (columns.filter (·.unique)) new)
  | [], s, h, _ => .inr ⟨rfl, ⟨⟨List.nodup_nil, fun c hc => (by cases hc)⟩, fun c hc => (by cases hc)⟩, h, rfl, [],
      (List.append_nil _).symm, .nil⟩
  | column :: rest, s, h, hsub => by
    have hrest : rest ⊆ t.schema.columns := fun c hc => hsub (List.mem_cons_of_mem _ hc)
    unfold createConstraintIndexes
    by_cases hu : column.unique = true
    · rw [if_pos hu]
      have hquiet : Quiet faults (column :: rest) ↔ faults column.columnId = .none ∧ Quiet faults rest := by
        unfold Quiet
        rw [List.forall_mem_cons]
        exact ⟨fun hq => ⟨hq.1 hu, hq.2⟩, fun hq => ⟨fun _ => hq.1, hq.2⟩⟩
      rw [namesFree_cons hu, hquiet, List.filter_cons_of_pos hu]
      rcases createConstraintIndex_cases h hn (hsub List.mem_cons_self) (faults column.columnId) with
        ⟨⟨e, he⟩, hmem, hwhy⟩ | ⟨hok, hfree, hnone, hmem, hnext⟩
      · simp only [he]
        refine .inl ⟨⟨e, rfl⟩, by rw [hmem], ?_⟩
        rintro ⟨⟨hfree, -⟩, hnone, -⟩
        exact hwhy.elim hfree (fun hw => hw hnone)
      · simp only [hok]
        obtain ⟨hvalues, hkeys⟩ := added_constraintIndex h.valid hfree
        rcases createConstraintIndexes_cases hn hnext hrest with ⟨herr, htables, hwhy⟩ | ⟨hdone, hwhy, hlast,
          htables, new, hnew, hall⟩
        · rw [hmem, hkeys] at hwhy
          refine .inl ⟨herr, by rw [htables, hmem]; rfl, ?_⟩
          rintro ⟨⟨-, hnames⟩, -, hq⟩
          exact hwhy ⟨hnames, hq⟩
        · rw [hmem, hkeys] at hwhy
          refine .inr ⟨hdone, ⟨⟨hfree, hwhy.1⟩, hnone, hwhy.2⟩, hlast, by rw [htables, hmem]; rfl,
            constraintIndex s.catalog.memory t column :: new, ?_, .cons ⟨rfl, rfl, rfl⟩ hall⟩
          rw [hnew, hmem, hvalues, List.append_assoc]
          rfl
    · rw [if_neg hu, namesFree_skip hu, List.filter_cons_of_neg hu]
      have hquiet : Quiet faults (column :: rest) ↔ Quiet faults rest := by
        unfold Quiet
        rw [List.forall_mem_cons]
        exact ⟨fun hq => hq.2, fun hq => ⟨fun h => absurd h hu, hq⟩⟩
      rw [hquiet]
      exact createConstraintIndexes_cases hn h hrest

end loop

/-! ## The statement as a whole -/

/-- The table and an index for each unique column are all that is new. -/
def Created (before after : CatalogState K) (statement : CreateTableStmt) : Prop :=
  ∃ (columns : List Column) (t : TableMetadata K) (new : List IndexMetadata),
    statement.columns.mapM ColumnDefinition.column = .ok columns ∧ t.name = statement.name ∧
    t.schema.columns = columns.zipIdx.map (fun c => c.1.withId c.2) ∧ after.tables.values = before.tables.values ++ [t] ∧
    after.indexes.values = before.indexes.values ++ new ∧ List.Forall₂ (Backs t) (t.schema.columns.filter (·.unique)) new

/-- **CREATE TABLE does all or nothing**, in the catalog and in what a fresh `Catalog.open` reads. -/
def AtomicCreate (s : Engine K) (statement : CreateTableStmt) (faults : CreateFaults) : Prop :=
  ((s.createTable statement faults).2 = .ok () →
    Created s.catalog.memory (s.createTable statement faults).1.catalog.memory statement ∧
    openCatalog K (s.createTable statement faults).1.catalog.files = .ok (s.createTable statement faults).1.catalog.memory) ∧
  ∀ e, (s.createTable statement faults).2 = .error e →
    (s.createTable statement faults).1.catalog.memory = s.catalog.memory ∧
    openCatalog K (s.createTable statement faults).1.catalog.files = openCatalog K s.catalog.files

/-- The statement fails before the table is published, or never. -/
def EarlyOrNever (s : Engine K) (statement : CreateTableStmt) (faults : CreateFaults) : Prop :=
  ∀ t, s.prepared statement = .ok t → (faults.pageCount <|> faults.syncRelation) ≠ none ∨
    (∃ point, faults.publish = some point ∧ (point.beforeReplace = true ∨ s.catalog.ReadsAhead (.table t))) ∨
    (faults.publish = none ∧ faults.openHeap = none ∧
      NamesFree s.catalog.memory.indexes.names.keys t t.schema.columns ∧ Quiet faults.index t.schema.columns)

theorem prepared_ok {s : Engine K} {statement : CreateTableStmt} {t : TableMetadata K} (h : s.prepared statement = .ok t) :
    ValidName t.name ∧ t.tableId = s.catalog.memory.tables.nextId ∧ t.normalizedName ∉ s.catalog.memory.tables.names.keys ∧
      t.name = statement.name ∧ ∃ columns, statement.columns.mapM ColumnDefinition.column = .ok columns ∧
        t.schema.columns = columns.zipIdx.map (fun c => c.1.withId c.2) := by
  obtain ⟨columns, hcols, h⟩ := bind_eq_ok.1 h
  unfold CatalogState.prepareTable at h
  split at h
  · exact absurd h raise_ne_ok
  · rename_i hname
    split at h
    · exact absurd h raise_ne_ok
    · rename_i hfree
      obtain ⟨schema, hschema, h⟩ := bind_eq_ok.1 h
      cases h
      exact ⟨not_not.1 hname, rfl, hfree, rfl, columns, hcols, create_columns hschema⟩

/-- **What the statement does**: it raises with the catalog as it was, it raises with the table in the catalog, or it returns. -/
theorem createTable_cases {s : Engine K} (hv : s.catalog.memory.Valid) (statement : CreateTableStmt) (faults : CreateFaults) :
    ((∃ e, (s.createTable statement faults).2 = .error e) ∧
      (s.createTable statement faults).1.catalog.memory = s.catalog.memory ∧
      (openCatalog K (s.createTable statement faults).1.catalog.files = openCatalog K s.catalog.files ↔
        s.EarlyOrNever statement faults)) ∨
    ((∃ e, (s.createTable statement faults).2 = .error e) ∧
      (s.createTable statement faults).1.catalog.memory ≠ s.catalog.memory ∧ ¬s.EarlyOrNever statement faults) ∨
    ((s.createTable statement faults).2 = .ok () ∧ s.EarlyOrNever statement faults ∧
      (s.createTable statement faults).1.catalog.memory.Valid ∧
      openCatalog K (s.createTable statement faults).1.catalog.files = .ok (s.createTable statement faults).1.catalog.memory ∧
      Created s.catalog.memory (s.createTable statement faults).1.catalog.memory statement) := by
  unfold createTable
  cases hp : s.prepared statement with
  | error e => exact .inl ⟨⟨e, rfl⟩, rfl, fun _ t ht => (by cases hp.symm.trans ht), fun _ => rfl⟩
  | ok t =>
    obtain ⟨hname, hid, hfree, hstmt, columns, hcols, hschema⟩ := prepared_ok hp
    have hcond : s.EarlyOrNever statement faults ↔ ((faults.pageCount <|> faults.syncRelation) ≠ none ∨
        (∃ point, faults.publish = some point ∧ (point.beforeReplace = true ∨ s.catalog.ReadsAhead (.table t))) ∨
        (faults.publish = none ∧ faults.openHeap = none ∧
          NamesFree s.catalog.memory.indexes.names.keys t t.schema.columns ∧ Quiet faults.index t.schema.columns)) := by
      refine ⟨fun h => h t hp, fun h t' ht' => ?_⟩
      cases hp.symm.trans ht'
      exact h
    rw [hcond]
    simp only
    cases hstorage : (faults.pageCount <|> faults.syncRelation) with
    | some e => exact .inl ⟨⟨e, rfl⟩, rfl, fun _ => .inl (fun h => by cases h), fun _ => rfl⟩
    | none =>
      have hcheck : (Publication.table t).check s.catalog.memory = .ok () :=
        (if_neg (not_not.2 hid)).trans (if_neg hfree)
      have hnew : (Publication.table t).IdNew s.catalog.memory := by
        show t.tableId ∉ s.catalog.memory.tables.byId.keys
        rw [hid]
        exact hv.tables.new
      unfold CatalogStore.publishTable
      cases hpub : faults.publish with
      | some point =>
        obtain ⟨⟨e, he⟩, hmem, -⟩ := CatalogStore.publish_fault hcheck point
        have hkeeps := CatalogStore.keepsOnFailure_iff s.catalog (.table t) (some point)
        have hsame : (s.catalog.publish (.table t) (some point)).1.memory = s.catalog.memory := by
          rw [hmem]
          exact (Publication.removed_added_iff hcheck).2 hnew
        simp only [he]
        refine .inl ⟨⟨e, rfl⟩, hsame, fun hopen => ?_, fun h => ?_⟩
        · have hk := hkeeps.1 (fun _ _ => ⟨hsame, hopen⟩) point rfl
          rw [hcheck] at hk
          exact .inr (.inl ⟨point, rfl, (hk.resolve_left (fun ⟨_, hx⟩ => by cases hx)).2⟩)
        · rcases h with h | ⟨point', hp', h⟩ | ⟨h, -⟩
          · exact absurd rfl h
          · cases hp'
            exact (hkeeps.2 (fun point' hp' => by cases hp'; exact .inr ⟨hnew, h⟩) e he).2
          · cases h
      | none =>
        have hvalid := hv.addTable hid hfree hname.1
        have hbyId : ((Publication.table t).added s.catalog.memory).tables.byId =
          s.catalog.memory.tables.byId ++ [(t.tableId, t)] :=
          Dict.set_of_notMem t hnew
        have hchanged : ∀ m : CatalogState K, m.tables = ((Publication.table t).added s.catalog.memory).tables →
            m ≠ s.catalog.memory := by
          intro m hm he
          have hnext : m.tables.nextId = s.catalog.memory.tables.nextId + 1 := congrArg Registry.nextId hm
          rw [he] at hnext
          omega
        rw [CatalogStore.publish_none hcheck]
        simp only
        cases hopen : faults.openHeap with
        | some e =>
          refine .inr (.inl ⟨⟨e, rfl⟩, hchanged _ rfl, ?_⟩)
          rintro (h | ⟨_, h, -⟩ | ⟨-, h, -⟩)
          exacts [h rfl, (by cases h), (by cases h)]
        | none =>
          have hcreating : Creating (⟨⟨(Publication.table t).added s.catalog.memory,
              ⟨some (.json (.object ((Publication.table t).added s.catalog.memory).document)), none⟩⟩,
              s.accesses.set t.tableId []⟩ : Engine K) t :=
            ⟨hvalid, hvalid.openCatalog_document none, Dict.get?_set_self _ _ _, [], Dict.get?_set_self _ _ _,
              fun i hi => (by cases hi)⟩
          rcases createConstraintIndexes_cases hname hcreating (List.Subset.refl _) with
            ⟨herr, htables, hwhy⟩ | ⟨hok, hwhy, hlast, htables, new, hnewix, hall⟩
          · refine .inr (.inl ⟨herr, hchanged _ htables, ?_⟩)
            rintro (h | ⟨_, h, -⟩ | ⟨-, -, h⟩)
            exacts [h rfl, (by cases h), hwhy h]
          · refine .inr (.inr ⟨hok, .inr (.inr ⟨trivial, rfl, hwhy⟩), hlast.valid, hlast.file, columns, t,
              new, hcols, hstmt, hschema,
              ?_, hnewix, hall⟩)
            rw [htables]
            show List.map Prod.snd ((Publication.table t).added s.catalog.memory).tables.byId = _
            rw [hbyId, List.map_append]
            rfl

theorem atomicCreate_iff {s : Engine K} (hv : s.catalog.memory.Valid) (statement : CreateTableStmt) (faults : CreateFaults) :
    s.AtomicCreate statement faults ↔ s.EarlyOrNever statement faults := by
  unfold AtomicCreate
  rcases createTable_cases hv statement faults with ⟨⟨e, he⟩, hmem, hiff⟩ | ⟨⟨e, he⟩, hmem, hnot⟩ | ⟨hok,
    hcond, -, hopen, hcreated⟩
  · rw [← hiff]
    exact ⟨fun h => (h.2 e he).2, fun h => ⟨fun hok => (by cases he.symm.trans hok), fun _ _ => ⟨hmem, h⟩⟩⟩
  · exact ⟨fun h => absurd (h.2 e he).1 hmem, fun h => absurd h hnot⟩
  · exact ⟨fun _ => hcond, fun _ => ⟨fun _ => ⟨hcreated, hopen⟩, fun e he => (by cases hok.symm.trans he)⟩⟩

/-! ## Runs of DDL and restarts -/

/-- `_create_index`; `build` is what filling the new tree raises. -/
def createIndex (s : Engine K) (name : Name) (tableId : Int) (columnIds : List Int) (unique : Bool) (build : Option Error)
    (publish : Option PersistPoint) : Engine K × Result Unit :=
  match s.catalog.memory.prepareIndex name tableId columnIds unique with
  | .error e     => (s, .error e)
  | .ok metadata =>
    match s.accesses.get? metadata.tableId, build with
    | none, _        => (s, raise .keyError "")
    | some _, some e => (s, .error e)
    | some _, none   =>
      let published := s.catalog.publishIndex metadata publish
      match published.2 with
      | .error e => ({ s with catalog := published.1 }, .error e)
      | .ok ()   => addIndex { s with catalog := published.1 } metadata

/-- `Database.open` on the directory that is left, if it can be read. -/
def reopen (s : Engine K) : Engine K :=
  match openCatalog K s.catalog.files with
  | .error _ => s
  | .ok m    =>
    ⟨⟨m, { s.catalog.files with temporary := none }⟩,
      m.tables.values.map (fun t => (t.tableId, m.indexes.values.filter (fun i => decide (i.tableId = t.tableId))))⟩

inductive DdlCall
  | createTable (statement : CreateTableStmt) (faults : CreateFaults)
  | createIndex (name : Name) (tableId : Int) (columnIds : List Int) (unique : Bool) (build : Option Error)
      (publish : Option PersistPoint)
  | reopen

def step (s : Engine K) : DdlCall → Engine K
  | .createTable statement faults                            => (s.createTable statement faults).1
  | .createIndex name tableId columnIds unique build publish => (s.createIndex name tableId columnIds unique build publish).1
  | .reopen                                                  => s.reopen

def run (s : Engine K) (calls : List DdlCall) : Engine K := calls.foldl step s

variable (K) in
/-- A database opened on an empty directory. -/
def fresh : Engine K := ⟨⟨.empty K, ⟨none, none⟩⟩, []⟩

/-- Every CREATE TABLE of the run fails early or goes on to its end. -/
def EarlyOrNeverAlong (s : Engine K) : List DdlCall → Prop
  | []                                     => True
  | .createTable statement faults :: calls =>
    s.EarlyOrNever statement faults ∧ (s.step (.createTable statement faults)).EarlyOrNeverAlong calls
  | call :: calls                          => (s.step call).EarlyOrNeverAlong calls

/-- **Every unique column has a published unique index.** -/
def Backed (m : CatalogState K) : Prop :=
  ∀ t ∈ m.tables.values, ∀ c ∈ t.schema.columns, c.unique = true → ∃ i ∈ m.indexes.values, Backs t c i

/-- What holds between the statements, of the catalog and of its file. -/
structure Inv (s : Engine K) : Prop where
  valid  : s.catalog.memory.Valid
  backed : Backed s.catalog.memory
  file   : ∃ m, openCatalog K s.catalog.files = .ok m ∧ m.Valid ∧ Backed m

theorem exists_of_forall₂ {α β : Type} {r : α → β → Prop} : ∀ {l : List α} {m : List β}, List.Forall₂ r l m →
    ∀ a ∈ l, ∃ b ∈ m, r a b
  | _, _, .nil, _, h          => by cases h
  | _, _, .cons hab hrest, a, h => by
    rcases List.mem_cons.1 h with rfl | h
    · exact ⟨_, List.mem_cons_self, hab⟩
    · obtain ⟨b, hb, hr⟩ := exists_of_forall₂ hrest a h
      exact ⟨b, List.mem_cons_of_mem _ hb, hr⟩

theorem Backed.created {before after : CatalogState K} {statement : CreateTableStmt} (h : Backed before)
    (hc : Created before after statement) : Backed after := by
  obtain ⟨columns, t, new, -, -, -, htables, hindexes, hall⟩ := hc
  unfold Backed
  rw [htables, hindexes, List.forall_mem_append, List.forall_mem_singleton]
  refine ⟨fun x hx c hcx hu => ?_, fun c hcx hu => ?_⟩
  · obtain ⟨i, hi, hb⟩ := h x hx c hcx hu
    exact ⟨i, List.mem_append_left _ hi, hb⟩
  · obtain ⟨i, hi, hb⟩ := exists_of_forall₂ hall c (List.mem_filter.2 ⟨hcx, hu⟩)
    exact ⟨i, List.mem_append_right _ hi, hb⟩

theorem Inv.createTable {s : Engine K} (h : Inv s) {statement : CreateTableStmt} {faults : CreateFaults}
    (hcond : s.EarlyOrNever statement faults) : Inv (s.createTable statement faults).1 := by
  rcases createTable_cases h.valid statement faults with ⟨-, hmem, hiff⟩ | ⟨-, -, hnot⟩ | ⟨-, -, hvalid, hopen, hcreated⟩
  · refine ⟨by rw [hmem]; exact h.valid, by rw [hmem]; exact h.backed, ?_⟩
    rw [hiff.2 hcond]
    exact h.file
  · exact absurd hcond hnot
  · exact ⟨hvalid, h.backed.created hcreated, _, hopen, hvalid, h.backed.created hcreated⟩

theorem Backed.addIndex {m : CatalogState K} (h : Backed m) (hv : m.Valid) {i : IndexMetadata}
    (hi : i.indexId = m.indexes.nextId) :
    Backed ((Publication.index i).added m) := by
  intro t ht c hc hu
  obtain ⟨j, hj, hb⟩ := h t ht c hc hu
  refine ⟨j, ?_, hb⟩
  have hvalues := hv.indexes.values_add (i.normalizedName K) i
  rw [← hi] at hvalues
  show j ∈ (m.indexes.add i.indexId (i.normalizedName K) i).values
  rw [hvalues]
  exact List.mem_append_left _ hj

theorem prepareIndex_ok {m : CatalogState K} (hv : m.Valid) {name : Name} {tableId : Int} {columnIds : List Int} {unique : Bool}
    {i : IndexMetadata} (h : m.prepareIndex name tableId columnIds unique = .ok i) :
    i.indexId = m.indexes.nextId ∧ (Publication.index i).check m = .ok () ∧ ((Publication.index i).added m).Valid := by
  unfold CatalogState.prepareIndex at h
  split at h
  · exact absurd h raise_ne_ok
  · rename_i hname
    split at h
    · exact absurd h raise_ne_ok
    · rename_i hfree
      obtain ⟨t, ht, h⟩ := bind_eq_ok.1 h
      split at h
      · exact absurd h raise_ne_ok
      · rename_i hne
        split at h
        · exact absurd h raise_ne_ok
        · obtain ⟨_, hcols, h⟩ := bind_eq_ok.1 h
          cases h
          have hget : m.tables.byId.get? tableId = some t := by
            unfold CatalogState.table at ht
            split at ht
            · rename_i hg
              cases ht
              exact hg
            · exact absurd ht raise_ne_ok
          refine ⟨rfl, ?_, hv.addIndex rfl hfree (not_not.1 hname).1 ⟨t, hget, hne, fun columnId hm => ?_⟩⟩
          · refine (if_neg (not_not.2 rfl)).trans ((if_neg hfree).trans ?_)
            show (m.table tableId >>= _) = _
            rw [ht]
            rfl
          · obtain ⟨column, hcolumn, -⟩ := bind_eq_ok.1 (forM_eq_ok hcols columnId hm)
            unfold Schema.column at hcolumn
            split at hcolumn
            · rename_i hsome
              split at hsome
              · rename_i hpos
                have := (List.getElem?_eq_some_iff.1 hsome).1
                omega
              · cases hsome
            · exact absurd hcolumn raise_ne_ok

theorem Inv.createIndex {s : Engine K} (h : Inv s) (name : Name) (tableId : Int) (columnIds : List Int) (unique : Bool)
    (build : Option Error) (publish : Option PersistPoint) :
    Inv (s.createIndex name tableId columnIds unique build publish).1 := by
  unfold Engine.createIndex
  cases hp : s.catalog.memory.prepareIndex name tableId columnIds unique with
  | error e => exact h
  | ok i =>
    obtain ⟨hid, hcheck, hvalid⟩ := prepareIndex_ok h.valid hp
    have hbacked := h.backed.addIndex h.valid hid
    have hopen := hvalid.openCatalog_document
    simp only
    split
    · exact h
    · exact h
    · unfold CatalogStore.publishIndex
      cases publish with
      | some point =>
        obtain ⟨⟨e, he⟩, hmem, hfile⟩ := CatalogStore.publish_fault hcheck point
        have hsame : (s.catalog.publish (.index i) (some point)).1.memory = s.catalog.memory := by
          rw [hmem]
          refine (Publication.removed_added_iff hcheck).2 ?_
          show i.indexId ∉ s.catalog.memory.indexes.byId.keys
          rw [hid]
          exact h.valid.indexes.new
        simp only [he]
        refine ⟨by rw [hsame]; exact h.valid, by rw [hsame]; exact h.backed, ?_⟩
        cases hb : point.beforeReplace with
        | true =>
          rw [hb, if_pos rfl] at hfile
          obtain ⟨m, hm, hgood⟩ := h.file
          exact ⟨m, (CatalogStore.openCatalog_congr hfile).trans hm, hgood⟩
        | false =>
          rw [hb, if_neg (by decide)] at hfile
          exact ⟨_, (CatalogStore.openCatalog_congr hfile).trans (hopen none), hvalid, hbacked⟩
      | none =>
        rw [CatalogStore.publish_none hcheck]
        have hcatalog : ∀ x : Engine K, (x.addIndex i).1.catalog = x.catalog := by
          intro x
          unfold addIndex
          split
          · rfl
          · split <;> rfl
        simp only
        refine ⟨?_, ?_, ?_⟩ <;> rw [hcatalog]
        exacts [hvalid, hbacked, ⟨_, hopen none, hvalid, hbacked⟩]

theorem Inv.reopen {s : Engine K} (h : Inv s) : Inv s.reopen := by
  obtain ⟨m, hm, hvalid, hbacked⟩ := h.file
  unfold Engine.reopen
  rw [hm]
  exact ⟨hvalid, hbacked, m, hm, hvalid, hbacked⟩

theorem inv_run : ∀ (calls : List DdlCall) {s : Engine K}, Inv s → s.EarlyOrNeverAlong calls → Inv (s.run calls)
  | [], _, h, _                                                                   => h
  | .createTable _ _ :: calls, _, h, hcond                                        => inv_run calls (h.createTable hcond.1) hcond.2
  | .createIndex name tableId columnIds unique build publish :: calls, _, h, hcond =>
    inv_run calls (h.createIndex name tableId columnIds unique build publish) hcond
  | .reopen :: calls, _, h, hcond                                                 => inv_run calls h.reopen hcond

theorem inv_fresh : Inv (fresh K) :=
  have hbacked : Backed (CatalogState.empty K) := fun t ht => (by cases ht)
  ⟨CatalogState.valid_empty, hbacked, _, rfl, CatalogState.valid_empty, hbacked⟩

/-- **CREATE TABLE is atomic exactly when it fails early or has nothing to fail on**, and in a run of such statements every unique
column of every catalog reached has its index. -/
theorem create_table_backed (K : Casing) :
    (∀ s : Engine K, s.catalog.memory.Valid → ∀ statement faults, s.AtomicCreate statement faults ↔
      s.EarlyOrNever statement faults) ∧
      ∀ calls, (fresh K).EarlyOrNeverAlong calls → Backed ((fresh K).run calls).catalog.memory :=
  ⟨fun _ hv statement faults => atomicCreate_iff hv statement faults, fun calls h => (inv_run calls inv_fresh h).backed⟩

/-! ## A name that is taken -/

/-- The catalog with the table `t`, and an index on it under the name of a constraint index of another table. -/
def takenState : CatalogState plain :=
  (Publication.index ⟨1, 1, "u_id_key".toList, [0], false⟩).added ((Publication.table oneTable).added (.empty plain))

theorem takenState_valid : takenState.Valid :=
  have htable : ((Publication.table oneTable).added (.empty plain)).Valid :=
    CatalogState.valid_empty.addTable rfl List.not_mem_nil (by decide)
  htable.addIndex rfl List.not_mem_nil (by decide) ⟨oneTable, rfl, List.cons_ne_nil _ _, by decide⟩

def takenEngine : Engine plain := ⟨⟨takenState, ⟨some (.json (.object takenState.document)), none⟩⟩, [(1, [])]⟩

/-- `CREATE TABLE u (id INT UNIQUE)` -/
def uniqueTable : CreateTableStmt := ⟨"u".toList, [⟨"id".toList, .int64, true, false, true⟩]⟩

def noFaults : CreateFaults := ⟨none, none, none, none, fun _ => .none⟩

/-- **A taken name leaves the table without its index.** -/
theorem taken_name_half_created : ¬∀ (K : Casing) (s : Engine K), s.catalog.memory.Valid → ∀ statement faults,
    s.AtomicCreate statement faults := by
  intro h
  have hcond := (atomicCreate_iff takenState_valid uniqueTable noFaults).1
    (h plain takenEngine takenState_valid uniqueTable noFaults)
  obtain ⟨t, ht, hcols⟩ : ∃ t, takenEngine.prepared uniqueTable = .ok t ∧
      t.schema.columns.any (fun c => c.unique && decide (constraintKey t c ∈ takenState.indexes.names.keys)) = true :=
    ⟨_, rfl, by decide +kernel⟩
  obtain ⟨c, hc, htaken⟩ := List.any_eq_true.1 hcols
  rw [Bool.and_eq_true, decide_eq_true_eq] at htaken
  rcases hcond t ht with hx | ⟨_, hx, -⟩ | ⟨-, -, hfree, -⟩
  · exact hx rfl
  · cases hx
  · exact hfree.2 c hc htaken.1 htaken.2

/-- In the fresh database the statement goes on to its end. -/
theorem create_table_backed_fresh : (fresh plain).AtomicCreate uniqueTable noFaults ∧
    Backed ((fresh plain).run [.createTable uniqueTable noFaults]).catalog.memory := by
  have hcond : (fresh plain).EarlyOrNever uniqueTable noFaults := by
    intro t ht
    obtain ⟨t₀, ht₀, hnodup⟩ : ∃ t, (fresh plain).prepared uniqueTable = .ok t ∧
        ((t.schema.columns.filter (·.unique)).map (constraintKey t)).Nodup := ⟨_, rfl, by decide +kernel⟩
    cases ht₀.symm.trans ht
    exact .inr (.inr ⟨rfl, rfl, ⟨hnodup, fun _ _ _ => List.not_mem_nil⟩, fun _ _ _ => rfl⟩)
  exact ⟨((create_table_backed plain).1 (fresh plain) CatalogState.valid_empty uniqueTable noFaults).2 hcond,
    (create_table_backed plain).2 [.createTable uniqueTable noFaults] ⟨hcond, trivial⟩⟩

end Engine
end CatalogFile
end MiniPostgres
