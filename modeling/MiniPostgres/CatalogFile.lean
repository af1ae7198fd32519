import MiniPostgres.Binder
import MiniPostgres.Lib.Dict
/-!
# CatalogFile — the catalog in memory and its JSON file

`catalog/model.py` and `catalog/catalog.py`.  The file holds a JSON value or a text that `json.loads` rejects; the text itself,
and the order of the keys in it, is left to `json`.  `str.casefold` is the parameter `Casing`, a point at which a step of
`_persist` may raise an argument of the call.
-/
namespace MiniPostgres
namespace CatalogFile

/-! ## JSON -/

inductive Json
  | null
  | bool (b : Bool)
  | int (n : Int)
  | real (bits : BitVec 64)
  | str (s : Name)
  | list (items : List Json)
  | object (fields : List (String × Json))

/-- `document[key]` -/
def item (document : List (String × Json)) (key : String) : Result Json :=
  match document.lookup key with
  | some value => .ok value
  | none       => raise .keyError key

def requiredStr : Json → Result Name
  | .str s => .ok s
  | _      => raise .catalogError "catalog string field has invalid type"

def requiredInt : Json → Result Int
  | .int n => .ok n
  | _      => raise .catalogError "catalog integer field has invalid type"

def requiredBool : Json → Result Bool
  | .bool b => .ok b
  | _       => raise .catalogError "catalog boolean field has invalid type"

/-- `except (CatalogError, KeyError, ValueError) as error: raise CatalogError(message) from error` -/
def reraise {α : Type} (message : String) : Result α → Result α
  | .ok a    => .ok a
  | .error _ => raise .catalogError message

/-! ## Columns -/

def ValidName (name : Name) : Prop := name ≠ [] ∧ Char.ofNat 0 ∉ name

instance (name : Name) : Decidable (ValidName name) := inferInstanceAs (Decidable (_ ∧ _))

/-- `Column`, with what `__post_init__` checks and sets. -/
structure Column where
  name       : Name
  dataType   : DataType
  nullable   : Bool
  primaryKey : Bool
  unique     : Bool
  columnId   : Int
  named      : ValidName name
  assigned   : -1 ≤ columnId
  keyed      : primaryKey = true → nullable = false ∧ unique = true
  deriving DecidableEq

def Column.create (name : Name) (dataType : DataType) (nullable primaryKey unique : Bool) (columnId : Int) : Result Column :=
  if hn : ValidName name then
    if hi : columnId < -1 then raise .catalogError "column ID must be non-negative when assigned"
    else .ok ⟨name, dataType, nullable && !primaryKey, primaryKey, unique || primaryKey, columnId, hn, not_lt.1 hi,
      fun h => by simp [h]⟩
  else raise .catalogError "column name must be non-empty and contain no NUL"

theorem keyed_of_false {nullable unique : Bool} (h : false = true) : nullable = false ∧ unique = true :=
  absurd h Bool.false_ne_true

def Column.withId (c : Column) (columnId : Nat) : Column := { c with columnId := columnId, assigned := by omega }

def Column.toDocument (c : Column) : List (String × Json) :=
  [("column_id", .int c.columnId), ("data_type", .str c.dataType.value.toList), ("name", .str c.name),
    ("nullable", .bool c.nullable),
    ("primary_key", .bool c.primaryKey), ("unique", .bool c.unique)]

/-- `DataType(value)` -/
def dataTypeOf (value : Name) : Result DataType :=
  match [DataType.int64, .float64, .boolean, .text].find? (fun d => d.value.toList = value) with
  | some d => .ok d
  | none   => raise .valueError "not a valid DataType"

def Column.fromDocument (document : List (String × Json)) : Result Column :=
  reraise "invalid column metadata" (do
    let name ← (item document "name").bind requiredStr
    let dataType ← ((item document "data_type").bind requiredStr).bind dataTypeOf
    let nullable ← (item document "nullable").bind requiredBool
    let primaryKey ← (item document "primary_key").bind requiredBool
    let unique ← (item document "unique").bind requiredBool
    let columnId ← (item document "column_id").bind requiredInt
    Column.create name dataType nullable primaryKey unique columnId)

/-! ## Schemas -/

/-- `casefold` and `upper` on text that they leave alone. -/
def plain : Casing := ⟨id, id⟩

variable (K : Casing)

/-- `Schema`, with what `Schema.create` checks and assigns. -/
@[ext] structure Schema where
  columns  : List Column
  nonempty : columns ≠ []
  numbered : columns = columns.zipIdx.map (fun c => c.1.withId c.2)
  distinct : (columns.map (fun c => K.casefold c.name)).Nodup
  primary  : (columns.filter (·.primaryKey)).length ≤ 1
  deriving DecidableEq

/-- Names are compared as strings are. -/
scoped instance : LawfulBEq Name := inferInstance

/-- The loop of `Schema.create`. -/
def assignIds : List Name → Nat → List Column → Result (List Column)
  | _, _, []                       => .ok []
  | seen, columnId, column :: rest =>
    if K.casefold column.name ∈ seen then raise .catalogError ("duplicate column: " ++ String.ofList column.name)
    else do
      let assigned ← assignIds (K.casefold column.name :: seen) (columnId + 1) rest
      .ok (column.withId columnId :: assigned)

variable {K} in
/-- **The loop numbers the columns**, or raises at a name that has been seen. -/
theorem assignIds_ok : ∀ {columns assigned : List Column} {seen : List Name} {columnId : Nat},
    assignIds K seen columnId columns = .ok assigned ↔
      assigned = (columns.zipIdx columnId).map (fun c => c.1.withId c.2) ∧ (columns.map (fun c => K.casefold c.name)).Nodup ∧
        ∀ c ∈ columns, K.casefold c.name ∉ seen
  | [], assigned, seen, columnId => by
    simp only [assignIds, List.zipIdx_nil, List.map_nil, List.nodup_nil, List.not_mem_nil, false_implies, implies_true, and_true]
    exact ⟨fun h => (by cases h; rfl), fun h => by rw [h]⟩
  | column :: rest, assigned, seen, columnId => by
    rw [assignIds, List.zipIdx_cons, List.map_cons, List.map_cons, List.nodup_cons, List.forall_mem_cons]
    split
    · rename_i hs
      exact ⟨fun h => absurd h raise_ne_ok, fun h => absurd hs h.2.2.1⟩
    · rename_i hs
      rw [bind_eq_ok]
      constructor
      · rintro ⟨as, has, h⟩
        cases h
        obtain ⟨rfl, hnd, hseen⟩ := assignIds_ok.1 has
        refine ⟨rfl, ⟨fun hm => ?_, hnd⟩, hs, fun c hc hm => hseen c hc (List.mem_cons_of_mem _ hm)⟩
        obtain ⟨c, hc, heq⟩ := List.mem_map.1 hm
        exact hseen c hc (by rw [heq]; exact List.mem_cons_self)
      · rintro ⟨rfl, ⟨hne, hnd⟩, -, hseen⟩
        refine ⟨_, assignIds_ok.2 ⟨rfl, hnd, fun c hc hm => ?_⟩, rfl⟩
        rcases List.mem_cons.1 hm with heq | hm
        · exact hne (List.mem_map.2 ⟨c, hc, heq⟩)
        · exact hseen c hc hm

variable {K} in
theorem assignIds_facts {columns assigned : List Column} (hne : columns ≠ []) (h : assignIds K [] 0 columns = .ok assigned) :
    assigned ≠ [] ∧ assigned = assigned.zipIdx.map (fun c => c.1.withId c.2) ∧
      (assigned.map (fun c => K.casefold c.name)).Nodup := by
  obtain ⟨rfl, hnd, -⟩ := assignIds_ok.1 h
  refine ⟨fun he => hne ?_, ?_, ?_⟩
  · rw [List.map_eq_nil_iff, List.zipIdx_eq_nil_iff] at he
    exact he
  · refine List.ext_getElem? (fun i => ?_)
    simp only [List.getElem?_map, List.getElem?_zipIdx, Option.map_map]
    cases columns[i]? <;> rfl
  · rw [List.map_map]
    have hname : ((fun c : Column => K.casefold c.name) ∘ fun c : Column × Nat => c.1.withId c.2) =
        (fun c : Column => K.casefold c.name) ∘ Prod.fst := rfl
    rw [hname, ← List.map_map, List.zipIdx_map_fst]
    exact hnd

def Schema.create (columns : List Column) : Result (Schema K) :=
  if hne : columns = [] then raise .catalogError "table must have at least one column"
  else
    match h : assignIds K [] 0 columns with
    | .error e     => .error e
    | .ok assigned =>
      if hp : 1 < (assigned.filter (·.primaryKey)).length then
        raise .catalogError "composite primary keys are outside the frozen scope"
      else
        .ok ⟨assigned, (assignIds_facts hne h).1, (assignIds_facts hne h).2.1, (assignIds_facts hne h).2.2, not_lt.1 hp⟩

variable {K}

theorem create_columns {columns : List Column} {s : Schema K} (h : Schema.create K columns = .ok s) :
    s.columns = columns.zipIdx.map (fun c => c.1.withId c.2) := by
  unfold Schema.create at h
  split at h
  · exact absurd h raise_ne_ok
  · split at h
    · cases h
    · rename_i ha
      split at h
      · exact absurd h raise_ne_ok
      · cases h
        exact (assignIds_ok.1 ha).1

theorem create_self (s : Schema K) : Schema.create K s.columns = .ok s := by
  have ha : assignIds K [] 0 s.columns = .ok s.columns := assignIds_ok.2 ⟨s.numbered, s.distinct, fun _ _ => List.not_mem_nil⟩
  unfold Schema.create
  rw [dif_neg s.nonempty]
  split
  · rename_i h
    cases ha.symm.trans h
  · rename_i h
    cases ha.symm.trans h
    rw [dif_neg (not_lt.2 s.primary)]

/-- `schema.column(column_id)` -/
def Schema.column (s : Schema K) (columnId : Int) : Result Column :=
  match if 0 ≤ columnId then s.columns[columnId.toNat]? else none with
  | some column => .ok column
  | none        => raise .catalogError ("unknown column ID: " ++ toString columnId)

def Schema.toDocument (s : Schema K) : Json := .list (s.columns.map (fun c => .object c.toDocument))

def columnItem : Json → Result Column
  | .object document => Column.fromDocument document
  | _                => raise .catalogError "invalid schema column metadata"

variable (K) in
def Schema.fromDocument : Json → Result (Schema K)
  | .list items => do
    let columns ← items.mapM columnItem
    let schema ← Schema.create K columns
    if schema.columns ≠ columns then raise .catalogError "catalog column IDs are not contiguous" else .ok schema
  | _           => raise .catalogError "invalid schema metadata"

/-! ## Tables and indexes -/

variable (K) in
@[ext] structure TableMetadata where
  tableId : Int
  name    : Name
  schema  : Schema K
  deriving DecidableEq

structure IndexMetadata where
  indexId   : Int
  tableId   : Int
  name      : Name
  columnIds : List Int
  unique    : Bool
  deriving DecidableEq

def TableMetadata.toDocument (t : TableMetadata K) : List (String × Json) :=
  [("name", .str t.name), ("schema", t.schema.toDocument), ("table_id", .int t.tableId)]

variable (K) in
def TableMetadata.fromDocument (document : List (String × Json)) : Result (TableMetadata K) := do
  let (tableId, name, schemaDocument) ← reraise "invalid table metadata" (do
    let tableId ← (item document "table_id").bind requiredInt
    let name ← (item document "name").bind requiredStr
    let schemaDocument ← item document "schema"
    .ok (tableId, name, schemaDocument))
  if tableId ≤ 0 ∨ name = [] then raise .catalogError "invalid table identity"
  else do
    let schema ← Schema.fromDocument K schemaDocument
    .ok ⟨tableId, name, schema⟩

def IndexMetadata.toDocument (i : IndexMetadata) : List (String × Json) :=
  [("column_ids", .list (i.columnIds.map .int)), ("index_id", .int i.indexId), ("name", .str i.name),
    ("table_id", .int i.tableId),
    ("unique", .bool i.unique)]

def columnIdsOf : Json → Result (List Int)
  | .list items => items.mapM requiredInt
  | _           => raise .catalogError "index columns must be a list"

def IndexMetadata.fromDocument (document : List (String × Json)) : Result IndexMetadata := do
  let metadata ← reraise "invalid index metadata" (do
    let columnIds ← (item document "column_ids").bind columnIdsOf
    let indexId ← (item document "index_id").bind requiredInt
    let tableId ← (item document "table_id").bind requiredInt
    let name ← (item document "name").bind requiredStr
    let unique ← (item document "unique").bind requiredBool
    .ok (⟨indexId, tableId, name, columnIds, unique⟩ : IndexMetadata))
  if metadata.indexId ≤ 0 ∨ metadata.tableId ≤ 0 ∨ metadata.name = [] then raise .catalogError "invalid index identity"
  else .ok metadata

/-! ## What is written is read -/

theorem dataTypeOf_value (d : DataType) : dataTypeOf d.value.toList = .ok d := by
  cases d <;> rfl

theorem Column.fromDocument_toDocument (c : Column) : Column.fromDocument c.toDocument = .ok c := by
  obtain ⟨name, dataType, nullable, primaryKey, unique, columnId, hn, hi, hk⟩ := c
  have hcreate : Column.create name dataType nullable primaryKey unique columnId =
      .ok ⟨name, dataType, nullable, primaryKey, unique, columnId, hn, hi, hk⟩ := by
    unfold Column.create
    rw [dif_pos hn, dif_neg (not_lt.2 hi)]
    cases primaryKey with
    | false => simp
    | true =>
      obtain ⟨rfl, rfl⟩ := hk rfl
      rfl
  have hread : Column.fromDocument (Column.toDocument ⟨name, dataType, nullable, primaryKey, unique, columnId, hn, hi, hk⟩) =
      reraise "invalid column metadata" (do
        let d ← dataTypeOf dataType.value.toList
        Column.create name d nullable primaryKey unique columnId) := rfl
  rw [hread, dataTypeOf_value]
  exact congrArg (reraise _) hcreate

theorem mapM_map_ok {α β γ : Type} {f : α → β} {g : β → Result γ} {h : α → γ} (hg : ∀ a, g (f a) = .ok (h a)) :
    ∀ l : List α, (l.map f).mapM g = .ok (l.map h)
  | []     => rfl
  | a :: l => by
    rw [List.map_cons, List.mapM_cons, hg, mapM_map_ok hg l]
    rfl

theorem Schema.fromDocument_toDocument (s : Schema K) : Schema.fromDocument K s.toDocument = .ok s := by
  unfold Schema.fromDocument Schema.toDocument
  simp only
  rw [mapM_map_ok (f := fun c : Column => Json.object c.toDocument) (fun c => Column.fromDocument_toDocument c)]
  simp only [List.map_id', bind, Except.bind, create_self, ne_eq, not_true_eq_false, if_false]

theorem TableMetadata.fromDocument_toDocument {t : TableMetadata K} (hi : 0 < t.tableId) (hn : t.name ≠ []) :
    TableMetadata.fromDocument K t.toDocument = .ok t := by
  have hread : TableMetadata.fromDocument K t.toDocument =
      if t.tableId ≤ 0 ∨ t.name = [] then raise .catalogError "invalid table identity"
      else (Schema.fromDocument K t.schema.toDocument).bind (fun schema => .ok ⟨t.tableId, t.name, schema⟩) := rfl
  rw [hread, if_neg (by rintro (h | h); exacts [absurd h (not_le.2 hi), hn h]), Schema.fromDocument_toDocument]
  rfl

theorem IndexMetadata.fromDocument_toDocument {i : IndexMetadata} (hi : 0 < i.indexId) (ht : 0 < i.tableId) (hn : i.name ≠ []) :
    IndexMetadata.fromDocument i.toDocument = .ok i := by
  have hids : (i.columnIds.map Json.int).mapM requiredInt = .ok i.columnIds := by
    rw [mapM_map_ok (f := Json.int) (h := id) (fun _ => rfl), List.map_id]
  have hread : IndexMetadata.fromDocument i.toDocument = (do
      let metadata ← reraise "invalid index metadata" (do
        let columnIds ← (i.columnIds.map Json.int).mapM requiredInt
        .ok (⟨i.indexId, i.tableId, i.name, columnIds, i.unique⟩ : IndexMetadata))
      if metadata.indexId ≤ 0 ∨ metadata.tableId ≤ 0 ∨ metadata.name = [] then raise .catalogError "invalid index identity"
      else .ok metadata) := rfl
  rw [hread, hids]
  have hfine : ¬(i.indexId ≤ 0 ∨ i.tableId ≤ 0 ∨ i.name = []) := by
    rintro (h | h | h)
    exacts [absurd h (not_le.2 hi), absurd h (not_le.2 ht), hn h]
  exact if_neg hfine

/-! ## The catalog -/

/-- The entries of one kind: by ID, by `casefold`ed name, and the ID that the next of them gets. -/
structure Registry (α : Type) where
  byId   : Dict Int α
  names  : Dict Name Int
  nextId : Int
  deriving DecidableEq

namespace Registry

variable {α : Type}

/-- The dictionaries that `__init__` makes of the entries. -/
def load (idOf : α → Int) (nameOf : α → Name) (nextId : Int) (entries : List α) : Registry α :=
  ⟨.ofList (entries.map (fun a => (idOf a, a))), .ofList (entries.map (fun a => (nameOf a, idOf a))), nextId⟩

def values (r : Registry α) : List α := r.byId.map Prod.snd

def add (r : Registry α) (id : Int) (name : Name) (a : α) : Registry α := ⟨r.byId.set id a, r.names.set name id, r.nextId + 1⟩

def remove (r : Registry α) (id : Int) (name : Name) : Registry α := ⟨r.byId.erase id, r.names.erase name, r.nextId - 1⟩

theorem remove_add_eq_iff {r : Registry α} {id : Int} {name : Name} {a : α} (hn : name ∉ r.names.keys) :
    (r.add id name a).remove id name = r ↔ id ∉ r.byId.keys := by
  unfold add remove
  rw [Dict.erase_set _ hn, add_sub_cancel_right]
  constructor
  · intro h
    exact (Dict.erase_set_eq_iff a).1 (congrArg Registry.byId h)
  · intro h
    rw [Dict.erase_set a h]

end Registry

def TableMetadata.normalizedName (t : TableMetadata K) : Name := K.casefold t.name

variable (K) in
def IndexMetadata.normalizedName (i : IndexMetadata) : Name := K.casefold i.name

variable (K) in
/-- What a `Catalog` object holds. -/
structure CatalogState where
  tables  : Registry (TableMetadata K)
  indexes : Registry IndexMetadata
  deriving DecidableEq

namespace CatalogState

variable (K) in
def init (nextTableId nextIndexId : Int) (tables : List (TableMetadata K)) (indexes : List IndexMetadata) :
    Result (CatalogState K) :=
  let t := Registry.load TableMetadata.tableId TableMetadata.normalizedName nextTableId tables
  let i := Registry.load IndexMetadata.indexId (IndexMetadata.normalizedName K) nextIndexId indexes
  if t.byId.length ≠ tables.length ∨ t.names.length ≠ tables.length then raise .catalogError "duplicate table metadata"
  else if i.byId.length ≠ indexes.length ∨ i.names.length ≠ indexes.length then raise .catalogError "duplicate index metadata"
  else do
    indexes.forM (fun index =>
      match t.byId.get? index.tableId with
      | none       => raise .catalogError "index refers to an unknown table"
      | some table =>
        if index.columnIds = [] ∨ ∃ columnId ∈ index.columnIds, columnId < 0 ∨ (table.schema.columns.length : Int) ≤ columnId then
          raise .catalogError "index refers to an unknown column"
        else .ok ())
    .ok ⟨t, i⟩

variable (K) in
def empty : CatalogState K := ⟨⟨[], [], 1⟩, ⟨[], [], 1⟩⟩

def document (s : CatalogState K) : List (String × Json) :=
  [("format_version", .int 1), ("indexes", .list (s.indexes.values.map (fun i => .object i.toDocument))),
    ("next_index_id", .int s.indexes.nextId), ("next_table_id", .int s.tables.nextId),
    ("tables", .list (s.tables.values.map (fun t => .object t.toDocument)))]

end CatalogState

/-! ## The file -/

/-- The contents of a file: a JSON value, or a text that `json.loads` rejects. -/
inductive FileText
  | json (value : Json)
  | unreadable

/-- `catalog.json` and `catalog.json.tmp` -/
structure Files where
  catalog   : Option FileText
  temporary : Option FileText

def catalogInt (document : List (String × Json)) (key : String) : Result Int :=
  match document.lookup key with
  | some (.int n) => .ok n
  | some _        => raise .catalogError ("invalid catalog integer field: " ++ key)
  | none          => raise .catalogError ("missing catalog field: " ++ key)

def listItems : Json → Result (List Json)
  | .list items => .ok items
  | _           => raise .catalogError "catalog tables and indexes must be lists"

variable (K) in
def tableItem : Json → Result (TableMetadata K)
  | .object document => TableMetadata.fromDocument K document
  | _                => raise .catalogError "invalid table metadata"

def indexItem : Json → Result IndexMetadata
  | .object document => IndexMetadata.fromDocument document
  | _                => raise .catalogError "invalid index metadata"

variable (K) in
/-- The part of `Catalog.open` whose errors become 'invalid catalog metadata'. -/
def fromDocument (document : List (String × Json)) : Result (CatalogState K) := do
  let rawTables ← (item document "tables").bind listItems
  let rawIndexes ← (item document "indexes").bind listItems
  let tables ← rawTables.mapM (tableItem K)
  let indexes ← rawIndexes.mapM indexItem
  let nextTableId ← catalogInt document "next_table_id"
  let nextIndexId ← catalogInt document "next_index_id"
  CatalogState.init K nextTableId nextIndexId tables indexes

variable (K) in
/-- **`Catalog.open`**, which removes the temporary file and reads the other. -/
def openCatalog (files : Files) : Result (CatalogState K) :=
  match files.catalog with
  | none                           => .ok (.empty K)
  | some .unreadable               => raise .catalogError "invalid catalog JSON"
  | some (.json (.object document)) => do
    let version ← catalogInt document "format_version"
    if version ≠ 1 then raise .catalogError ("unsupported catalog format version: " ++ toString version)
    else reraise "invalid catalog metadata" (fromDocument K document)
  | some (.json _)                  => raise .catalogError "catalog root must be an object"

/-- Where `_persist` may raise: `encode` is the one place outside its `try`. -/
inductive PersistPoint
  | encode | openTemporary | write | fsync | rename | openDirectory | fsyncDirectory | closeDirectory
  deriving DecidableEq

/-- `os.replace` has not been done. -/
def PersistPoint.beforeReplace : PersistPoint → Bool
  | .openDirectory | .fsyncDirectory | .closeDirectory => false
  | _                                                   => true

/-- The handler of `_persist`. -/
def failedPersist (files : Files) : Files × Result Unit :=
  ({ files with temporary := none }, raise .catalogError "failed to persist catalog")

def persist (document : List (String × Json)) (fault : Option PersistPoint) (files : Files) : Files × Result Unit :=
  if fault = some .encode then (files, raise .valueError "surrogates not allowed")
  else if fault = some .openTemporary then failedPersist files
  else
    let opened : Files := { files with temporary := some .unreadable }
    if fault = some .write then failedPersist opened
    else
      let written : Files := { files with temporary := some (.json (.object document)) }
      if fault = some .fsync ∨ fault = some .rename then failedPersist written
      else
        let replaced : Files := ⟨written.temporary, none⟩
        if fault = some .openDirectory ∨ fault = some .fsyncDirectory ∨ fault = some .closeDirectory then failedPersist replaced
        else (replaced, .ok ())

/-- **What a failure leaves on disk**: the old file up to the rename, the new one after it. -/
theorem persist_fault (document : List (String × Json)) (point : PersistPoint) (files : Files) :
    (∃ e, (persist document (some point) files).2 = .error e) ∧
      (persist document (some point) files).1.catalog =
        if point.beforeReplace then files.catalog else some (.json (.object document)) := by
  cases point <;> exact ⟨⟨_, rfl⟩, rfl⟩

theorem persist_none (document : List (String × Json)) (files : Files) :
    persist document none files = (⟨some (.json (.object document)), none⟩, .ok ()) := rfl

end CatalogFile
end MiniPostgres
