import MiniPostgres.CatalogFile
/-!
# CatalogStore — publications of the catalog

`prepare_table`, `publish_table`, `prepare_index` and `publish_index`.  A publication changes the dictionaries, persists, and
takes the change back when that raises; the file has been replaced by then if the failure comes from the directory.
-/
namespace MiniPostgres
namespace CatalogFile

variable {K : Casing}

/-! ## Catalogs that can be read back -/

/-- The entries of one kind are under their own IDs and names, and the next ID is new. -/
structure Registry.Valid {α : Type} (idOf : α → Int) (nameOf : α → Name) (r : Registry α) : Prop where
  own    : ∀ e ∈ r.byId, e.1 = idOf e.2
  ids    : r.byId.keys.Nodup
  named  : r.names = r.values.map (fun a => (nameOf a, idOf a))
  names  : r.names.keys.Nodup
  below  : ∀ id ∈ r.byId.keys, 0 < id ∧ id < r.nextId
  nextId : 0 < r.nextId

namespace Registry.Valid

variable {α : Type} {idOf : α → Int} {nameOf : α → Name} {r : Registry α}

theorem byId_eq (h : Registry.Valid idOf nameOf r) : r.byId = r.values.map (fun a => (idOf a, a)) := by
  rw [Registry.values, List.map_map]
  exact (List.map_id' r.byId).symm.trans (List.map_congr_left (fun e he => Prod.ext (h.own e he) rfl))

theorem load_eq (h : Registry.Valid idOf nameOf r) : Registry.load idOf nameOf r.nextId r.values = r := by
  have hids := h.ids
  have hnames := h.names
  unfold Registry.load
  rw [← h.byId_eq, ← h.named, Dict.ofList_of_nodup hids, Dict.ofList_of_nodup hnames]

theorem new (h : Registry.Valid idOf nameOf r) : r.nextId ∉ r.byId.keys := fun hm => absurd (h.below _ hm).2 (lt_irrefl _)

theorem values_add (h : Registry.Valid idOf nameOf r) (name : Name) (a : α) :
    (r.add r.nextId name a).values = r.values ++ [a] := by
  unfold Registry.values Registry.add
  rw [Dict.set_of_notMem a h.new, List.map_append]
  rfl

theorem add (h : Registry.Valid idOf nameOf r) {a : α} (hi : idOf a = r.nextId) (hn : nameOf a ∉ r.names.keys) :
    Registry.Valid idOf nameOf (r.add r.nextId (nameOf a) a) := by
  have hbyId : (r.add r.nextId (nameOf a) a).byId = r.byId ++ [(r.nextId, a)] := Dict.set_of_notMem a h.new
  have hnames : (r.add r.nextId (nameOf a) a).names = r.names ++ [(nameOf a, r.nextId)] := Dict.set_of_notMem r.nextId hn
  refine ⟨?_, ?_, ?_, ?_, ?_, ?_⟩
  · rw [hbyId, List.forall_mem_append, List.forall_mem_singleton]
    exact ⟨h.own, hi.symm⟩
  · rw [hbyId]
    exact Dict.nodup_keys_append a h.ids h.new
  · rw [hnames, h.values_add, List.map_append, h.named, List.map_singleton, hi]
  · rw [hnames]
    exact Dict.nodup_keys_append r.nextId h.names hn
  · have hnext : (r.add r.nextId (nameOf a) a).nextId = r.nextId + 1 := rfl
    have hpos := h.nextId
    rw [hbyId, hnext]
    unfold Dict.keys
    rw [List.map_append, List.forall_mem_append, List.map_singleton, List.forall_mem_singleton]
    exact ⟨fun id hid => ⟨(h.below id hid).1, by have := (h.below id hid).2; omega⟩, hpos, by omega⟩
  · have hnext : (r.add r.nextId (nameOf a) a).nextId = r.nextId + 1 := rfl
    have hpos := h.nextId
    omega

end Registry.Valid

/-- What `open` asks of the columns of an index. -/
def IndexMetadata.OfTable (i : IndexMetadata) (t : TableMetadata K) : Prop :=
  i.columnIds ≠ [] ∧ ∀ columnId ∈ i.columnIds, 0 ≤ columnId ∧ columnId < t.schema.columns.length

structure CatalogState.Valid (s : CatalogState K) : Prop where
  tables     : s.tables.Valid TableMetadata.tableId TableMetadata.normalizedName
  indexes    : s.indexes.Valid IndexMetadata.indexId (IndexMetadata.normalizedName K)
  tableNames : ∀ t ∈ s.tables.values, t.name ≠ []
  indexNames : ∀ i ∈ s.indexes.values, i.name ≠ []
  backed     : ∀ i ∈ s.indexes.values, ∃ t, s.tables.byId.get? i.tableId = some t ∧ i.OfTable t

theorem CatalogState.valid_empty : (CatalogState.empty K).Valid :=
  ⟨⟨fun e he => (by cases he), List.nodup_nil, rfl, List.nodup_nil, fun e he => (by cases he), Int.one_pos⟩,
    ⟨fun e he => (by cases he), List.nodup_nil, rfl, List.nodup_nil, fun e he => (by cases he), Int.one_pos⟩,
    fun e he => (by cases he), fun e he => (by cases he), fun e he => (by cases he)⟩

theorem mapM_map_mem {α β γ : Type} {f : α → β} {g : β → Result γ} {h : α → γ} :
    ∀ {l : List α}, (∀ a ∈ l, g (f a) = .ok (h a)) → (l.map f).mapM g = .ok (l.map h)
  | [], _      => rfl
  | a :: l, hg => by
    rw [List.map_cons, List.mapM_cons, hg a List.mem_cons_self, mapM_map_mem (fun b hb => hg b (List.mem_cons_of_mem _ hb))]
    rfl

theorem forM_ok {α : Type} {f : α → Result Unit} : ∀ {l : List α}, (∀ a ∈ l, f a = .ok ()) → l.forM f = .ok ()
  | [], _      => rfl
  | a :: l, hf => by
    have htail := forM_ok (f := f) (fun b hb => hf b (List.mem_cons_of_mem a hb))
    show (f a >>= fun _ => l.forM f) = .ok ()
    rw [hf a List.mem_cons_self, htail]
    rfl

theorem forM_eq_ok {α : Type} {f : α → Result Unit} : ∀ {l : List α}, l.forM f = .ok () → ∀ a ∈ l, f a = .ok ()
  | b :: l, h, a, ha => by
    have hcons : (f b >>= fun _ => l.forM f) = .ok () := h
    obtain ⟨u, hb, htail⟩ := bind_eq_ok.1 hcons
    rcases List.mem_cons.1 ha with rfl | ha
    · exact hb
    · exact forM_eq_ok htail a ha

namespace CatalogState.Valid

variable {s : CatalogState K}

theorem init_eq (h : s.Valid) :
    CatalogState.init K s.tables.nextId s.indexes.nextId s.tables.values s.indexes.values = .ok s := by
  have hlen : ∀ {α : Type} {idOf : α → Int} {nameOf : α → Name} {r : Registry α}, r.Valid idOf nameOf →
      r.byId.length = r.values.length ∧ r.names.length = r.values.length := by
    intro α idOf nameOf r hr
    exact ⟨(List.length_map _).symm, by rw [hr.named, List.length_map]⟩
  unfold CatalogState.init
  simp only [h.tables.load_eq, h.indexes.load_eq]
  rw [if_neg (by rintro (he | he); exacts [he (hlen h.tables).1, he (hlen h.tables).2]),
    if_neg (by rintro (he | he); exacts [he (hlen h.indexes).1, he (hlen h.indexes).2]), forM_ok]
  · rfl
  · intro i hi
    obtain ⟨t, ht, hne, hcols⟩ := h.backed i hi
    simp only [ht]
    refine if_neg ?_
    rintro (he | ⟨c, hc, hbad⟩)
    · exact hne he
    · have := hcols c hc
      omega

/-- **A catalog that has been written is read back**, whatever the temporary file holds. -/
theorem openCatalog_document (h : s.Valid) (temporary : Option FileText) :
    openCatalog K ⟨some (.json (.object s.document)), temporary⟩ = .ok s := by
  have htables : (s.tables.values.map (fun t => Json.object t.toDocument)).mapM (tableItem K) = .ok s.tables.values := by
    refine (mapM_map_mem (fun t ht => ?_)).trans (congrArg Except.ok (List.map_id _))
    obtain ⟨e, he, rfl⟩ := List.mem_map.1 ht
    have hid := h.tables.below e.1 (Dict.mem_keys_of_mem he)
    rw [h.tables.own e he] at hid
    exact TableMetadata.fromDocument_toDocument hid.1 (h.tableNames _ ht)
  have hindexes : (s.indexes.values.map (fun i => Json.object i.toDocument)).mapM indexItem = .ok s.indexes.values := by
    refine (mapM_map_mem (fun i hi => ?_)).trans (congrArg Except.ok (List.map_id _))
    obtain ⟨e, he, rfl⟩ := List.mem_map.1 hi
    have hid := h.indexes.below e.1 (Dict.mem_keys_of_mem he)
    rw [h.indexes.own e he] at hid
    obtain ⟨t, ht, -⟩ := h.backed _ hi
    have htid := h.tables.below _ (Dict.mem_keys_of_mem (Dict.mem_of_get? ht))
    exact IndexMetadata.fromDocument_toDocument hid.1 htid.1 (h.indexNames _ hi)
  have hread : openCatalog K ⟨some (.json (.object s.document)), temporary⟩ = reraise "invalid catalog metadata" (do
      let tables ← (s.tables.values.map (fun t => Json.object t.toDocument)).mapM (tableItem K)
      let indexes ← (s.indexes.values.map (fun i => Json.object i.toDocument)).mapM indexItem
      CatalogState.init K s.tables.nextId s.indexes.nextId tables indexes) := rfl
  rw [hread, htables, hindexes]
  exact congrArg (reraise _) h.init_eq

end CatalogState.Valid
/-! ## Preparing an entry -/

namespace CatalogState

def prepareTable (s : CatalogState K) (name : Name) (columns : List Column) : Result (TableMetadata K) :=
  if ¬ValidName name then raise .catalogError "table name must be non-empty and contain no NUL"
  else if K.casefold name ∈ s.tables.names.keys then raise .catalogError ("table already exists: " ++ String.ofList name)
  else do
    let schema ← Schema.create K columns
    .ok ⟨s.tables.nextId, name, schema⟩

/-- `table(table_id)` -/
def table (s : CatalogState K) (tableId : Int) : Result (TableMetadata K) :=
  match s.tables.byId.get? tableId with
  | some t => .ok t
  | none   => raise .catalogError ("unknown table ID: " ++ toString tableId)

def prepareIndex (s : CatalogState K) (name : Name) (tableId : Int) (columnIds : List Int)
    (unique : Bool) : Result IndexMetadata :=
  if ¬ValidName name then raise .catalogError "index name must be non-empty and contain no NUL"
  else if K.casefold name ∈ s.indexes.names.keys then raise .catalogError ("index already exists: " ++ String.ofList name)
  else do
    let table ← s.table tableId
    if columnIds = [] then raise .catalogError "index requires at least one column"
    else if ¬columnIds.Nodup then raise .catalogError "index columns must be distinct"
    else do
      columnIds.forM (fun columnId => do
        let _ ← table.schema.column columnId
        .ok ())
      .ok ⟨s.indexes.nextId, tableId, name, columnIds, unique⟩

end CatalogState

/-! ## Publishing it -/

variable (K) in
inductive Publication
  | table (metadata : TableMetadata K)
  | index (metadata : IndexMetadata)

namespace Publication

/-- The checks before the change. -/
def check (s : CatalogState K) : Publication K → Result Unit
  | .table t =>
    if t.tableId ≠ s.tables.nextId then raise .catalogError "table publication uses a stale table ID"
    else if t.normalizedName ∈ s.tables.names.keys then raise .catalogError ("table already exists: " ++ String.ofList t.name)
    else .ok ()
  | .index i =>
    if i.indexId ≠ s.indexes.nextId then raise .catalogError "index publication uses a stale index ID"
    else if i.normalizedName K ∈ s.indexes.names.keys then raise .catalogError ("index already exists: " ++ String.ofList i.name)
    else do
      let _ ← s.table i.tableId
      .ok ()

def added (s : CatalogState K) : Publication K → CatalogState K
  | .table t => { s with tables := s.tables.add t.tableId t.normalizedName t }
  | .index i => { s with indexes := s.indexes.add i.indexId (i.normalizedName K) i }

/-- What the handler takes back. -/
def removed (s : CatalogState K) : Publication K → CatalogState K
  | .table t => { s with tables := s.tables.remove t.tableId t.normalizedName }
  | .index i => { s with indexes := s.indexes.remove i.indexId (i.normalizedName K) }

/-- The ID is not that of an entry of the catalog. -/
def IdNew (s : CatalogState K) : Publication K → Prop
  | .table t => t.tableId ∉ s.tables.byId.keys
  | .index i => i.indexId ∉ s.indexes.byId.keys

theorem removed_added_iff {s : CatalogState K} {p : Publication K} (h : p.check s = .ok ()) :
    p.removed (p.added s) = s ↔ p.IdNew s := by
  cases p with
  | table t =>
    simp only [check] at h
    split at h
    · exact absurd h raise_ne_ok
    · split at h
      · exact absurd h raise_ne_ok
      · rename_i hn
        have hiff := @Registry.remove_add_eq_iff _ s.tables t.tableId t.normalizedName t hn
        refine ⟨fun he => hiff.1 (congrArg CatalogState.tables he), fun hnew => ?_⟩
        simp only [added, removed, hiff.2 hnew]
  | index i =>
    simp only [check] at h
    split at h
    · exact absurd h raise_ne_ok
    · split at h
      · exact absurd h raise_ne_ok
      · rename_i hn
        have hiff := @Registry.remove_add_eq_iff _ s.indexes i.indexId _ i hn
        refine ⟨fun he => hiff.1 (congrArg CatalogState.indexes he), fun hnew => ?_⟩
        simp only [added, removed, hiff.2 hnew]

end Publication

namespace CatalogState.Valid

variable {s : CatalogState K}

theorem addTable (h : s.Valid) {t : TableMetadata K} (hi : t.tableId = s.tables.nextId)
    (hn : t.normalizedName ∉ s.tables.names.keys) (hne : t.name ≠ []) : ((Publication.table t).added s).Valid := by
  have hadd := h.tables.add hi hn
  rw [← hi] at hadd
  have hvalues := h.tables.values_add t.normalizedName t
  have hbyId : (s.tables.add t.tableId t.normalizedName t).byId = s.tables.byId ++ [(t.tableId, t)] :=
    Dict.set_of_notMem t (by rw [hi]; exact h.tables.new)
  refine ⟨hadd, h.indexes, ?_, h.indexNames, ?_⟩
  · show ∀ x ∈ (s.tables.add t.tableId t.normalizedName t).values, x.name ≠ []
    rw [hi, hvalues, List.forall_mem_append, List.forall_mem_singleton]
    exact ⟨h.tableNames, hne⟩
  · intro i hm
    obtain ⟨x, hx, hof⟩ := h.backed i hm
    refine ⟨x, ?_, hof⟩
    show Dict.get? (s.tables.add t.tableId t.normalizedName t).byId i.tableId = some x
    rw [hbyId]
    exact Dict.get?_append hx _

theorem addIndex (h : s.Valid) {i : IndexMetadata} (hi : i.indexId = s.indexes.nextId)
    (hn : i.normalizedName K ∉ s.indexes.names.keys) (hne : i.name ≠ [])
    (hb : ∃ t, s.tables.byId.get? i.tableId = some t ∧ i.OfTable t) : ((Publication.index i).added s).Valid := by
  have hadd := h.indexes.add hi hn
  rw [← hi] at hadd
  have hvalues : (s.indexes.add i.indexId (i.normalizedName K) i).values = s.indexes.values ++ [i] := by
    rw [hi]
    exact h.indexes.values_add _ i
  refine ⟨h.tables, hadd, h.tableNames, ?_, ?_⟩
  · show ∀ x ∈ (s.indexes.add i.indexId (i.normalizedName K) i).values, x.name ≠ []
    rw [hvalues, List.forall_mem_append, List.forall_mem_singleton]
    exact ⟨h.indexNames, hne⟩
  · show ∀ x ∈ (s.indexes.add i.indexId (i.normalizedName K) i).values, ∃ t, s.tables.byId.get? x.tableId = some t ∧ x.OfTable t
    rw [hvalues, List.forall_mem_append, List.forall_mem_singleton]
    exact ⟨h.backed, hb⟩

end CatalogState.Valid

variable (K) in
/-- A `Catalog` object and the directory it persists in. -/
structure CatalogStore where
  memory : CatalogState K
  files  : Files

namespace CatalogStore

def publish (s : CatalogStore K) (p : Publication K) (fault : Option PersistPoint) : CatalogStore K × Result Unit :=
  match p.check s.memory with
  | .error e => (s, .error e)
  | .ok ()   =>
    let written := persist (p.added s.memory).document fault s.files
    match written.2 with
    | .ok ()   => (⟨p.added s.memory, written.1⟩, .ok ())
    | .error e => (⟨p.removed (p.added s.memory), written.1⟩, .error e)

def publishTable (s : CatalogStore K) (metadata : TableMetadata K) (fault : Option PersistPoint) : CatalogStore K × Result Unit :=
  s.publish (.table metadata) fault

def publishIndex (s : CatalogStore K) (metadata : IndexMetadata) (fault : Option PersistPoint) : CatalogStore K × Result Unit :=
  s.publish (.index metadata) fault

variable {s : CatalogStore K} {p : Publication K} {fault : Option PersistPoint}

theorem publish_refused {e : Error} (h : p.check s.memory = .error e) : s.publish p fault = (s, .error e) := by
  unfold publish
  rw [h]

theorem publish_none (h : p.check s.memory = .ok ()) :
    s.publish p none = (⟨p.added s.memory, ⟨some (.json (.object (p.added s.memory).document)), none⟩⟩, .ok ()) := by
  unfold publish
  rw [h]
  simp only [persist_none]

/-- **A failure of `_persist`**: the change is taken back, and the file is the old one up to the rename. -/
theorem publish_fault (h : p.check s.memory = .ok ()) (point : PersistPoint) :
    (∃ e, (s.publish p (some point)).2 = .error e) ∧ (s.publish p (some point)).1.memory = p.removed (p.added s.memory) ∧
      (s.publish p (some point)).1.files.catalog =
        if point.beforeReplace then s.files.catalog else some (.json (.object (p.added s.memory).document)) := by
  obtain ⟨⟨e, he⟩, hfile⟩ := persist_fault (p.added s.memory).document point s.files
  unfold publish
  rw [h]
  simp only [he]
  exact ⟨⟨e, rfl⟩, trivial, hfile⟩

/-! ## A failed publication -/

/-- **A call that raises changes nothing**, in the object or for the next `Catalog.open`. -/
def KeepsOnFailure (s : CatalogStore K) (p : Publication K) (fault : Option PersistPoint) : Prop :=
  ∀ e, (s.publish p fault).2 = .error e →
    (s.publish p fault).1.memory = s.memory ∧ openCatalog K (s.publish p fault).1.files = openCatalog K s.files

/-- The directory reads already as it would with the entry published. -/
def ReadsAhead (s : CatalogStore K) (p : Publication K) : Prop :=
  openCatalog K s.files = openCatalog K ⟨some (.json (.object (p.added s.memory).document)), none⟩

theorem openCatalog_congr {f g : Files} (h : f.catalog = g.catalog) : openCatalog K f = openCatalog K g := by
  unfold openCatalog
  rw [h]

/-- **When a failed publication changes nothing**: the step that raises comes before the rename, and the ID that the rollback
deletes is new. -/
theorem keepsOnFailure_iff (s : CatalogStore K) (p : Publication K) (fault : Option PersistPoint) :
    s.KeepsOnFailure p fault ↔ ∀ point, fault = some point → (∃ e, p.check s.memory = .error e) ∨
      (p.IdNew s.memory ∧ (point.beforeReplace = true ∨ s.ReadsAhead p)) := by
  cases hc : p.check s.memory with
  | error e =>
    refine ⟨fun _ point _ => .inl ⟨e, rfl⟩, fun _ e' _ => ?_⟩
    rw [publish_refused hc]
    exact ⟨rfl, rfl⟩
  | ok u =>
    cases fault with
    | none =>
      refine ⟨fun _ point hp => (by cases hp), fun _ e he => ?_⟩
      rw [publish_none hc] at he
      cases he
    | some point =>
      obtain ⟨⟨e, he⟩, hmem, hfile⟩ := publish_fault hc point
      have hopen : openCatalog K (s.publish p (some point)).1.files = openCatalog K s.files ↔
          point.beforeReplace = true ∨ s.ReadsAhead p := by
        cases hb : point.beforeReplace with
        | true =>
          rw [hb, if_pos rfl] at hfile
          exact ⟨fun _ => .inl rfl, fun _ => openCatalog_congr hfile⟩
        | false =>
          rw [hb, if_neg (by decide)] at hfile
          have hnew : openCatalog K (s.publish p (some point)).1.files =
              openCatalog K ⟨some (.json (.object (p.added s.memory).document)), none⟩ := openCatalog_congr hfile
          rw [hnew]
          exact ⟨fun h => .inr h.symm, fun h => (h.resolve_left (by decide)).symm⟩
      constructor
      · intro h point' hp
        cases hp
        obtain ⟨h1, h2⟩ := h e he
        rw [hmem] at h1
        exact .inr ⟨(Publication.removed_added_iff hc).1 h1, hopen.1 h2⟩
      · intro h e' _
        rcases h point rfl with ⟨e₀, he₀⟩ | ⟨hid, hread⟩
        · cases he₀
        · rw [hmem, (Publication.removed_added_iff hc).2 hid]
          exact ⟨rfl, hopen.2 hread⟩

/-- For an entry that keeps the catalog readable: a fresh `Catalog.open` finds the entry already. -/
theorem readsAhead_iff (h : (p.added s.memory).Valid) : s.ReadsAhead p ↔ openCatalog K s.files = .ok (p.added s.memory) := by
  unfold ReadsAhead
  rw [h.openCatalog_document]

end CatalogStore

/-! ## A directory that cannot be synced -/

def idColumn : Column := ⟨"id".toList, .int64, true, false, false, 0, by decide, by decide, keyed_of_false⟩

def oneTable : TableMetadata plain := ⟨1, "t".toList, ⟨[idColumn], List.cons_ne_nil _ _, rfl, List.nodup_singleton _, by decide⟩⟩

/-- An empty directory, just opened. -/
def freshStore : CatalogStore plain := ⟨.empty plain, ⟨none, none⟩⟩

/-- **The table is on disk when the sync of the directory raises**, and no longer in memory. -/
theorem failed_publication_on_disk : ¬∀ (K : Casing) (s : CatalogStore K) (p : Publication K) (fault : Option PersistPoint),
    s.KeepsOnFailure p fault := by
  intro h
  rcases (CatalogStore.keepsOnFailure_iff _ _ _).1 (h plain freshStore (.table oneTable) (some .fsyncDirectory)) _ rfl with
    ⟨e, he⟩ | ⟨-, hb | hread⟩
  · cases he
  · cases hb
  · have hvalid : ((Publication.table oneTable).added freshStore.memory).Valid :=
      CatalogState.valid_empty.addTable rfl List.not_mem_nil (by decide)
    rw [CatalogStore.readsAhead_iff hvalid] at hread
    cases congrArg (fun r => r.map (fun c : CatalogState plain => c.tables.nextId)) hread

end CatalogFile
end MiniPostgres
