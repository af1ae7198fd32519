import MiniPostgres.Database
import MiniPostgres.Rows
/-!
# Publications — what the statements of a database publish

A statement publishes one page at a time, each time with a table that a crash may leave behind (`Pending`): it keeps the
invariant of heap and history, differs from the table before on one page, and to whoever does not count the writer it is
the same database (`Kept`).
-/
namespace MiniPostgres

open History (Write WF Serial Closed getElem?_concat lt_of_getElem?)

namespace TableData

def look (d : TableData) : Versions := d.table.physicalVersion

def rowOf (d : TableData) (tid : TID) : Nat := MiniPostgres.rowOf d.log d.origin tid

/-- The page as REDO sees it: one that is not allocated is blank. -/
def page (d : TableData) (n : Nat) : HeapPage := (d.table.pages[n]?).getD .empty

end TableData

/-! ## The same database -/

/-- **Who counts only some transactions sees no difference between the tables.** -/
structure Kept (counted : Nat → Bool) (d d' : TableData) : Prop where
  database : ∀ row, History.database counted d.log row = History.database counted d'.log row
  rows     : ∀ a v, d.look a = some v → counted v.xmin = true → ∃ v', d'.look a = some v' ∧ v'.xmin = v.xmin ∧
    d'.rowOf a = d.rowOf a

theorem Kept.refl (counted : Nat → Bool) (d : TableData) : Kept counted d d :=
  ⟨fun _ => rfl, fun _ v hv _ => ⟨v, hv, rfl, rfl⟩⟩

theorem Kept.trans {counted : Nat → Bool} {d d' d'' : TableData} (h : Kept counted d d') (h' : Kept counted d' d'') :
    Kept counted d d'' := by
  refine ⟨fun row => (h.database row).trans (h'.database row), fun a v hv hc => ?_⟩
  obtain ⟨v', hv', hx, hr⟩ := h.rows a v hv hc
  obtain ⟨v'', hv'', hx', hr'⟩ := h'.rows a v' hv' (hx ▸ hc)
  exact ⟨v'', hv'', hx'.trans hx, hr'.trans hr⟩

/-- **One page is published**: the others stay, and it is a page of the table or the one behind its last. -/
structure OnePage (page : Nat) (d d' : TableData) : Prop where
  others : ∀ n, n ≠ page → d'.page n = d.page n
  next   : page ≤ d.table.pages.length
  grows  : d'.table.pages.length ≤ max d.table.pages.length (page + 1)

/-- What a table and the manager keep. -/
structure TableOk (m : TransactionManager) (d : TableData) : Prop where
  heap    : HeapInv (d.withManager m)
  targets : LiveTargets m.statuses d.log
  stored  : Stored d.look d.log d.origin

theorem TableOk.managed {m m' : TransactionManager} {d : TableData} (h : TableOk m d)
    (hs : TransactionManager.Stepped m m') : TableOk m' d := by
  have hstep : HeapStepped True (d.withManager m) (d.withManager m') := .manager m' hs
  exact ⟨heapInv_stepped h.heap hstep, liveTargets_stepped h.heap h.targets hstep, h.stored⟩

theorem TableOk.stepped {m : TransactionManager} {d : TableData} {s : HeapState} (h : TableOk m d)
    (hs : HeapStepped True (d.withManager m) s) (hm : s.manager = m) : TableOk m s.data := by
  subst hm
  exact ⟨heapInv_stepped h.heap hs, liveTargets_stepped h.heap h.targets hs, stored_stepped hs h.stored⟩

/-- **A write is nothing to who does not count its writer.** -/
theorem kept_stepped {m : TransactionManager} {d : TableData} {s : HeapState} (h : TableOk m d)
    (hs : HeapStepped True (d.withManager m) s) {w : Write Nat Values} (hlog : s.log = d.log ++ [w])
    {counted : Nat → Bool} (hw : counted w.writer = false) : Kept counted d s.data := by
  refine ⟨fun row => ?_, fun a v hv _ => ?_⟩
  · show _ = History.database counted s.log row
    rw [hlog, History.database_concat, hw]
    rfl
  · obtain ⟨v', hv', hx, -, -, -⟩ := hs.stays hv
    exact ⟨v', hv', hx, hs.rowOf_stays h.heap hv⟩

theorem onePage_inserted {d d' : TableData} {tid : TID} {v : TupleVersion} (h : HeapTable.Inserted d.table d'.table tid v) :
    OnePage tid.pageId d d' := by
  obtain ⟨page, hget, hp⟩ := h.pages
  have hlt := (List.getElem?_eq_some_iff.1 hget).1
  have hlen : (tid.pageId < d.table.pages.length ∧ d'.table.pages.length = d.table.pages.length) ∨
      (tid.pageId = d.table.pages.length ∧ d'.table.pages.length = d.table.pages.length + 1) := by
    rcases hp with hp | ⟨hnew, hp⟩
    · rw [hp, List.length_set] at hlt ⊢
      exact Or.inl ⟨hlt, rfl⟩
    · exact Or.inr ⟨hnew, by rw [hp, List.length_append, List.length_singleton]⟩
  refine ⟨fun n hn => ?_, by omega, by omega⟩
  unfold TableData.page
  rcases hp with hp | ⟨hnew, hp⟩
  · rw [hp, List.getElem?_set_ne (Ne.symm hn)]
  · rw [hp]
    by_cases hlt : n < d.table.pages.length
    · rw [List.getElem?_append_left hlt]
    · rw [List.getElem?_eq_none (l := d.table.pages) (by omega), List.getElem?_eq_none (by simp; omega)]

theorem onePage_rewritten {d d' : TableData} {tid : TID} {v : Option TupleVersion}
    (h : HeapTable.Rewritten d.table d'.table tid v) : OnePage tid.pageId d d' := by
  obtain ⟨page, hget, hp⟩ := h.pages
  have hlt := (List.getElem?_eq_some_iff.1 hget).1
  have hlen : d'.table.pages.length = d.table.pages.length := by rw [hp, List.length_set]
  refine ⟨fun n hn => ?_, by omega, by omega⟩
  unfold TableData.page
  rw [hp, List.getElem?_set_ne (Ne.symm hn)]

/-! ## Publications still to make -/

/-- The publications of a statement of `x`, each from the table before it. -/
def Pending (m : TransactionManager) (x : Nat) : TableData → List (Nat × TableData) → Prop
  | _, [] => True
  | d, (page, d') :: todo =>
    TableOk m d' ∧ OnePage page d d' ∧ (∀ counted : Nat → Bool, counted x = false → Kept counted d d') ∧
      (∀ w ∈ d'.log, w ∈ d.log ∨ w.writer = x) ∧ Pending m x d' todo

theorem Pending.managed {m m' : TransactionManager} {x : Nat} (hs : TransactionManager.Stepped m m') :
    ∀ {todo : List (Nat × TableData)} {d : TableData}, Pending m x d todo → Pending m' x d todo
  | [], _, _ => trivial
  | (_, _) :: _, _, ⟨hok, hpage, hkept, hlog, hrest⟩ => ⟨hok.managed hs, hpage, hkept, hlog, hrest.managed hs⟩

/-- The transaction may run statements. -/
def Usable (m : TransactionManager) (x : Nat) : Prop := ∃ t, m.transactions x = some t ∧ t.state = .active

theorem usable_of_ok {h : HeapState} {x : Nat} {u : Unit} (hu : h.requireUsable x = .ok u) : Usable h.manager x := by
  obtain ⟨t, ht, hu⟩ := bind_eq_ok.1 hu
  exact ⟨t, TransactionManager.object_eq_ok ht, TransactionManager.requireUsable_eq_ok hu⟩

theorem Usable.active {m : TransactionManager} (hi : TransactionManager.Inv m) {x : Nat} (h : Usable m x) : x ∈ m.active := by
  obtain ⟨t, ht, ha⟩ := h
  exact (hi.active x).2 ⟨t, ht, Or.inl ha⟩

namespace DbState

theorem insertPublications_pending {m : TransactionManager} {d : TableData} (h : TableOk m d) {x : Nat} {values : Values}
    {todo : List (Nat × TableData)} (hp : insertPublications (d.withManager m) x values = .ok todo) :
    Usable m x ∧ Pending m x d todo := by
  obtain ⟨⟨after, tid⟩, hins, he⟩ := bind_eq_ok.1 hp
  cases he
  have hs : HeapStepped True (d.withManager m) after := HeapState.insertVersion_stepped h.heap.manager hins
  obtain ⟨u, hu, hins⟩ := bind_eq_ok.1 hins
  obtain ⟨⟨table, tid'⟩, ht, he⟩ := bind_eq_ok.1 hins
  cases he
  refine ⟨usable_of_ok hu, h.stepped hs rfl,
    onePage_inserted (HeapTable.insertVersion_eq_ok ht).1, fun counted hc => ?_, fun w hw => ?_, trivial⟩
  · exact kept_stepped h hs rfl hc
  · rcases List.mem_append.1 hw with hw | hw
    · exact Or.inl hw
    · rw [List.mem_singleton.1 hw]; exact Or.inr rfl

theorem deletePublications_pending {m : TransactionManager} {d : TableData} (h : TableOk m d) {x : Nat} {tid : TID}
    {todo : List (Nat × TableData)} (hp : deletePublications (d.withManager m) x tid = .ok todo) :
    todo = [] ∨ (Usable m x ∧ Pending m x d todo) := by
  obtain ⟨live, hlive, hp⟩ := bind_eq_ok.1 hp
  cases live with
  | none => cases hp; exact Or.inl rfl
  | some q =>
    obtain ⟨a, old⟩ := q
    obtain ⟨⟨after, deleted⟩, hd, he⟩ := bind_eq_ok.1 hp
    cases he
    have hs : HeapStepped True (d.withManager m) after := HeapState.deleteVersion_stepped h.heap.manager
      (fun _ => HeapState.liveFor_of_resolved (fun b v hb => (h.heap.xmin_pos hb).1) hlive) hd
    obtain ⟨u, hu, hd⟩ := bind_eq_ok.1 hd
    obtain ⟨⟨table, b⟩, ht, he⟩ := bind_eq_ok.1 hd
    rcases HeapTable.deleteVersion_eq_ok ht with ⟨rfl, rfl⟩ | ⟨v, rfl, hv, -, hrew, -⟩
    · cases he; exact Or.inl rfl
    · cases he
      refine Or.inr ⟨usable_of_ok hu, h.stepped hs rfl, onePage_rewritten hrew,
        fun counted hc => kept_stepped h hs rfl hc, fun w hw => ?_, trivial⟩
      rcases List.mem_append.1 hw with hw | hw
      · exact Or.inl hw
      · rw [List.mem_singleton.1 hw]; exact Or.inr rfl

/-- **`replace_version` publishes the replacement, then the old version**: between the two the replacement is a row of its own. -/
theorem updatePublications_pending {m : TransactionManager} {d : TableData} (h : TableOk m d) {x : Nat} {tid : TID}
    {values : Values} {todo : List (Nat × TableData)}
    (hp : updatePublications (d.withManager m) x tid values = .ok todo) :
    todo = [] ∨ (Usable m x ∧ Pending m x d todo) := by
  obtain ⟨live, hlive, hp⟩ := bind_eq_ok.1 hp
  cases live with
  | none => cases hp; exact Or.inl rfl
  | some q =>
    obtain ⟨a, old⟩ := q
    obtain ⟨⟨after, replacement⟩, hr, hp⟩ := bind_eq_ok.1 hp
    cases replacement with
    | none => cases hp; exact Or.inl rfl
    | some new =>
      obtain ⟨⟨mid, new'⟩, hmid, he⟩ := bind_eq_ok.1 hp
      cases he
      have hs : HeapStepped True (d.withManager m) after := HeapState.replaceVersion_stepped h.heap.manager
        (fun _ => HeapState.liveFor_of_resolved (fun b v hb => (h.heap.xmin_pos hb).1) hlive) hr
      obtain ⟨u, hu, hr⟩ := bind_eq_ok.1 hr
      obtain ⟨⟨table, r⟩, ht, hr⟩ := bind_eq_ok.1 hr
      have hx : x ∈ m.active := (usable_of_ok hu).active h.heap.manager
      -- the insertion inside `replace_version` is the one of the first publication
      obtain ⟨v, hv, hset, rfl⟩ : ∃ v, d.table.physicalVersion a = some v ∧
          mid.setVersion a ⟨v.xmin, x, some new', v.values⟩ = .ok table ∧ r = some new' := by
        unfold HeapTable.replaceVersion at ht
        split at ht
        · cases ht; cases hr
        · rename_i v hv
          split at ht
          · obtain ⟨⟨t₁, n₁⟩, hins, ht⟩ := bind_eq_ok.1 ht
            obtain ⟨t₂, hset, he⟩ := bind_eq_ok.1 ht
            cases he
            have hsame := hmid.symm.trans hins
            cases hsame
            exact ⟨v, hv, hset, rfl⟩
          · cases ht; cases hr
      cases hr
      obtain ⟨hins, henc⟩ := HeapTable.insertVersion_eq_ok hmid
      obtain ⟨hrew, -⟩ := HeapTable.setVersion_eq_ok hset
      have hsm : HeapStepped True (d.withManager m) (TableData.withManager ⟨mid, d.log ++ [⟨x, d.log.length, none, some values⟩],
          Function.update d.origin new d.log.length⟩ m) := .inserted x hx values mid new hins henc
      have hmem : ∀ {w w' : Write Nat Values} {l : Log}, w' ∈ l ++ [w] → w.writer = x → w' ∈ l ∨ w'.writer = x := by
        intro w w' l hw' hwx
        rcases List.mem_append.1 hw' with hw' | hw'
        · exact Or.inl hw'
        · rw [List.mem_singleton.1 hw']; exact Or.inr hwx
      refine Or.inr ⟨usable_of_ok hu, h.stepped hsm rfl, onePage_inserted hins, fun counted hc => kept_stepped h hsm rfl hc,
        fun w hw => hmem hw rfl, h.stepped hs rfl, onePage_rewritten hrew,
          fun counted hc => ⟨fun row => ?_, fun b w hw hcw => ?_⟩,
        fun w hw => ?_, trivial⟩
      · have hone := (kept_stepped h hsm rfl hc).database row
        have htwo := (kept_stepped h hs rfl hc).database row
        exact hone.symm.trans htwo
      · -- a version of another transaction was there before the statement
        have hb : b ≠ new := by
          rintro rfl
          have hnew : mid.physicalVersion b = some ⟨x, 0, none, values⟩ := hins.get
          have hwx := hw.symm.trans hnew
          cases hwx
          rw [hc] at hcw
          cases hcw
        have hbd : d.look b = some w := by
          have hw' : mid.physicalVersion b = some w := hw
          rw [hins.versions, Function.update_of_ne hb] at hw'
          exact hw'
        obtain ⟨v₁, hv₁, hx₁, hr₁⟩ := (kept_stepped h hsm rfl hc).rows b w hbd hcw
        obtain ⟨v₂, hv₂, hx₂, hr₂⟩ := (kept_stepped h hs rfl hc).rows b w hbd hcw
        exact ⟨v₂, hv₂, hx₂, hr₂.trans hr₁.symm⟩
      · rcases hmem hw rfl with hw | hw
        · exact Or.inl (List.mem_append_left _ hw)
        · exact Or.inr hw

end DbState
end MiniPostgres
