import MiniPostgres.TableRun
/-!
# Integrity — version chains over runs with vacuums

As long as every vacuum of the run leaves no link behind (`VacuumSafe`), the heap mirrors its history: a link of a version
that no committed transaction deleted names what its own replacement created, no slot is named twice, and a scan meets
every visible version on one chain.  `reclaimed_successor_breaks_chain` is the run on which a vacuum does leave one.
-/
namespace MiniPostgres

open History (Write Closed)

/-! ## A scan returns no row twice -/

namespace HeapTable

variable {t : HeapTable} {loose : TupleVersion → Prop} {log : Log} {origin : TID → Nat}

theorem scanned_nodup {β : Type} {passes : TupleVersion → Bool} (f : TID → β)
    (h : ∀ r ∈ t.roots, ∀ r' ∈ t.roots, ∀ q q', t.resolved passes r = some q → t.resolved passes r' = some q' →
      f q.1 = f q'.1 → r = r') : ((t.scanned passes).map (fun q => f q.1)).Nodup := by
  unfold scanned
  rw [List.Nodup, List.pairwise_map, List.pairwise_filterMap]
  have hnd : t.roots.Pairwise (fun r r' => r ∈ t.roots ∧ r' ∈ t.roots ∧ r ≠ r') :=
    List.Pairwise.and_mem.1 t.roots_nodup
  refine hnd.imp (fun {r r'} hr q hq q' hq' he => ?_)
  exact hr.2.2 (h r hr.1 r' hr.2.1 q q' hq hq' he)

theorem scanned_tids_nodup (hm : Mirror loose t.physicalVersion log origin) (hwf : History.WF log)
    (passes : TupleVersion → Bool) : ((t.scanned passes).map Prod.fst).Nodup := by
  refine scanned_nodup (fun a => a) (fun r hr r' hr' q q' hq hq' he => ?_)
  have h := (resolved_eq_some hm hwf hq).1
  have h' := (resolved_eq_some hm hwf hq').1
  rw [← he] at h'
  exact root_unique hm hwf hr hr' h h'

theorem scanned_chain (hm : Mirror loose t.physicalVersion log origin) (hwf : History.WF log)
    {passes : TupleVersion → Bool} {a : TID} {v : TupleVersion} (ha : t.physicalVersion a = some v)
    (hp : passes v = true) : ∃ q ∈ t.scanned passes, ∃ r,
      Linked.Reach t.physicalVersion TupleVersion.nextTid r a ∧
        Linked.Reach t.physicalVersion TupleVersion.nextTid r q.1 := by
  obtain ⟨r, -, hr, hreach⟩ := rootTid_ok hm hwf (a := a) (by rw [ha]; simp)
  obtain ⟨q, hq⟩ := resolved_isSome hm hwf ha hp hreach
  exact ⟨q, mem_scanned.2 ⟨r, hr, hq⟩, r, hreach, (resolved_eq_some hm hwf hq).1⟩

end HeapTable

theorem creator_of_visible {v : TupleVersion} {sn : Snapshot} {o : Nat} {st : StatusTable} (h2 : 2 ≤ v.xmin)
    (h : isVisible v sn o st = true) : v.xmin = o ∨ st v.xmin = some .committed := by
  by_cases ho : v.xmin = o
  · exact Or.inl ho
  · refine Or.inr ?_
    unfold isVisible at h
    rw [if_neg ho] at h
    have hc : st.creator v.xmin = .committed := by
      by_contra hne
      simp [hne] at h
    rcases TransactionManager.creator_eq_committed.1 hc with hs | hc
    · rw [hs] at h2
      exact absurd h2 (by decide)
    · exact TransactionManager.get_eq_committed.1 hc

/-- **Two visible versions of one row lie on one chain**, when writes went over live versions only. -/
theorem HeapInv.visible_reach {s : HeapState} (hi : HeapInv s) (hl : LiveTargets s.manager.statuses s.log)
    {sn : Snapshot} {o : Nat} (ho : s.manager.statuses o ≠ some .aborted) {a b : TID} {v u : TupleVersion}
    (ha : s.table.physicalVersion a = some v) (hb : s.table.physicalVersion b = some u)
    (hva : isVisible v sn o s.manager.statuses = true) (hvb : isVisible u sn o s.manager.statuses = true)
    (hrow : s.rowOf a = s.rowOf b) (hlt : s.origin a < s.origin b) :
    Linked.Reach s.table.physicalVersion TupleVersion.nextTid a b := by
  have hcounted : ∀ {c : TID} {w : TupleVersion}, s.table.physicalVersion c = some w →
      isVisible w sn o s.manager.statuses = true → ¬ s.manager.statuses w.xmin = some .aborted := by
    intro c w hc hv
    rcases creator_of_visible (hi.xmin_pos hc).1 hv with he | he
    · rw [he]; exact ho
    · rw [he]; simp
  have hclosed : Closed (fun x => ¬ s.manager.statuses x = some .aborted) s.log (rowOf s.log s.origin a) := by
    intro j w i u hw hcw _ ht hu
    rcases hl j w i u hw ht hu with he | he
    · rw [he]; exact hcw
    · rw [he]; simp
  refine hi.mirror.reach_of_counted hi.wf ?_ ha hb hrow hclosed
    (hcounted ha hva) (hcounted hb hvb) hlt
  exact hi.serial.mono (fun x hx => not_not.2 hx)

theorem HeapInv.scanned_rows_nodup {s : HeapState} (hi : HeapInv s) (hl : LiveTargets s.manager.statuses s.log)
    {sn : Snapshot} {o : Nat} (ho : s.manager.statuses o ≠ some .aborted) :
    ((s.table.scanned (fun v => isVisible v sn o s.manager.statuses)).map (fun q => s.rowOf q.1)).Nodup := by
  refine HeapTable.scanned_nodup s.rowOf (fun r hr r' hr' q q' hq hq' he => ?_)
  obtain ⟨h, v, hv, hvis, -⟩ := HeapTable.resolved_eq_some hi.mirror hi.wf hq
  obtain ⟨h', u, hu, hvis', -⟩ := HeapTable.resolved_eq_some hi.mirror hi.wf hq'
  rcases Nat.lt_trichotomy (s.origin q.1) (s.origin q'.1) with hlt | heq | hlt
  · exact HeapTable.root_unique hi.mirror hi.wf hr hr' (h.trans (hi.visible_reach hl ho hv hu hvis hvis' he hlt)) h'
  · rw [hi.mirror.inj q.1 q'.1 (by rw [hv]; simp) (by rw [hu]; simp) heq] at h
    exact HeapTable.root_unique hi.mirror hi.wf hr hr' h h'
  · exact HeapTable.root_unique hi.mirror hi.wf hr hr' h
      (h'.trans (hi.visible_reach hl ho hu hv hvis' hvis he.symm hlt))

/-! ## Runs -/

/-- Every vacuum returns and leaves no link behind. -/
def TableCall.chainSafe (s : TableState) : TableCall → Prop
  | .vacuum horizon => (∃ r, s.table.vacuum horizon s.statuses = .ok r) ∧ VacuumSafe s.table horizon s.statuses
  | _               => True

namespace TableState

/-- **A safe step keeps the invariant of heap and history.** -/
theorem heapInv_step {s : TableState} (h : HeapInv s.heap) {c : TableCall} (hc : c.chainSafe s) :
    HeapInv (s.step c).heap := by
  by_cases hv : ∀ horizon, c ≠ .vacuum horizon
  · exact heapInv_stepped h
      (step_stepped h.manager (fun a v ha => (h.xmin_pos ha).1) hv (fun hf : False => hf.elim))
  · obtain ⟨horizon, rfl⟩ := not_forall_not.1 hv
    obtain ⟨⟨⟨t', r⟩, hr⟩, hsafe⟩ := hc
    rw [step_vacuum, vacuumEffect_of_ok hr]
    exact ⟨h.manager, h.wf, h.writers, h.serial, vacuum_keeps_mirror (t := s.table) h.mirror h.wf hsafe hr⟩

theorem liveTargets_step {s : TableState} (h : HeapInv s.heap) (hl : LiveTargets s.statuses s.heap.log) {c : TableCall}
    (hc : c.liveWrite s) : LiveTargets (s.step c).statuses (s.step c).heap.log := by
  by_cases hv : ∀ horizon, c ≠ .vacuum horizon
  · exact liveTargets_stepped h hl (step_stepped h.manager (fun a v ha => (h.xmin_pos ha).1) hv (fun _ => hc))
  · obtain ⟨horizon, rfl⟩ := not_forall_not.1 hv
    rw [step_vacuum]
    exact hl

theorem heapInv_run : ∀ (calls : List TableCall) {s : TableState}, HeapInv s.heap →
    Along TableCall.chainSafe s calls → HeapInv (s.run calls).heap
  | [], _, h, _ => h
  | _ :: calls, _, h, ⟨hc, hrest⟩ => heapInv_run calls (heapInv_step h hc) hrest

theorem liveTargets_run : ∀ (calls : List TableCall) {s : TableState}, HeapInv s.heap →
    LiveTargets s.statuses s.heap.log → Along TableCall.chainSafe s calls → Along TableCall.liveWrite s calls →
    LiveTargets (s.run calls).statuses (s.run calls).heap.log
  | [], _, _, hl, _, _ => hl
  | _ :: calls, _, h, hl, ⟨hc, hrest⟩, ⟨hw, hrest'⟩ =>
    liveTargets_run calls (heapInv_step h hc) (liveTargets_step h hl hw) hrest hrest'

/-- **Version chains stay whole** in every run whose vacuums return and leave no link behind: a link of a version that no
committed transaction deleted names the stored version that a replacement of that very version created, no slot is named
twice, and a scan returns every visible version's chain, no version twice, and no row twice when the writes of the run
went over live versions. -/
theorem chain_integrity (r : Recovered) (schema : Schema) (calls : List TableCall)
    (hsafe : Along TableCall.chainSafe (start r schema) calls) :
    let s := (start r schema).run calls
    let look := s.heap.table.physicalVersion
    (∀ a v c, look a = some v → ¬ Retired s.statuses v → v.nextTid = some c →
      look c ≠ none ∧ ∃ w : Write Nat Values, s.heap.log[s.heap.origin c]? = some w ∧
        w.target = some (s.heap.origin a) ∧ w.value ≠ none) ∧
    (∀ a v a' v' c, look a = some v → look a' = some v' → v.nextTid = some c → v'.nextTid = some c → a = a') ∧
    (∀ sn o, ∃ rows, s.heap.table.scanVisible sn o s.statuses = .ok rows ∧ (rows.map Prod.fst).Nodup ∧
      (∀ a v, look a = some v → isVisible v sn o s.statuses = true → ∃ q ∈ rows, ∃ root,
        Linked.Reach look TupleVersion.nextTid root a ∧ Linked.Reach look TupleVersion.nextTid root q.1) ∧
      (Along TableCall.liveWrite (start r schema) calls → s.statuses o ≠ some .aborted →
        (rows.map (fun q => s.heap.rowOf q.1)).Nodup)) := by
  intro s look
  have hi : HeapInv s.heap := heapInv_run calls (heapInv_start r schema) hsafe
  refine ⟨fun a v c ha hr hn => ⟨(hi.mirror.named a v c ha hn).1, ?_⟩, fun a v a' v' c ha ha' hn hn' => ?_,
    fun sn o => ⟨_, HeapTable.scanVisible_ok hi.mirror hi.wf sn o s.statuses, ?_, fun a v ha hv => ?_, fun hw ho => ?_⟩⟩
  · obtain ⟨w, hw⟩ := hi.mirror.exact a v c ha hr hn
    exact ⟨w, hw.get, hw.target, hw.value⟩
  · exact hi.mirror.unshared hi.wf a v a' v' c ha ha' hn hn'
  · exact HeapTable.scanned_tids_nodup hi.mirror hi.wf _
  · exact HeapTable.scanned_chain hi.mirror hi.wf ha hv
  · refine hi.scanned_rows_nodup (liveTargets_run calls (heapInv_start r schema) ?_ hsafe hw) ho
    intro j w i u hw
    simp [start, HeapState.start] at hw

theorem vacuumSafe_of_no_link {t : IndexedTable} {horizon : Nat} {st : StatusTable}
    (h : ∀ p ∈ t.heap.scanVersions, ∀ q ∈ t.heap.scanVersions, p.2.nextTid = some q.1 →
      classifyVersion q.2 horizon st = .keep) : VacuumSafe t horizon st := by
  intro a v c w ha hn hc hdead
  rw [h (a, v) (HeapTable.mem_scanVersions.2 ha) (c, w) (HeapTable.mem_scanVersions.2 hc) hn] at hdead
  cases hdead

theorem exists_of_isOk {α : Type} {e : Result α} (h : e.isOk = true) : ∃ a, e = .ok a := by
  cases e with
  | ok a => exact ⟨a, rfl⟩
  | error e => cases h

/-- A committed row, and another transaction's replacement of it. -/
def oneReplacement : List TableCall :=
  [.heap (.manager (.begin .readCommitted)), .heap (.insertVersion 2 [.int 5]), .heap (.manager (.commit 2)),
    .heap (.manager (.begin .readCommitted)), .heap (.replaceLive 3 ⟨0, 0⟩ [.int 6])]

/-- The replacement commits and a vacuum reclaims the old version. -/
theorem chain_integrity_example :
    let s := (start .new HeapState.oneColumn).run (oneReplacement ++ [.heap (.manager (.commit 3)), .vacuum 4])
    s.heap.table.physicalVersion ⟨0, 0⟩ = none ∧
      ∃ rows, s.heap.table.scanVisible ⟨4, [], by decide⟩ 4 s.statuses = .ok rows ∧ (rows.map Prod.fst).Nodup := by
  intro s
  have hsafe : Along TableCall.chainSafe (start .new HeapState.oneColumn)
      (oneReplacement ++ [.heap (.manager (.commit 3)), .vacuum 4]) :=
    ⟨trivial, trivial, trivial, trivial, trivial, trivial,
      ⟨exists_of_isOk (by decide +kernel), vacuumSafe_of_no_link (by decide +kernel)⟩, trivial⟩
  obtain ⟨-, -, hscan⟩ := chain_integrity .new HeapState.oneColumn _ hsafe
  obtain ⟨rows, hok, hnd, -⟩ := hscan ⟨4, [], by decide⟩ 4
  exact ⟨by decide +kernel, rows, hok, hnd⟩

/-- The replacement aborts and a vacuum reclaims it; the next insertion takes its slot. -/
def abortedReplacement : List TableCall := oneReplacement ++ [.heap (.manager (.abort 3)), .vacuum 4]

def reusedSlot : List TableCall :=
  abortedReplacement ++ [.heap (.manager (.begin .readCommitted)), .heap (.insertVersion 4 [.int 9]),
    .heap (.manager (.commit 4)), .heap (.manager (.begin .readCommitted))]

/-- **A vacuum that reclaims an aborted replacement leaves the old version's link behind**, and once the slot is taken
again the row of the old version is no longer returned. -/
theorem reclaimed_successor_breaks_chain :
    (¬ ∀ (r : Recovered) (schema : Schema) (calls : List TableCall),
      Along (fun s c => ∀ horizon, c = .vacuum horizon → ∃ q, s.table.vacuum horizon s.statuses = .ok q)
        (start r schema) calls →
      ∀ a v c, ((start r schema).run calls).heap.table.physicalVersion a = some v →
        ¬ Retired ((start r schema).run calls).statuses v → v.nextTid = some c →
          ((start r schema).run calls).heap.table.physicalVersion c ≠ none) ∧
    (((start .new HeapState.oneColumn).run reusedSlot).heap.table.physicalVersion ⟨0, 0⟩).map
        (fun v => isVisible v ⟨6, [], by decide⟩ 5 ((start .new HeapState.oneColumn).run reusedSlot).statuses) =
      some true ∧
    ((start .new HeapState.oneColumn).run reusedSlot).heap.table.scanVisible ⟨6, [], by decide⟩ 5
        ((start .new HeapState.oneColumn).run reusedSlot).statuses = .ok [(⟨0, 1⟩, [.int 9])] := by
  refine ⟨fun h => ?_, by decide +kernel, by decide +kernel⟩
  have hlook : ((start .new HeapState.oneColumn).run abortedReplacement).heap.table.physicalVersion ⟨0, 0⟩ =
      some ⟨2, 3, some ⟨0, 1⟩, [.int 5]⟩ := by decide +kernel
  have hnone : ((start .new HeapState.oneColumn).run abortedReplacement).heap.table.physicalVersion ⟨0, 1⟩ = none := by
    decide +kernel
  have hret : ¬ Retired ((start .new HeapState.oneColumn).run abortedReplacement).statuses
      ⟨2, 3, some ⟨0, 1⟩, [.int 5]⟩ := by
    unfold Retired
    decide +kernel
  have hvac : Along (fun s c => ∀ horizon, c = .vacuum horizon → ∃ q, s.table.vacuum horizon s.statuses = .ok q)
      (start .new HeapState.oneColumn) abortedReplacement := by
    refine ⟨?_, ?_, ?_, ?_, ?_, ?_, ?_, trivial⟩ <;> intro horizon he <;> cases he
    exact exists_of_isOk (by decide +kernel)
  exact h .new HeapState.oneColumn abortedReplacement hvac ⟨0, 0⟩ _ ⟨0, 1⟩ hlook hret rfl hnone

end TableState
end MiniPostgres
