import MiniPostgres.TupleLocks
/-!
# FirstUpdater — the first updater of a row wins

A REPEATABLE READ transaction writes a row over the version its snapshot sees, and only when that version is also the
globally live one.  So its writes are over counted versions (`Retained.closed`), and a row that another transaction wrote
and committed after the snapshot is never written: the live version of such a row is not the one the snapshot sees, and the
check of `replace_mvcc` and `delete_mvcc` raises.
-/
namespace MiniPostgres

open History (Write Closed Serial Over lt_of_getElem? getElem?_concat)

/-- Another transaction, committed after the snapshot was taken, wrote the row. -/
def Conflicting (before after : HeapState) (o row : Nat) : Prop :=
  ∃ (i : Nat) (u : Write Nat Values), after.log[i]? = some u ∧ u.row = row ∧ u.writer ≠ o ∧
    after.manager.statuses u.writer = some .committed ∧ before.manager.statuses u.writer ≠ some .committed

/-! ## Over counted versions -/

section Counts

variable {before after : HeapState} {o row : Nat} {sn : Snapshot}

theorem serial_live (hi : HeapInv after) (hab : after.manager.statuses o ≠ some .aborted) :
    Serial (fun y => ¬ after.Live o y) after.log := by
  refine hi.serial.mono (fun y hy hc => ?_)
  rcases hc with rfl | hc
  · exact hab hy
  · rw [hc] at hy; cases hy

theorem View.counted_before (h : View before after o sn) (hab : after.manager.statuses o ≠ some .aborted)
    (hclosed : Closed (Counted before o) after.log row) {i j : Nat} {u w : Write Nat Values} (hu : after.log[i]? = some u)
    (hw : after.log[j]? = some w) (hru : u.row = row) (hrw : w.row = row) (hlu : after.Live o u.writer)
    (hlw : after.Live o w.writer) (hcw : Counted before o w.writer) (hij : i < j) : Counted before o u.writer := by
  have hi := h.inv_after
  have hl := liveTargets_later h.inv h.targets h.later
  have hover := History.over_chain hi.wf (serial_live hi hab) (closed_live hl o row) j i w u hw hlw hrw hu hlu hru hij
  exact hclosed.back hi.wf hover hw hcw hrw hu

/-- **A transaction whose writes are over counted versions overtakes nobody.** -/
theorem View.not_overtakes (h : View before after o sn) (hab : after.manager.statuses o ≠ some .aborted)
    (hclosed : Closed (Counted before o) after.log row) : ¬ Overtakes before after o row := by
  rintro ⟨i, j, w, u, hij, hw, hu, hrw, hru, hown, hne, hc, hnc⟩
  rcases h.counted_before hab hclosed hw hu hrw hru (Or.inr hc) (Or.inl hown) (Or.inr hown) hij with hcb | he
  · exact hnc hcb
  · exact hne he

/-- **A version that is both visible and live stands in a row nobody else wrote since the snapshot.** -/
theorem View.not_conflicting (h : View before after o sn) (ho : o ∈ after.manager.active) {a : TID}
    (hclosed : Closed (Counted before o) after.log (after.rowOf a)) {v : TupleVersion}
    (hv : after.table.physicalVersion a = some v) (hvis : isVisible v sn o after.manager.statuses = true)
    (hlive : HeapTable.globallyLive v o after.manager.statuses = true) : ¬ Conflicting before after o (after.rowOf a) := by
  rintro ⟨i, u, hu, hru, hne, hc, hnc⟩
  have hi := h.inv_after
  have hl := liveTargets_later h.inv h.targets h.later
  have hab : after.manager.statuses o ≠ some .aborted := by rw [hi.manager.undecided o ho]; simp
  have hcv : Counted before o v.xmin := ((h.visible_iff hv).1 hvis).1
  have hncu : ¬ Counted before o u.writer := by
    rintro (hcb | he)
    · exact hnc hcb
    · exact hne he
  -- the live version is the row's last live write
  obtain ⟨w, hlast, -⟩ := (hi.live_reads hl ho (after.rowOf a)).last hi.mirror hi.wf hv hlive rfl
  obtain ⟨w', hw', hx, -, -⟩ := hi.origin_write hv
  rw [hlast.get] at hw'
  cases hw'
  rcases Nat.lt_or_eq_of_le (hlast.last i u hu (Or.inr hc) hru) with hlt | rfl
  · exact hncu (h.counted_before hab hclosed hu hlast.get hru hlast.inRow (Or.inr hc) hlast.mine (hx ▸ hcv) hlt)
  · have hg := hlast.get
    rw [hu] at hg
    cases hg
    exact hncu (hx ▸ hcv)

theorem own_after (hi : HeapInv after) (hl : LiveTargets after.manager.statuses after.log) (ho : o ∈ after.manager.active)
    {i j : Nat} (hij : Relation.TransGen (Over (after.Live o) after.log) i j) :
    ∀ {w u : Write Nat Values}, after.log[i]? = some w → w.writer = o → after.log[j]? = some u → u.writer = o := by
  have hone : ∀ {i j : Nat} {w u : Write Nat Values}, Over (after.Live o) after.log i j → after.log[i]? = some w →
      w.writer = o → after.log[j]? = some u → u.writer = o := by
    intro i j w u hover hw hown hu
    obtain ⟨u', hu', -, ht⟩ := hover
    rw [hu] at hu'
    cases hu'
    rcases hl j u i w hu ht hw with he | hc
    · exact he.symm.trans hown
    · rw [hown, hi.manager.undecided o ho] at hc; cases hc
  induction hij with
  | single hover => exact fun hw hown hu => hone hover hw hown hu
  | tail _ hover ih =>
    intro w u hw hown hu
    obtain ⟨u', hu', hlu, ht⟩ := id hover
    obtain ⟨-, y, hy, -⟩ := hi.wf.writes _ u' _ hu' ht
    exact hone hover hy (ih hw hown hy) hu

/-- **An open transaction whose writes are over counted versions wrote no row that conflicts.** -/
theorem View.no_own_write (h : View before after o sn) (ho : o ∈ after.manager.active)
    (hclosed : Closed (Counted before o) after.log row) (hcon : Conflicting before after o row) {j : Nat}
    {w : Write Nat Values} (hw : after.log[j]? = some w) (hr : w.row = row) : w.writer ≠ o := by
  intro hown
  have hi := h.inv_after
  have hl := liveTargets_later h.inv h.targets h.later
  have hab : after.manager.statuses o ≠ some .aborted := by rw [hi.manager.undecided o ho]; simp
  obtain ⟨i, u, hu, hru, hne, hc, hnc⟩ := hcon
  rcases Nat.lt_trichotomy i j with hlt | rfl | hgt
  · exact h.not_overtakes hab hclosed ⟨i, j, u, w, hlt, hu, hw, hru, hr, hown, hne, hc, hnc⟩
  · rw [hu] at hw
    cases hw
    exact hne hown
  · have hover := History.over_chain hi.wf (serial_live hi hab) (closed_live hl o row) i j u w hu (Or.inr hc) hru hw
      (Or.inl hown) hr hgt
    exact hne (own_after hi hl ho hover hw hown hu)

end Counts

/-! ## A REPEATABLE READ writer -/

/-- **What a REPEATABLE READ transaction keeps** from the state `before`, in which it took its snapshot: its writes are over
counted versions, its row write starts from a version it sees, and the version it is about to write is one it sees. -/
structure Retained (before s : WriterState) (o : Nat) (sn : Snapshot) : Prop where
  view   : View before.heap s.heap o sn
  object : ∃ t, s.heap.manager.transactions o = some t ∧ t.isolation = .repeatableRead ∧ t.repeatableSnapshot = some sn
  closed : ∀ row, Closed (Counted before.heap o) s.heap.log row
  source : ∀ k, s.tasks o = some k → k.snapshot = sn ∧ s.heap.rowOf k.tid = k.row ∧
    ∃ v, s.look k.tid = some v ∧ isVisible v sn o s.statuses = true
  target : ∀ k root a old, s.tasks o = some k → k.stage = .writing root a old →
    ∃ v, s.look a = some v ∧ isVisible v sn o s.statuses = true

section Keeps

variable {before s s' : WriterState} {o : Nat} {sn : Snapshot}

theorem View.step (h : View before.heap s.heap o sn) (hs : HeapStepped True s.heap s'.heap) :
    View before.heap s'.heap o sn :=
  ⟨h.inv, h.targets, h.stored, h.later.tail hs, h.fresh, h.active⟩

theorem View.not_counted (h : View before.heap s.heap o sn) {x : Nat} (hx : x ∈ s.active) (hne : x ≠ o) :
    ¬ Counted before.heap o x := by
  rintro (hc | he)
  · have hlater := TransactionManager.status_later h.inv.manager (by rw [hc]; simp) (manager_later h.later)
    have hopen : s.heap.manager.statuses x = none := h.inv_after.manager.undecided x hx
    rw [hopen, hc] at hlater
    cases hlater
  · exact hne he

/-- **A version the owner sees stays one it sees** until the owner writes over a version. -/
theorem Moved.seen (h : Retained before s o sn) (hm : Moved s s') (ho : s'.tasks o ≠ none) {a : TID} {v : TupleVersion}
    (hv : s.look a = some v) (hvis : isVisible v sn o s.statuses = true) :
    ∃ v', s'.look a = some v' ∧ isVisible v' sn o s'.statuses = true := by
  obtain ⟨v', hv', hmin, -, -, hmax⟩ := hm.stepped.stays hv
  refine ⟨v', hv', ((h.view.step hm.stepped).visible_iff hv').2 ?_⟩
  obtain ⟨hc, hnc⟩ := (h.view.visible_iff hv).1 hvis
  rw [hmin]
  refine ⟨hc, ?_⟩
  rcases hmax with he | ⟨-, w, hlog, ht, he⟩
  · rw [he]; exact hnc
  · rw [he]
    obtain ⟨k, root, b, old, -, -, -, -, hend⟩ := hm.wrote w hlog ht
    have hact : w.writer ∈ s.active := by
      rcases hm.stepped.log_cases with hsame | ⟨w', hlog', hw', -⟩
      · exact absurd hlog (by rw [hsame]; simp)
      · cases List.append_cancel_left (hlog.symm.trans hlog')
        exact hw'
    refine h.view.not_counted hact ?_
    rintro rfl
    exact ho hend

/-- **The owner's write is over a version it sees**, so over a counted one. -/
theorem Moved.closed (h : Retained before s o sn) (hm : Moved s s') (row : Nat) :
    Closed (Counted before.heap o) s'.heap.log row := by
  rcases hm.stepped.log_cases with he | ⟨w, he, hact, -⟩
  · rw [he]; exact h.closed row
  · intro j y i u hj hc hr ht hu
    rw [he] at hj hu
    have hi := h.view.inv_after
    rcases getElem?_concat.1 hj with hj' | ⟨hjl, rfl⟩
    · have hij := (hi.wf.writes j y i hj' ht).1
      rcases getElem?_concat.1 hu with hu' | ⟨rfl, -⟩
      · exact h.closed row j y i u hj' hc hr ht hu'
      · have := lt_of_getElem? hj'
        omega
    · -- the new write is the owner's
      obtain ⟨k, root, a, old, hk, hst, htarget, -, -⟩ := hm.wrote y he (by rw [ht]; simp)
      have hown : y.writer = o := by
        by_contra hne
        exact h.view.not_counted hact hne hc
      rw [hown] at hk
      obtain ⟨v, hv, hvis⟩ := h.target k root a old hk hst
      obtain ⟨z, hz, hx, -, -⟩ := hi.origin_write hv
      rw [ht] at htarget
      cases htarget
      rcases getElem?_concat.1 hu with hu' | ⟨hlen, -⟩
      · rw [hz] at hu'
        cases hu'
        rw [hx]
        exact ((h.view.visible_iff hv).1 hvis).1
      · have := lt_of_getElem? hz
        omega

/-- **The check of a REPEATABLE READ writer passes only for the version its snapshot sees.** -/
theorem check_passes (hi : HeapInv s.heap) {root a : TID} {old : Values} {t : Transaction}
    (ht : s.heap.manager.transactions o = some t) (hrr : t.isolation = .repeatableRead)
    (hc : s.table.checkRepeatableReadWriteConflict root t sn (some (a, old)) = .ok ()) :
    ∃ v, s.look a = some v ∧ isVisible v sn o s.statuses = true := by
  have hxid : t.xid = o := (hi.manager.object o t ht).1
  unfold TableState.checkRepeatableReadWriteConflict at hc
  rw [if_neg (by rw [hrr]; simp)] at hc
  obtain ⟨visible, hvis, hc⟩ := bind_eq_ok.1 hc
  split at hc
  · exact absurd hc raise_ne_ok
  · rename_i heq
    obtain ⟨q, rfl, hq⟩ := Option.map_eq_some_iff.1 (not_not.1 heq)
    rw [hxid] at hvis
    have hres : s.heap.table.resolveVisible root sn o s.heap.manager.statuses = .ok (some q) := hvis
    rw [HeapTable.resolveVisible_ok hi.mirror hi.wf, Except.ok.injEq] at hres
    obtain ⟨-, v, hv, hp, -⟩ := HeapTable.resolved_eq_some hi.mirror hi.wf hres
    simp only at hq
    subst hq
    exact ⟨v, hv, hp⟩

theorem Moved.retained (h : Retained before s o sn) (hm : Moved s s') : Retained before s' o sn := by
  obtain ⟨t, ht, hrr, hsn⟩ := h.object
  have hi := h.view.inv_after
  have hobject : ∃ t, s'.heap.manager.transactions o = some t ∧ t.isolation = .repeatableRead ∧
      t.repeatableSnapshot = some sn := by
    rcases hm.manager with he | ⟨c, hc⟩
    · rw [he]; exact ⟨t, ht, hrr, hsn⟩
    · obtain ⟨t', ht', hiso, hret⟩ := retained_of_call hi.manager hc ht
      exact ⟨t', ht', hiso.trans hrr, hret sn hsn⟩
  refine ⟨h.view.step hm.stepped, hobject, fun row => hm.closed h row, fun k' hk' => ?_, fun k' root a old hk' hst => ?_⟩
  · have hsome : s'.tasks o ≠ none := by rw [hk']; simp
    rcases (hm.tasks o k' hk').2 with hk | ⟨hheap, hstart | ⟨k, stage, hk, -, rfl⟩⟩
    · obtain ⟨he, hrow, v, hv, hvis⟩ := h.source k' hk
      exact ⟨he, (hm.stepped.rowOf_stays hi hv).trans hrow, hm.seen h hsome hv hvis⟩
    · obtain ⟨t', ht', -, hret⟩ := hstart.usable
      rw [ht] at ht'
      cases ht'
      obtain ⟨v, hv, hvis⟩ := hstart.visible
      obtain rfl : k'.snapshot = sn := by
        have := hret hrr
        rw [hsn] at this
        exact (Option.some.inj this).symm
      exact ⟨rfl, (hm.stepped.rowOf_stays hi hv).trans hstart.row.symm, hm.seen h hsome hv hvis⟩
    · obtain ⟨he, hrow, v, hv, hvis⟩ := h.source k hk
      exact ⟨he, (hm.stepped.rowOf_stays hi hv).trans hrow, hm.seen h hsome hv hvis⟩
  · have hsome : s'.tasks o ≠ none := by rw [hk']; simp
    rcases (hm.tasks o k' hk').2 with hk | ⟨hheap, hstart | ⟨k, stage, hk, hturn, rfl⟩⟩
    · obtain ⟨v, hv, hvis⟩ := h.target k' root a old hk hst
      exact hm.seen h hsome hv hvis
    · obtain ⟨r, -, he⟩ := hstart.stage
      rw [he] at hst
      cases hst
    · simp only at hst
      subst hst
      cases hturn with
      | checks _ _ _ t' hk₀ ht' hc =>
        rw [ht] at ht'
        cases ht'
        rw [(h.source k hk).1] at hc
        obtain ⟨v, hv, hvis⟩ := check_passes hi ht hrr hc
        exact hm.seen h hsome hv hvis

end Keeps

/-! ## Runs -/

/-- A row write of a REPEATABLE READ transaction runs under the retained snapshot. -/
def Snapped (s : WriterState) : Prop :=
  ∀ x k, s.tasks x = some k → ∃ t, s.heap.manager.transactions x = some t ∧
    (t.isolation = .repeatableRead → t.repeatableSnapshot = some k.snapshot)

theorem Moved.snapped {s s' : WriterState} (hi : HeapInv s.heap) (h : Snapped s) (hm : Moved s s') : Snapped s' := by
  intro x k' hk'
  -- what held of the transaction's object holds after the call
  have hkeep : ∀ {sn : Snapshot}, (∃ t, s.heap.manager.transactions x = some t ∧
      (t.isolation = .repeatableRead → t.repeatableSnapshot = some sn)) →
      ∃ t, s'.heap.manager.transactions x = some t ∧ (t.isolation = .repeatableRead → t.repeatableSnapshot = some sn) := by
    rintro sn ⟨t, ht, hsn⟩
    rcases hm.manager with he | ⟨c, hc⟩
    · rw [he]; exact ⟨t, ht, hsn⟩
    · obtain ⟨t', ht', hiso, hret⟩ := retained_of_call hi.manager hc ht
      exact ⟨t', ht', fun hr => hret sn (hsn (hiso.symm.trans hr))⟩
  rcases (hm.tasks x k' hk').2 with hk | ⟨-, hstart | ⟨k, stage, hk, -, rfl⟩⟩
  · exact hkeep (h x k' hk)
  · obtain ⟨t, ht, -, hsn⟩ := hstart.usable
    exact hkeep ⟨t, ht, hsn⟩
  · exact hkeep (h x k hk)

namespace WriterState

theorem run_keeps : ∀ (calls : List WriterCall) {s : WriterState}, (∀ c ∈ calls, ∀ horizon, c ≠ .vacuum horizon) →
    WriterInv s → Snapped s →
    WriterInv (s.run calls) ∧ Snapped (s.run calls) ∧ HeapLater True s.heap (s.run calls).heap
  | [], _, _, h, hs => ⟨h, hs, .refl⟩
  | c :: calls, s, hno, h, hs => by
    have hc := hno c (List.mem_cons_self ..)
    have hm := step_moved h hc
    obtain ⟨h1, h2, h3⟩ := run_keeps calls (fun d hd => hno d (List.mem_cons_of_mem _ hd)) (hm.writerInv h)
      (hm.snapped h.heap hs)
    exact ⟨h1, h2, .head hm.stepped h3⟩

theorem retained_run {before : WriterState} {o : Nat} {sn : Snapshot} : ∀ (calls : List WriterCall) {s : WriterState},
    (∀ c ∈ calls, ∀ horizon, c ≠ .vacuum horizon) → WriterInv s → Retained before s o sn →
    WriterInv (s.run calls) ∧ Retained before (s.run calls) o sn
  | [], _, _, h, hr => ⟨h, hr⟩
  | c :: calls, s, hno, h, hr => by
    have hm := step_moved h (hno c (List.mem_cons_self ..))
    exact retained_run calls (fun d hd => hno d (List.mem_cons_of_mem _ hd)) (hm.writerInv h) (hm.retained hr)

/-- **A transaction that takes its snapshot keeps it from there.** -/
theorem retained_takes {before s' : WriterState} (h : WriterInv before) (hs : Snapped before)
    (hst : Stored before.heap.table.physicalVersion before.heap.log before.heap.origin) (hm : Moved before s') {o : Nat}
    {sn : Snapshot} {t : Transaction} (ht : before.heap.manager.transactions o = some t) (hrr : t.isolation = .repeatableRead)
    (hnone : t.repeatableSnapshot = none)
    (hcall : before.heap.manager.statementSnapshot o = .ok (s'.heap.manager, sn)) : Retained before s' o sn := by
  obtain ⟨u, hu, hactive, ⟨-, hr, -⟩ | ⟨-, -, hfresh, hput⟩ | ⟨hr, -⟩⟩ := TransactionManager.statementSnapshot_eq_ok hcall
  · rw [ht] at hu
    cases hu
    rw [hnone] at hr
    cases hr
  · rw [ht] at hu
    cases hu
    have hview : View before.heap before.heap o sn :=
      ⟨h.heap, h.targets, hst, .refl, hfresh, (h.heap.manager.active o).2 ⟨t, ht, Or.inl hactive⟩⟩
    have hsn : s'.heap.manager.transactions o = some { t with repeatableSnapshot := some sn } := by
      have hxid : t.xid = o := (h.heap.manager.object o t ht).1
      rw [hput]
      simp [TransactionManager.put, hxid]
    -- the call moved the manager, so it wrote nothing
    have hlog : s'.heap.log = before.heap.log := by
      have hne : s'.heap.manager ≠ before.heap.manager := by
        intro he
        rw [he, ht, Option.some.injEq] at hsn
        rw [hsn] at hnone
        cases hnone
      rcases hm.stepped.log_cases with he | ⟨w, -, -, hsame⟩
      · exact he
      · exact absurd hsame hne
    have hclosed : ∀ row, Closed (Counted before.heap o) before.heap.log row := by
      refine fun row => hview.closed ?_
      rintro ⟨_, _, _, _, -, -, -, -, -, -, -, hc, hnc⟩
      exact hnc hc
    -- a row write of the transaction would have its snapshot already
    have htasks : s'.tasks o = none := by
      cases hk : s'.tasks o with
      | none => rfl
      | some k' =>
        have hold : ∀ {sn' : Snapshot}, (∃ u, before.heap.manager.transactions o = some u ∧
            (u.isolation = .repeatableRead → u.repeatableSnapshot = some sn')) → False := by
          rintro sn' ⟨u, hu, hret⟩
          rw [ht] at hu
          cases hu
          have := hret hrr
          rw [hnone] at this
          cases this
        rcases (hm.tasks o k' hk).2 with hk | ⟨-, hstart | ⟨k, stage, hk, -, -⟩⟩
        · exact (hold (hs o k' hk)).elim
        · obtain ⟨u, hu, -, hret⟩ := hstart.usable
          exact (hold ⟨u, hu, hret⟩).elim
        · exact (hold (hs o k hk)).elim
    refine ⟨hview.step hm.stepped, ⟨_, hsn, hrr, rfl⟩, fun row => by rw [hlog]; exact hclosed row, fun k hk => ?_,
      fun k root a old hk => ?_⟩
    · rw [htasks] at hk
      cases hk
    · rw [htasks] at hk
      cases hk
  · rw [ht] at hu
    cases hu
    rw [hrr] at hr
    cases hr

/-! ## First updater wins -/

/-- What `Conflicting` means for a REPEATABLE READ transaction `o` in the state `after`, when it took its snapshot in the state
`before`: it wrote no row after a transaction that committed since; and while it is open, it has no write in a conflicting
row, and a row write of it that has the lock resolves the live version, then raises `SerializationConflict`. -/
structure FirstUpdaterWins (before after : WriterState) (o : Nat) : Prop where
  wins      : after.statuses o ≠ some .aborted → ∀ row, ¬ Overtakes before.heap after.heap o row
  unwritten : o ∈ after.active → ∀ row, Conflicting before.heap after.heap o row →
    ∀ (j : Nat) (w : Write Nat Values), after.heap.log[j]? = some w → w.row = row → w.writer ≠ o
  raises    : ∀ k, after.tasks o = some k → k.stage.locked = true →
    Conflicting before.heap after.heap o (after.heap.rowOf k.tid) →
    (∃ root live, k.stage = .resolving root ∧ after.turn o k = .ok (after, some (.checking root live))) ∨
      ∃ root live, k.stage = .checking root live ∧
        after.turn o k = .error ⟨.serializationConflict, "could not serialize access due to concurrent update"⟩

theorem Retained.raises {before s : WriterState} {o : Nat} {sn : Snapshot} (h : WriterInv s) (hr : Retained before s o sn)
    {k : RowTask} (hk : s.tasks o = some k) (hcon : Conflicting before.heap s.heap o (s.heap.rowOf k.tid)) {root : TID}
    {live : Option (TID × Values)} (hst : k.stage = .checking root live) :
    s.turn o k = .error ⟨.serializationConflict, "could not serialize access due to concurrent update"⟩ := by
  have htask := h.tasks o k hk
  obtain ⟨t, ht, hrr, -⟩ := hr.object
  obtain ⟨hsn, hrow, v, hv, hvis⟩ := hr.source k hk
  have hxid : t.xid = o := (h.heap.manager.object o t ht).1
  have hab : s.heap.manager.statuses o ≠ some .aborted := by rw [h.heap.manager.undecided o htask.active]; simp
  -- the snapshot sees the version the row write started from
  have hseen : s.heap.table.resolveVisible root sn o s.statuses = .ok (some (k.tid, v.values)) := by
    obtain ⟨root', hroot', hres⟩ := hr.view.resolves hab hv hvis (hr.view.not_overtakes hab (hr.closed _))
    have hlv : LiveFor s.heap.manager o v := creator_of_visible (h.heap.xmin_pos hv).1 hvis
    have hroot := htask.root.rootTid h.heap h.targets htask.active hv hlv (hrow.trans htask.row.symm)
    rw [hroot, hst] at hroot'
    cases hroot'
    exact hres
  -- which is not the live one
  have hne : (some (k.tid, v.values) : Option (TID × Values)).map Prod.fst ≠ live.map Prod.fst := by
    intro he
    obtain ⟨⟨a, old⟩, rfl, ha⟩ := Option.map_eq_some_iff.1 he.symm
    have hres := htask.live (some (a, old)) (by rw [hst]; rfl)
    obtain ⟨u, hu, -, hp, -⟩ := (htask.root.resolved_live h.heap h.targets htask.active).1 hres
    simp only at ha
    subst ha
    have huv := hu.symm.trans hv
    cases huv
    exact hr.view.not_conflicting htask.active (hr.closed _) hv hvis hp hcon
  have hcheck : s.table.checkRepeatableReadWriteConflict root t k.snapshot live =
      .error ⟨.serializationConflict, "could not serialize access due to concurrent update"⟩ := by
    have hseen' : s.table.heap.table.resolveVisible root k.snapshot t.xid s.table.statuses =
        .ok (some (k.tid, v.values)) := by
      rw [hsn, hxid]; exact hseen
    unfold TableState.checkRepeatableReadWriteConflict
    rw [if_neg (by rw [hrr]; simp), hseen']
    show (if _ then _ else _) = _
    rw [if_pos hne]
    rfl
  have hobj : s.heap.manager.object o = .ok t := by simp only [TransactionManager.object, ht]
  unfold turn
  rw [hst]
  show (s.heap.manager.object o >>= _) = _
  rw [hobj]
  show (s.table.checkRepeatableReadWriteConflict root t k.snapshot live >>= _) = _
  rw [hcheck]
  rfl

/-- **First updater wins under REPEATABLE READ**, in every run without vacuums. -/
theorem first_updater_wins (r : Recovered) (schema : Schema) (pre post : List WriterCall)
    (hno : ∀ horizon, .vacuum horizon ∉ pre ++ post) (o : Nat) (sn : Snapshot) (t : Transaction)
    (ht : ((start r schema).run pre).heap.manager.transactions o = some t) (hrr : t.isolation = .repeatableRead)
    (htakes : ((start r schema).run pre).heap.manager.Takes o sn) :
    FirstUpdaterWins ((start r schema).run pre)
      (((start r schema).run pre).run (.manager (.statementSnapshot o) :: post)) o := by
  have hcalls : ∀ c ∈ pre ++ post, ∀ horizon, c ≠ .vacuum horizon := fun c hc horizon he => hno horizon (he ▸ hc)
  obtain ⟨h, hs, hlater⟩ := run_keeps pre (fun c hc => hcalls c (List.mem_append_left _ hc)) (writerInv_start r schema)
    (fun x k hk => by cases hk)
  have hstored := stored_later hlater (fun i w hw => by simp [start, heap, TableState.start, HeapState.start] at hw)
  generalize (start r schema).run pre = before at *
  have hm : Moved before (before.step (.manager (.statementSnapshot o))) := step_moved h (fun _ => by simp)
  have hcall : before.heap.manager.statementSnapshot o =
      .ok ((before.step (.manager (.statementSnapshot o))).heap.manager, sn) := by
    obtain ⟨m', hm'⟩ := htakes.1
    have hc : before.heap.manager.call (.statementSnapshot o) = .ok m' := by
      simp only [TransactionManager.call, hm']
      rfl
    simp only [step, managerCall, hc]
    exact hm'
  obtain ⟨ha, hr⟩ := retained_run post (fun c hc => hcalls c (List.mem_append_right _ hc)) (hm.writerInv h)
    (retained_takes h hs hstored hm ht hrr (htakes.2 t ht hrr) hcall)
  have hrun : before.run (.manager (.statementSnapshot o) :: post) =
      (before.step (.manager (.statementSnapshot o))).run post := rfl
  rw [hrun]
  generalize (before.step (.manager (.statementSnapshot o))).run post = after at ha hr ⊢
  refine ⟨fun hab row => hr.view.not_overtakes hab (hr.closed row), fun ho row hcon j w hw hrow => ?_,
    fun k hk hl hcon => ?_⟩
  · exact hr.view.no_own_write ho (hr.closed row) hcon hw hrow
  · have htask := ha.tasks o k hk
    cases hst : k.stage with
    | locking root => rw [hst] at hl; cases hl
    | resolving root =>
      have hroot := htask.root
      rw [hst] at hroot
      have hres : after.heap.table.resolveGloballyLive root o after.statuses = .ok (after.heap.table.resolved
          (fun v => HeapTable.globallyLive v o after.statuses) root) := hroot.resolveGloballyLive ha.heap o after.statuses
      refine Or.inl ⟨root, after.heap.table.resolved (fun v => HeapTable.globallyLive v o after.statuses) root, rfl, ?_⟩
      unfold turn
      rw [hst]
      show (after.heap.table.resolveGloballyLive root o after.statuses >>= _) = _
      rw [hres]
      rfl
    | checking root live => exact Or.inr ⟨root, live, rfl, Retained.raises ha hr hk hcon hst⟩
    | writing root a old =>
      -- the version about to be written is visible and live
      obtain ⟨v, hv, hvis⟩ := hr.target k root a old hk hst
      have hres := htask.live (some (a, old)) (by rw [hst]; rfl)
      obtain ⟨u, hu, hrow, hp, -⟩ := (htask.root.resolved_live ha.heap ha.targets htask.active).1 hres
      have huv := hu.symm.trans hv
      cases huv
      have hrow' : after.heap.rowOf k.tid = after.heap.rowOf a :=
        (hr.source k hk).2.1.trans (htask.row.symm.trans hrow.symm)
      rw [hrow'] at hcon
      exact absurd hcon (hr.view.not_conflicting htask.active (hr.closed _) hv hvis hp)

/-- A committed row, a REPEATABLE READ transaction 3 and a READ COMMITTED one 4. -/
def twoWriters : List WriterCall :=
  committedRow ++ [.manager (.begin .repeatableRead), .manager (.begin .readCommitted)]

/-- Transaction 4 updates the row and commits; 3 locks the row and resolves its live version. -/
def secondUpdate : List WriterCall :=
  rowUpdate 4 ⟨0, 0⟩ (.of 5 [3]) 6 ++
    [.manager (.commit 4), .write true 3 .delete ⟨0, 0⟩ (.of 5 [4]) (fun _ => true), .turn 3, .turn 3]

theorem first_updater_wins_example :
    let after := ((start .new HeapState.oneColumn).run twoWriters).run (.manager (.statementSnapshot 3) :: secondUpdate)
    ∃ k, after.tasks 3 = some k ∧ k.write = .delete ∧
      after.turn 3 k = .error ⟨.serializationConflict, "could not serialize access due to concurrent update"⟩ := by
  intro after
  have hno : ∀ horizon, .vacuum horizon ∉ twoWriters ++ secondUpdate := by
    intro horizon
    simp [twoWriters, committedRow, secondUpdate, rowUpdate]
  have htakes : ((start .new HeapState.oneColumn).run twoWriters).heap.manager.Takes 3 ⟨5, [4], by decide⟩ :=
    ⟨⟨_, rfl⟩, fun t ht _ => by cases ht; rfl⟩
  have hwins := first_updater_wins .new HeapState.oneColumn twoWriters secondUpdate hno 3 _ _ rfl rfl htakes
  have hstage : (after.tasks 3).map (fun k => (k.write, k.tid, k.stage)) =
      some (.delete, ⟨0, 0⟩, .checking ⟨0, 0⟩ (some (⟨0, 1⟩, [.int 6]))) := by decide +kernel
  obtain ⟨k, hk, he⟩ := Option.map_eq_some_iff.1 hstage
  obtain ⟨hwrite, he⟩ := Prod.mk.inj he
  obtain ⟨htid, hst⟩ := Prod.mk.inj he
  have hcon : Conflicting ((start .new HeapState.oneColumn).run twoWriters).heap after.heap 3 (after.heap.rowOf k.tid) := by
    rw [htid]
    exact ⟨1, ⟨4, 0, some 0, some [.int 6]⟩, by decide +kernel, by decide +kernel, by decide, by decide +kernel,
      by decide +kernel⟩
  refine ⟨k, hk, hwrite, ?_⟩
  rcases hwins.raises k hk (by rw [hst]; rfl) hcon with ⟨root, live, hres, -⟩ | ⟨root, live, -, hturn⟩
  · rw [hst] at hres
    cases hres
  · exact hturn

end WriterState
end MiniPostgres
