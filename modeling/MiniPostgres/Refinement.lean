import MiniPostgres.HeapRun
/-!
# Refinement — a scan reads the database of the counted writes

For a snapshot, count the transactions committed when it was taken and its owner.  A stored version is visible exactly
when its creator is counted and its deleter is not (`visible_iff`); the counted writes of a row write over counted
versions, unless the owner wrote over a version of a transaction that committed after the snapshot (`Overtakes`, the
READ COMMITTED write after a wait).  So the visible version of a row is its last counted write, and the scan returns the
row's value in the database of the counted writes.
-/
namespace MiniPostgres

open History (Write WF Serial Closed Open Last lt_of_getElem? getElem?_concat)

/-! ## Nothing is lost without reclamation -/

theorem stored_stepped {live : Prop} {s s' : HeapState} (hs : HeapStepped live s s')
    (h : Stored s.table.physicalVersion s.log s.origin) : Stored s'.table.physicalVersion s'.log s'.origin := by
  -- a stored version stays stored, with its origin, when a dead slot is written
  have hkeep : ∀ {look : Versions} {b : TID} {i : Nat}, s.table.physicalVersion b = none →
      (∀ c, s.table.physicalVersion c ≠ none → look c ≠ none) →
      (∃ a, s.table.physicalVersion a ≠ none ∧ s.origin a = i) →
      ∃ a, look a ≠ none ∧ Function.update s.origin b s.log.length a = i := by
    rintro look b i hb hl ⟨a, ha, rfl⟩
    refine ⟨a, hl a ha, Function.update_of_ne ?_ _ _⟩
    rintro rfl
    exact ha hb
  cases hs with
  | same => exact h
  | manager m hm => exact h
  | inserted x hx values table tid hins _ =>
    intro i w hi hv
    rcases getElem?_concat.1 hi with hi | ⟨rfl, rfl⟩
    · exact hkeep hins.fresh (fun c hc => by rw [hins.keeps hc]; exact hc) (h i w hi hv)
    · exact ⟨tid, by rw [hins.get]; simp, Function.update_self _ _ _⟩
  | replaced x hx values tid new old mid table hold hw hlf hins hrew _ _ =>
    intro i w hi hv
    rcases getElem?_concat.1 hi with hi | ⟨rfl, rfl⟩
    · exact hkeep hins.fresh (fun c hc => hrew.stays (by rw [hins.keeps hc]; exact hc)) (h i w hi hv)
    · exact ⟨new, hrew.stays (by rw [hins.get]; simp), Function.update_self _ _ _⟩
  | deleted x hx tid old table hold hw hlf hrew _ =>
    intro i w hi hv
    rcases getElem?_concat.1 hi with hi | ⟨rfl, rfl⟩
    · obtain ⟨a, ha, rfl⟩ := h i w hi hv
      exact ⟨a, hrew.stays ha, rfl⟩
    · exact absurd rfl hv

theorem stored_later {live : Prop} {s s' : HeapState} (hl : HeapLater live s s')
    (h : Stored s.table.physicalVersion s.log s.origin) : Stored s'.table.physicalVersion s'.log s'.origin := by
  induction hl with
  | refl => exact h
  | tail _ hs ih => exact stored_stepped hs ih

/-! ## Reading a row -/

section Reads

variable {loose : TupleVersion → Prop} {t : HeapTable} {log : Log} {origin : TID → Nat} {counted : Nat → Prop}
  {passes : TupleVersion → Bool} {row : Nat}

/-- A test that passes a stored version exactly when its creator is counted and its deleter is not, over a history whose
counted writes never share a version and, in the row, write over counted versions. -/
structure Reads (counted : Nat → Prop) (passes : TupleVersion → Bool) (t : HeapTable) (log : Log) (row : Nat) : Prop where
  serial : Serial (fun x => ¬ counted x) log
  closed : Closed counted log row
  zero   : ¬ counted 0
  iff    : ∀ a v, t.physicalVersion a = some v → (passes v = true ↔ counted v.xmin ∧ ¬ counted v.xmax)

/-- **A version that passes is its row's last counted write.** -/
theorem Reads.last (h : Reads counted passes t log row) (hm : Mirror loose t.physicalVersion log origin) (hwf : WF log)
    {a : TID} {v : TupleVersion} (hv : t.physicalVersion a = some v) (hp : passes v = true)
    (hr : rowOf log origin a = row) : ∃ w, Last counted log row (origin a) w ∧ w.value = some v.values := by
  obtain ⟨w, hw, -, hval⟩ := (hm.carries a v hv).made
  have hopen := ((hm.carries a v hv).open_iff h.serial h.zero hw).2 ((h.iff a v hv).1 hp)
  rw [← rowOf_eq hw, hr] at hopen
  exact ⟨w, History.last_of_open hwf h.serial h.closed hopen, hval⟩

/-- **At most one version of the row passes.** -/
theorem Reads.unique (h : Reads counted passes t log row) (hm : Mirror loose t.physicalVersion log origin) (hwf : WF log)
    {a b : TID} {v u : TupleVersion} (hv : t.physicalVersion a = some v) (hu : t.physicalVersion b = some u)
    (hra : rowOf log origin a = row) (hrb : rowOf log origin b = row) (hp : passes v = true) (hp' : passes u = true) :
    b = a := by
  obtain ⟨w, hl, -⟩ := h.last hm hwf hv hp hra
  obtain ⟨w', hl', -⟩ := h.last hm hwf hu hp' hrb
  exact hm.inj b a (by rw [hu]; simp) (by rw [hv]; simp) (hl'.unique hl).1

/-- **A scan with the test returns the row's value in the database of the counted writes.** -/
theorem Reads.scanned_eq [DecidablePred counted] (h : Reads counted passes t log row)
    (hm : Mirror loose t.physicalVersion log origin) (hwf : WF log) (hst : Stored t.physicalVersion log origin) :
    ((t.scanned passes).filter (fun q => rowOf log origin q.1 = row)).map Prod.snd
      = (History.database (fun x => decide (counted x)) log row).toList := by
  have hdb : ∀ {i : Nat} {w : Write Nat Values}, Last counted log row i w →
      History.database (fun x => decide (counted x)) log row = w.value := fun {i w} hl =>
    History.database_of_last (i := i) (w := w)
      ⟨hl.get, by simpa using hl.mine, hl.inRow, fun j u hu hc => hl.last j u hu (by simpa using hc)⟩
  by_cases hvis : ∃ a v, t.physicalVersion a = some v ∧ rowOf log origin a = row ∧ passes v = true
  · obtain ⟨a, v, hv, hr, hp⟩ := hvis
    obtain ⟨w, hl, hval⟩ := h.last hm hwf hv hp hr
    rw [hdb hl, hval, ← hr]
    have hscan : (t.scanned passes).filter (fun q => rowOf log origin q.1 = rowOf log origin a) = [(a, v.values)] :=
      HeapTable.scanned_row hm hwf hv hp (fun b u hu hrb hp' => h.unique hm hwf hv hu hr (hrb.trans hr) hp hp')
    rw [hscan]
    rfl
  · have hnone : ∀ b u, t.physicalVersion b = some u → rowOf log origin b = row → passes u = false := fun b u hu hr => by
      by_contra hne
      exact hvis ⟨b, u, hu, hr, by simpa using hne⟩
    have hscan : (t.scanned passes).filter (fun q => rowOf log origin q.1 = row) = [] :=
      HeapTable.scanned_no_row hm hwf hnone
    rw [hscan]
    -- the row's last counted write, if there is one, is a deletion
    by_cases hex : ∃ (j : Nat) (w : Write Nat Values), log[j]? = some w ∧ counted w.writer ∧ w.row = row
    · obtain ⟨j, w, hw, hc, hr⟩ := hex
      obtain ⟨i, u, hl⟩ := History.exists_last hw hc hr
      rw [hdb hl]
      cases hval : u.value with
      | none => rfl
      | some values =>
        obtain ⟨a, ha, rfl⟩ := hst i u hl.get (by rw [hval]; simp)
        obtain ⟨v, hv⟩ := Option.ne_none_iff_exists'.1 ha
        have hopen := hl.isOpen hwf (by rw [hval]; simp)
        rw [← hl.inRow] at hopen
        have hcd := ((hm.carries a v hv).open_iff h.serial h.zero hl.get).1 hopen
        exact absurd ⟨a, v, hv, (rowOf_eq hl.get).trans hl.inRow, (h.iff a v hv).2 hcd⟩ hvis
    · rw [History.database_none (fun j w hw hc hr => hex ⟨j, w, hw, by simpa using hc, hr⟩)]
      rfl

end Reads

/-! ## The counted transactions of a snapshot -/

/-- Committed when the snapshot was taken, or its owner. -/
def Counted (before : HeapState) (o x : Nat) : Prop := before.manager.statuses x = some .committed ∨ x = o

instance (before : HeapState) (o x : Nat) : Decidable (Counted before o x) := inferInstanceAs (Decidable (_ ∨ _))

/-- The owner wrote the row after another transaction that committed after the snapshot was taken. -/
def Overtakes (before after : HeapState) (o row : Nat) : Prop :=
  ∃ (i j : Nat) (w u : Write Nat Values), i < j ∧ after.log[i]? = some w ∧ after.log[j]? = some u ∧ w.row = row ∧
    u.row = row ∧ u.writer = o ∧ w.writer ≠ o ∧ after.manager.statuses w.writer = some .committed ∧
    before.manager.statuses w.writer ≠ some .committed

section View

variable {before after : HeapState} {o : Nat} {sn : Snapshot}

/-- A snapshot taken by `o` in `before`, looked at in the later state `after`. -/
structure View (before after : HeapState) (o : Nat) (sn : Snapshot) : Prop where
  inv     : HeapInv before
  targets : LiveTargets before.manager.statuses before.log
  stored  : Stored before.table.physicalVersion before.log before.origin
  later   : HeapLater True before after
  fresh   : before.manager.freshSnapshot o = .ok sn
  active  : o ∈ before.manager.active

theorem View.inv_after (h : View before after o sn) : HeapInv after := heapInv_later h.inv h.later

theorem View.two_le (h : View before after o sn) : 2 ≤ o := (h.inv.manager.active_lt h.active).1

/-- A write of a transaction committed before the snapshot was made before it, over a version counted too. -/
theorem View.early (h : View before after o sn) {j i : Nat} {w u : Write Nat Values} (hw : after.log[j]? = some w)
    (hc : before.manager.statuses w.writer = some .committed) (ht : w.target = some i) (hu : after.log[i]? = some u) :
    u.writer = w.writer ∨ before.manager.statuses u.writer = some .committed := by
  obtain ⟨more, hlog, hmore⟩ := log_later h.inv h.later
  have hj : j < before.log.length := by
    by_contra hge
    rw [hlog, List.getElem?_append_right (by omega)] at hw
    exact hmore w (List.mem_of_getElem? hw) (TransactionManager.settled_of_status h.inv.manager (by rw [hc]; simp))
  have hij := (h.inv_after.wf.writes j w i hw ht).1
  rw [hlog, List.getElem?_append_left hj] at hw
  rw [hlog, List.getElem?_append_left (by omega)] at hu
  exact h.targets j w i u hw ht hu

theorem View.not_counted_zero (h : View before after o sn) : ¬ Counted before o 0 := by
  have := h.two_le
  rintro (h0 | h0)
  · rw [h.inv.manager.status_zero] at h0; cases h0
  · omega

/-- **A stored version is visible exactly when its creator is counted and its deleter is not.** -/
theorem View.visible_iff (h : View before after o sn) {a : TID} {v : TupleVersion}
    (hv : after.table.physicalVersion a = some v) :
    isVisible v sn o after.manager.statuses = true ↔ Counted before o v.xmin ∧ ¬ Counted before o v.xmax := by
  rw [TransactionManager.isVisible_later h.inv.manager h.two_le h.fresh (manager_later h.later)]
  have hsys : v.xmin ≠ systemXid := fun he => by
    have := (h.inv_after.xmin_pos hv).1
    rw [he] at this
    exact absurd this (by decide)
  -- a version of the owner is not deleted by a transaction committed before the snapshot
  have hown : v.xmin = o → before.manager.statuses v.xmax ≠ some .committed := by
    intro hmin hc
    obtain ⟨w, hw, hx, -⟩ := (h.inv_after.mirror.carries a v hv).made
    obtain ⟨j, u, hl, hxu⟩ := (h.inv_after.mirror.carries a v hv).deleted
      (fun hz => by rw [hz, h.inv.manager.status_zero] at hc; cases hc)
    have hopen : before.manager.statuses o = none := h.inv.manager.undecided o h.active
    rcases h.early hl.get (by rw [hxu]; exact hc) hl.target hw with he | hcw
    · rw [hx, hmin, hxu] at he
      rw [← he, hopen] at hc; cases hc
    · rw [hx, hmin, hopen] at hcw; cases hcw
  unfold Counted
  by_cases hmin : v.xmin = o
  · have := hown hmin
    simp [hmin, this]
  · simp [hmin, hsys, not_or, and_comm]

variable (hab : after.manager.statuses o ≠ some .aborted)

include hab

theorem View.serial (h : View before after o sn) : Serial (fun x => ¬ Counted before o x) after.log := by
  refine h.inv_after.serial.mono (fun x hx hc => ?_)
  rcases hc with hc | rfl
  · rw [TransactionManager.status_later h.inv.manager (by rw [hc]; simp) (manager_later h.later), hc] at hx
    cases hx
  · exact hab hx

omit hab in
theorem View.closed (h : View before after o sn) {row : Nat} (hrow : ¬ Overtakes before after o row) :
    Closed (Counted before o) after.log row := by
  intro j w i u hw hc hrw ht hu
  rcases hc with hc | hown
  · rcases h.early hw hc ht hu with he | hcu
    · exact Or.inl (he ▸ hc)
    · exact Or.inl hcu
  · rcases liveTargets_later h.inv h.targets h.later j w i u hw ht hu with he | hcu
    · exact Or.inr (he.trans hown)
    · by_contra hn
      obtain ⟨hij, u', hu', -, hru⟩ := h.inv_after.wf.writes j w i hw ht
      rw [hu] at hu'
      cases hu'
      exact hrow ⟨i, j, u, w, hij, hu, hw, hru.trans hrw, hrw, hown, fun he => hn (Or.inr he), hcu,
        fun hcb => hn (Or.inl hcb)⟩

/-- **The snapshot reads every row that its owner did not overtake.** -/
theorem View.reads (h : View before after o sn) {row : Nat} (hrow : ¬ Overtakes before after o row) :
    Reads (Counted before o) (fun v => isVisible v sn o after.manager.statuses) after.table after.log row :=
  ⟨h.serial hab, h.closed hrow, h.not_counted_zero, fun _ _ hv => h.visible_iff hv⟩

/-- **From its chain's root, a visible version is what the chain resolves to.** -/
theorem View.resolves (h : View before after o sn) {a : TID} {v : TupleVersion}
    (hv : after.table.physicalVersion a = some v) (hvis : isVisible v sn o after.manager.statuses = true)
    (hrow : ¬ Overtakes before after o (after.rowOf a)) :
    ∃ root, after.table.rootTid a = .ok root ∧
      after.table.resolveVisible root sn o after.manager.statuses = .ok (some (a, v.values)) := by
  have hi := h.inv_after
  obtain ⟨root, hroot, hmem, hreach⟩ := HeapTable.rootTid_ok hi.mirror hi.wf (a := a) (by rw [hv]; simp)
  obtain ⟨⟨b, values⟩, hq⟩ : ∃ q, after.table.resolved (fun v => isVisible v sn o after.manager.statuses) root = some q :=
    HeapTable.resolved_isSome hi.mirror hi.wf hv hvis hreach
  obtain ⟨hrb, u, hu, hvis', rfl⟩ := HeapTable.resolved_eq_some hi.mirror hi.wf hq
  have hlive : after.table.physicalVersion root ≠ none := by
    obtain ⟨⟨x, hx⟩, -⟩ := HeapTable.mem_roots.1 hmem
    rw [hx]; simp
  have hr : after.rowOf b = after.rowOf a :=
    (hi.mirror.row_of_reach hi.wf hlive hrb).2.trans (hi.mirror.row_of_reach hi.wf hlive hreach).2.symm
  obtain rfl := (h.reads hab hrow).unique hi.mirror hi.wf hv hu rfl hr hvis hvis'
  rw [hv] at hu
  cases hu
  exact ⟨root, hroot, by rw [HeapTable.resolveVisible_ok hi.mirror hi.wf, hq]⟩

end View

/-! ## Over whole runs -/

namespace HeapState

theorem view_of_run (r : Recovered) (schema : Schema) {pre post : List HeapCall} {o : Nat} {sn : Snapshot}
    (hlive : ∀ c ∈ pre ++ post, c.throughLive = true)
    (hs : ((start r schema).run pre).manager.Takes o sn) :
    View ((start r schema).run pre) (((start r schema).run pre).run (.manager (.statementSnapshot o) :: post)) o sn := by
  have h0 := heapInv_start r schema
  have hpre := later_run pre h0 (fun c hc => hlive c (List.mem_append_left _ hc))
  have hi := heapInv_later h0 hpre
  obtain ⟨hf, t, ht, hst⟩ := TransactionManager.takes_fresh hs
  refine ⟨hi, liveTargets_later h0 (fun j w i u hw => by simp [start] at hw) hpre,
    stored_later hpre (fun i w hw => by simp [start] at hw), later_run _ hi (fun c hc => ?_), hf,
    (hi.manager.active o).2 ⟨t, ht, Or.inl hst⟩⟩
  rcases List.mem_cons.1 hc with rfl | hc
  · rfl
  · exact hlive c (List.mem_append_right _ hc)

/-- **A scan under a snapshot reads, row by row, the database of the writes counted by it**, in every later state where
its owner has not aborted and for every row the owner did not overtake; at most one version of such a row is visible, and
the chain's root resolves to it. -/
theorem scanVisible_refines (r : Recovered) (schema : Schema) (pre post : List HeapCall) (o : Nat) (sn : Snapshot)
    (hlive : ∀ c ∈ pre ++ post, c.throughLive = true) (hs : ((start r schema).run pre).manager.Takes o sn)
    (hab : (((start r schema).run pre).run (.manager (.statementSnapshot o) :: post)).manager.statuses o ≠
      some .aborted) :
    let before := (start r schema).run pre
    let after := before.run (.manager (.statementSnapshot o) :: post)
    ∃ rows, after.table.scanVisible sn o after.manager.statuses = .ok rows ∧
      ∀ row, ¬ Overtakes before after o row →
        (rows.filter (fun q => after.rowOf q.1 = row)).map Prod.snd =
          (History.database (fun x => decide (Counted before o x)) after.log row).toList ∧
        (∀ a b v u, after.table.physicalVersion a = some v → after.table.physicalVersion b = some u →
          after.rowOf a = row → after.rowOf b = row → isVisible v sn o after.manager.statuses = true →
          isVisible u sn o after.manager.statuses = true → a = b) ∧
        (∀ a v, after.table.physicalVersion a = some v → after.rowOf a = row →
          isVisible v sn o after.manager.statuses = true → ∃ root, after.table.rootTid a = .ok root ∧
            after.table.resolveVisible root sn o after.manager.statuses = .ok (some (a, v.values))) := by
  intro before after
  have h : View before after o sn := view_of_run r schema hlive hs
  refine ⟨_, HeapTable.scanVisible_ok h.inv_after.mirror h.inv_after.wf sn o _, fun row hrow => ?_⟩
  have hi := h.inv_after
  have hreads := h.reads hab hrow
  refine ⟨hreads.scanned_eq hi.mirror hi.wf (stored_later h.later h.stored),
    fun a b v u hv hu hra hrb hvis hvis' => ?_, fun a v hv hra hvis => ?_⟩
  · exact (hreads.unique hi.mirror hi.wf hv hu hra hrb hvis hvis').symm
  · exact h.resolves hab hv hvis (hra ▸ hrow)

/-- A table of one integer column, and one row committed before three more transactions act on it. -/
def oneColumn : Schema := ⟨[⟨['v'], .int64, true⟩]⟩

def oneRow : List HeapCall :=
  [.manager (.begin .readCommitted), .insertVersion 2 [.int 5], .manager (.commit 2), .manager (.begin .readCommitted),
    .manager (.begin .readCommitted)]

theorem takes_oneRow : ((start .new oneColumn).run oneRow).manager.Takes 3 ⟨5, [4], by decide⟩ :=
  ⟨⟨_, rfl⟩, fun t ht hi => by cases ht; cases hi⟩

/-- Another transaction updates the row and commits after the snapshot: the scan still returns the old value. -/
theorem scanVisible_refines_example :
    let after := ((start .new oneColumn).run oneRow).run
      [.manager (.statementSnapshot 3), .replaceLive 4 ⟨0, 0⟩ [.int 6], .manager (.commit 4)]
    ∃ rows, after.table.scanVisible ⟨5, [4], by decide⟩ 3 after.manager.statuses = .ok rows ∧
      (rows.filter (fun q => after.rowOf q.1 = 0)).map Prod.snd = [[.int 5]] := by
  intro after
  obtain ⟨rows, hok, hrows⟩ := scanVisible_refines .new oneColumn oneRow [.replaceLive 4 ⟨0, 0⟩ [.int 6], .manager (.commit 4)]
    3 _ (by decide) takes_oneRow (by decide +kernel)
  have hwriters : ∀ w ∈ after.log, w.writer ≠ 3 := by decide +kernel
  refine ⟨rows, hok, (hrows 0 ?_).1.trans (by decide +kernel)⟩
  rintro ⟨i, j, w, u, -, -, hu, -, -, h3, -⟩
  exact hwriters u (List.mem_of_getElem? hu) h3

/-- **The unconditional refinement fails, twice.**  The owner deletes, after a wait, the version of a transaction that
committed after its snapshot; its snapshot still shows it the version before that one, though its own write deleted the
row.  And an owner that aborted still sees its own replacement, beside the version that another transaction has
replaced since. -/
theorem overtaken_row_stays_visible :
    (¬ ∀ (r : Recovered) (schema : Schema) (pre post : List HeapCall) (o : Nat) (sn : Snapshot),
      (∀ c ∈ pre ++ post, c.throughLive = true) → ((start r schema).run pre).manager.Takes o sn →
      (((start r schema).run pre).run (.manager (.statementSnapshot o) :: post)).manager.statuses o ≠ some .aborted →
      ∃ rows, (((start r schema).run pre).run (.manager (.statementSnapshot o) :: post)).table.scanVisible sn o
          (((start r schema).run pre).run (.manager (.statementSnapshot o) :: post)).manager.statuses = .ok rows ∧
        ∀ row, (rows.filter (fun q => (((start r schema).run pre).run
            (.manager (.statementSnapshot o) :: post)).rowOf q.1 = row)).map Prod.snd =
          (History.database (fun x => decide (Counted ((start r schema).run pre) o x))
            (((start r schema).run pre).run (.manager (.statementSnapshot o) :: post)).log row).toList) ∧
    (((start .new oneColumn).run oneRow).run [.manager (.statementSnapshot 3), .replaceLive 3 ⟨0, 0⟩ [.int 6],
      .manager (.abort 3), .replaceLive 4 ⟨0, 0⟩ [.int 7]]).table.scanVisible ⟨5, [4], by decide⟩ 3
        (((start .new oneColumn).run oneRow).run [.manager (.statementSnapshot 3), .replaceLive 3 ⟨0, 0⟩ [.int 6],
          .manager (.abort 3), .replaceLive 4 ⟨0, 0⟩ [.int 7]]).manager.statuses =
      .ok [(⟨0, 0⟩, [.int 5]), (⟨0, 1⟩, [.int 6])] := by
  refine ⟨fun h => ?_, by decide +kernel⟩
  obtain ⟨rows, hok, hrows⟩ := h .new oneColumn oneRow
    [.replaceLive 4 ⟨0, 0⟩ [.int 6], .manager (.commit 4), .deleteLive 3 ⟨0, 0⟩] 3 _ (by decide) takes_oneRow
    (by decide +kernel)
  have hscan : (((start .new oneColumn).run oneRow).run [.manager (.statementSnapshot 3),
      .replaceLive 4 ⟨0, 0⟩ [.int 6], .manager (.commit 4), .deleteLive 3 ⟨0, 0⟩]).table.scanVisible
        ⟨5, [4], by decide⟩ 3 (((start .new oneColumn).run oneRow).run [.manager (.statementSnapshot 3),
        .replaceLive 4 ⟨0, 0⟩ [.int 6], .manager (.commit 4), .deleteLive 3 ⟨0, 0⟩]).manager.statuses =
      .ok [(⟨0, 0⟩, [.int 5])] := by decide +kernel
  rw [hscan, Except.ok.injEq] at hok
  subst hok
  exact absurd (hrows 0) (by decide +kernel)

end HeapState
end MiniPostgres
