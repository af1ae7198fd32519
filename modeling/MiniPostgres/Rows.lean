import MiniPostgres.Integrity
/-!
# Rows — the root and the live version of a row

When writes went over live versions only, a transaction's row has one chain root whose creator it counts (`RowRoot`), and
`resolve_globally_live` from it finds the one version of the row that is live for the transaction (`resolved_live`).  A step
that writes another row leaves both (`Untouched`).
-/
namespace MiniPostgres

open History (Write Closed Serial getElem?_concat)

/-! ## Roots -/

theorem closed_unaborted {st : StatusTable} {log : Log} (hl : LiveTargets st log) (row : Nat) :
    Closed (fun x => ¬ st x = some .aborted) log row := by
  intro j w i u hw hcw _ ht hu
  rcases hl j w i u hw ht hu with he | he
  · rw [he]; exact hcw
  · rw [he]; simp

/-- Live for `x`: `x` itself, or committed. -/
def HeapState.Live (s : HeapState) (x y : Nat) : Prop := y = x ∨ s.manager.statuses y = some .committed

theorem closed_live {s : HeapState} (hl : LiveTargets s.manager.statuses s.log) (x row : Nat) :
    Closed (s.Live x) s.log row := by
  intro j w i u hw hcw _ ht hu
  rcases hl j w i u hw ht hu with he | he
  · rw [he]; exact hcw
  · exact Or.inr he

/-- A chain root whose creator is live for `x`. -/
def RowRoot (s : HeapState) (x : Nat) (r : TID) : Prop :=
  r ∈ s.table.roots ∧ ∃ v, s.table.physicalVersion r = some v ∧ LiveFor s.manager x v

section Roots

variable {s : HeapState} {x : Nat} {r a : TID} {v : TupleVersion}

theorem LiveFor.unaborted (hi : HeapInv s) (hx : x ∈ s.manager.active) (h : LiveFor s.manager x v) :
    ¬ s.manager.statuses v.xmin = some .aborted := by
  rcases h with rfl | hc
  · rw [hi.manager.undecided _ hx]; simp
  · rw [hc]; simp

/-- **A root whose creator did not abort reaches every such version of its row.** -/
theorem HeapInv.root_reach (hi : HeapInv s) (hl : LiveTargets s.manager.statuses s.log) {u : TupleVersion}
    (hr : r ∈ s.table.roots) (hv : s.table.physicalVersion r = some v) (hu : s.table.physicalVersion a = some u)
    (hvc : ¬ s.manager.statuses v.xmin = some .aborted) (huc : ¬ s.manager.statuses u.xmin = some .aborted)
    (hrow : s.rowOf a = s.rowOf r) : Linked.Reach s.table.physicalVersion TupleVersion.nextTid r a := by
  have hser : Serial (fun y => ¬ ¬ s.manager.statuses y = some .aborted) s.log :=
    hi.serial.mono (fun y hy => not_not.2 hy)
  rcases Nat.lt_trichotomy (s.origin r) (s.origin a) with hlt | heq | hlt
  · exact hi.mirror.reach_of_counted hi.wf hser hv hu hrow.symm (closed_unaborted hl _) hvc huc hlt
  · rw [hi.mirror.inj r a (by rw [hv]; simp) (by rw [hu]; simp) heq]
  · have hreach := hi.mirror.reach_of_counted hi.wf hser hu hv hrow (closed_unaborted hl _) huc hvc hlt
    rcases Relation.ReflTransGen.cases_tail hreach with he | ⟨y, -, hy⟩
    · rw [he]
    · exact absurd hy (HeapTable.no_link_to_root hr y)

/-- **A row has one root for the open transactions.** -/
theorem RowRoot.unique (hi : HeapInv s) (hl : LiveTargets s.manager.statuses s.log) {y : Nat} {r' : TID}
    (hx : x ∈ s.manager.active) (hy : y ∈ s.manager.active) (h : RowRoot s x r) (h' : RowRoot s y r')
    (hrow : s.rowOf r = s.rowOf r') : r = r' := by
  obtain ⟨hr, v, hv, hvl⟩ := h
  obtain ⟨hr', v', hv', hvl'⟩ := h'
  have hreach := hi.root_reach hl hr hv hv' (hvl.unaborted hi hx) (hvl'.unaborted hi hy) hrow.symm
  exact HeapTable.root_unique hi.mirror hi.wf hr hr' hreach .refl

theorem RowRoot.reach (hi : HeapInv s) (hl : LiveTargets s.manager.statuses s.log) (hx : x ∈ s.manager.active)
    (h : RowRoot s x r) (hv : s.table.physicalVersion a = some v) (hva : LiveFor s.manager x v)
    (hrow : s.rowOf a = s.rowOf r) : Linked.Reach s.table.physicalVersion TupleVersion.nextTid r a := by
  obtain ⟨hr, u, hu, hul⟩ := h
  exact hi.root_reach hl hr hu hv (hul.unaborted hi hx) (hva.unaborted hi hx) hrow

theorem RowRoot.rootTid (hi : HeapInv s) (hl : LiveTargets s.manager.statuses s.log) (hx : x ∈ s.manager.active)
    (h : RowRoot s x r) (hv : s.table.physicalVersion a = some v) (hva : LiveFor s.manager x v)
    (hrow : s.rowOf a = s.rowOf r) : s.table.rootTid a = .ok r := by
  obtain ⟨r', hr', hmem, hreach⟩ := HeapTable.rootTid_ok hi.mirror hi.wf (a := a) (by rw [hv]; simp)
  rw [hr', HeapTable.root_unique hi.mirror hi.wf hmem h.1 hreach (h.reach hi hl hx hv hva hrow)]

theorem HeapInv.row_start (hi : HeapInv s) (hl : LiveTargets s.manager.statuses s.log)
    (hv : s.table.physicalVersion a = some v) (hva : LiveFor s.manager x v) :
    ∃ u, s.log[s.rowOf a]? = some u ∧ s.Live x u.writer := by
  obtain ⟨w, hw, hx, -, hrow⟩ := hi.origin_write hv
  exact (closed_live hl x (s.rowOf a)).start hi.wf _ w hw (by rw [hx]; exact hva) hrow.symm

end Roots

/-! ## The live version -/

section Live

variable {s : HeapState} {x : Nat} {r a : TID} {v : TupleVersion}

theorem HeapInv.globallyLive_iff (hi : HeapInv s) (hv : s.table.physicalVersion a = some v) :
    HeapTable.globallyLive v x s.manager.statuses = true ↔ s.Live x v.xmin ∧ ¬ (v.xmax ≠ 0 ∧ s.Live x v.xmax) := by
  have hsys : v.xmin ≠ systemXid := fun he => by
    have := (hi.xmin_pos hv).1
    rw [he] at this
    exact absurd this (by decide)
  simp only [HeapTable.globallyLive, decide_eq_true_eq, TransactionManager.get_eq_committed, HeapState.Live, hsys, false_or]

theorem HeapInv.live_reads (hi : HeapInv s) (hl : LiveTargets s.manager.statuses s.log) (hx : x ∈ s.manager.active)
    (row : Nat) :
    Reads (s.Live x) (fun v => HeapTable.globallyLive v x s.manager.statuses) s.table s.log row := by
  have h2 := (hi.manager.active_lt hx).1
  have hzero : ¬ s.Live x 0 := by
    rintro (h0 | h0)
    · omega
    · rw [hi.manager.status_zero] at h0; cases h0
  refine ⟨hi.serial.mono (fun y hy hc => ?_), closed_live hl x row, hzero, fun a v hv => ?_⟩
  · rcases hc with rfl | hc
    · rw [hi.manager.undecided _ hx] at hy; cases hy
    · rw [hc] at hy; cases hy
  · rw [hi.globallyLive_iff hv]
    refine and_congr_right (fun _ => not_congr ⟨fun h => h.2, fun h => ⟨?_, h⟩⟩)
    rintro h0
    exact hzero (h0 ▸ h)

/-- **The root resolves to the version of its row that is live for the transaction.** -/
theorem RowRoot.resolved_live (hi : HeapInv s) (hl : LiveTargets s.manager.statuses s.log) (hx : x ∈ s.manager.active)
    (h : RowRoot s x r) {values : Values} :
    s.table.resolved (fun v => HeapTable.globallyLive v x s.manager.statuses) r = some (a, values) ↔
      ∃ v, s.table.physicalVersion a = some v ∧ s.rowOf a = s.rowOf r ∧
        HeapTable.globallyLive v x s.manager.statuses = true ∧ v.values = values := by
  have hstored : s.table.physicalVersion r ≠ none := by
    obtain ⟨-, u, hu, -⟩ := h
    rw [hu]; simp
  constructor
  · intro hres
    obtain ⟨hreach, v, hv, hp, rfl⟩ := HeapTable.resolved_eq_some hi.mirror hi.wf hres
    exact ⟨v, hv, (hi.mirror.row_of_reach hi.wf hstored hreach).2, hp, rfl⟩
  · rintro ⟨v, hv, hrow, hp, rfl⟩
    have hlive : LiveFor s.manager x v := ((hi.globallyLive_iff hv).1 hp).1
    obtain ⟨⟨b, values⟩, hq⟩ : ∃ q, s.table.resolved (fun v => HeapTable.globallyLive v x s.manager.statuses) r = some q :=
      HeapTable.resolved_isSome hi.mirror hi.wf hv hp (h.reach hi hl hx hv hlive hrow)
    obtain ⟨hreach, u, hu, hp', rfl⟩ := HeapTable.resolved_eq_some hi.mirror hi.wf hq
    have hb := (hi.mirror.row_of_reach hi.wf hstored hreach).2
    obtain rfl := (hi.live_reads hl hx (s.rowOf r)).unique hi.mirror hi.wf hv hu hrow hb hp hp'
    rw [hv] at hu
    cases hu
    exact hq

end Live

/-! ## What a step leaves -/

section Frame

variable {live : Prop} {s s' : HeapState} {a : TID} {v : TupleVersion}

/-- **A stored version keeps its slot, its creator and its values**, and its deleter unless the step wrote over it. -/
theorem HeapStepped.stays (hs : HeapStepped live s s') (hv : s.table.physicalVersion a = some v) :
    ∃ v', s'.table.physicalVersion a = some v' ∧ v'.xmin = v.xmin ∧ v'.values = v.values ∧ s'.origin a = s.origin a ∧
      (v'.xmax = v.xmax ∨ (HeapTable.writable v s.manager.statuses = true ∧
        ∃ w : Write Nat Values, s'.log = s.log ++ [w] ∧ w.target ≠ none ∧ v'.xmax = w.writer)) := by
  have hne : s.table.physicalVersion a ≠ none := by rw [hv]; simp
  cases hs with
  | same | manager => exact ⟨v, hv, rfl, rfl, rfl, Or.inl rfl⟩
  | inserted x hx values table tid hins _ =>
    exact ⟨v, by rw [hins.keeps hne, hv], rfl, rfl, Function.update_of_ne (hins.ne hne) _ _, Or.inl rfl⟩
  | replaced x hx values tid new old mid table hold hw _ hins hrew _ _ =>
    by_cases hat : a = tid
    · subst hat
      rw [hold] at hv
      cases hv
      exact ⟨⟨v.xmin, x, some new, v.values⟩, by rw [hrew.versions, Function.update_self], rfl, rfl,
        Function.update_of_ne (hins.ne hne) _ _, Or.inr ⟨hw, _, rfl, by simp, rfl⟩⟩
    · exact ⟨v, by rw [hrew.versions, Function.update_of_ne hat, hins.keeps hne, hv], rfl, rfl,
        Function.update_of_ne (hins.ne hne) _ _, Or.inl rfl⟩
  | deleted x hx tid old table hold hw _ hrew _ =>
    by_cases hat : a = tid
    · subst hat
      rw [hold] at hv
      cases hv
      exact ⟨⟨v.xmin, x, v.nextTid, v.values⟩, by rw [hrew.versions, Function.update_self], rfl, rfl, rfl,
        Or.inr ⟨hw, _, rfl, by simp, rfl⟩⟩
    · exact ⟨v, by rw [hrew.versions, Function.update_of_ne hat, hv], rfl, rfl, rfl, Or.inl rfl⟩

theorem HeapStepped.log_cases (hs : HeapStepped live s s') :
    s'.log = s.log ∨ ∃ w : Write Nat Values, s'.log = s.log ++ [w] ∧ w.writer ∈ s.manager.active ∧ s'.manager = s.manager := by
  cases hs with
  | same | manager => exact Or.inl rfl
  | inserted x hx | replaced x hx | deleted x hx => exact Or.inr ⟨_, rfl, hx, rfl⟩

theorem HeapStepped.log_get (hs : HeapStepped live s s') {i : Nat} {w : Write Nat Values} (hw : s.log[i]? = some w) :
    s'.log[i]? = some w := by
  rcases hs.log_cases with he | ⟨u, he, -⟩
  · rw [he]; exact hw
  · rw [he]; exact getElem?_concat.2 (Or.inl hw)

theorem HeapStepped.rowOf_stays (hi : HeapInv s) (hs : HeapStepped live s s') (hv : s.table.physicalVersion a = some v) :
    s'.rowOf a = s.rowOf a := by
  obtain ⟨w, hw, -, -, hrow⟩ := hi.origin_write hv
  obtain ⟨-, -, -, -, ho, -⟩ := hs.stays hv
  rw [hrow]
  exact rowOf_eq (by rw [ho]; exact hs.log_get hw)

theorem HeapStepped.liveFor_stays (hi : HeapInv s) (hs : HeapStepped live s s') {x : Nat} (h : LiveFor s.manager x v)
    {v' : TupleVersion} (hx : v'.xmin = v.xmin) : LiveFor s'.manager x v' := by
  unfold LiveFor at h ⊢
  rw [hx]
  refine h.imp_right (fun hc => ?_)
  rw [TransactionManager.status_later hi.manager (by rw [hc]; simp) (manager_later (.single hs)), hc]

theorem HeapStepped.roots_stay (hs : HeapStepped live s s') (ha : a ∈ s.table.roots) : a ∈ s'.table.roots := by
  obtain ⟨⟨v, hv⟩, hnone⟩ := HeapTable.mem_roots.1 ha
  obtain ⟨v', hv', -⟩ := hs.stays hv
  refine HeapTable.mem_roots.2 ⟨⟨v', hv'⟩, fun b u hb hn => ?_⟩
  have hne : s.table.physicalVersion a ≠ none := by rw [hv]; simp
  cases hs with
  | same | manager => exact hnone b u hb hn
  | inserted x hx values table tid hins _ =>
    simp only [hins.versions] at hb
    by_cases hbt : b = tid
    · subst hbt; rw [Function.update_self] at hb; cases hb; cases hn
    · rw [Function.update_of_ne hbt] at hb; exact hnone b u hb hn
  | replaced x hx values tid new old mid table hold hw _ hins hrew _ _ =>
    simp only [hrew.versions, hins.versions] at hb
    by_cases hbt : b = tid
    · subst hbt
      rw [Function.update_self] at hb
      cases hb
      exact hins.ne hne (Option.some.inj hn).symm
    · rw [Function.update_of_ne hbt] at hb
      by_cases hbn : b = new
      · subst hbn; rw [Function.update_self] at hb; cases hb; cases hn
      · rw [Function.update_of_ne hbn] at hb; exact hnone b u hb hn
  | deleted x hx tid old table hold hw _ hrew _ =>
    simp only [hrew.versions] at hb
    by_cases hbt : b = tid
    · subst hbt
      rw [Function.update_self] at hb
      cases hb
      exact hnone b old hold hn
    · rw [Function.update_of_ne hbt] at hb; exact hnone b u hb hn

theorem RowRoot.stays (hi : HeapInv s) (hs : HeapStepped live s s') {x : Nat} (h : RowRoot s x a) : RowRoot s' x a := by
  obtain ⟨hr, v, hv, hl⟩ := h
  obtain ⟨v', hv', hmin, -⟩ := hs.stays hv
  exact ⟨hs.roots_stay hr, v', hv', hs.liveFor_stays hi hl hmin⟩

/-- A version that an open transaction wrote over is stored and carries its XID. -/
def Marked (s : HeapState) : Prop :=
  ∀ (j : Nat) (w : Write Nat Values) (i : Nat), s.log[j]? = some w → w.target = some i → w.writer ∈ s.manager.active →
    ∃ a v, s.table.physicalVersion a = some v ∧ s.origin a = i ∧ v.xmax = w.writer

theorem HeapStepped.active_before (hi : HeapInv s) (hs : HeapStepped live s s') {x : Nat} (hx : x ∈ s'.manager.active)
    (hlt : x < s.manager.nextXid) : x ∈ s.manager.active := by
  by_contra hna
  exact (TransactionManager.settled_later hi.manager ⟨hlt, hna⟩ (manager_later (.single hs))).1.2 hx

theorem not_writable_of_active (hi : HeapInv s) (hx : v.xmax ∈ s.manager.active) :
    HeapTable.writable v s.manager.statuses ≠ true := by
  intro hw
  simp only [HeapTable.writable, decide_eq_true_eq] at hw
  rcases hw with h0 | hab
  · have := (hi.manager.active_lt hx).1
    omega
  · simp [StatusTable.get, hi.manager.undecided _ hx] at hab

theorem marked_stepped (hi : HeapInv s) (hs : HeapStepped live s s') (h : Marked s) : Marked s' := by
  intro j w i hw ht ha
  have hold : s.log[j]? = some w → ∃ a v, s'.table.physicalVersion a = some v ∧ s'.origin a = i ∧ v.xmax = w.writer := by
    intro hw'
    have hact := hs.active_before hi ha (hi.writer_pos hw').2
    obtain ⟨a, v, hv, ho, hx⟩ := h j w i hw' ht hact
    obtain ⟨v', hv', -, -, ho', hx'⟩ := hs.stays hv
    refine ⟨a, v', hv', ho'.trans ho, ?_⟩
    rcases hx' with he | ⟨hwr, -⟩
    · exact he.trans hx
    · exact absurd hwr (not_writable_of_active hi (hx ▸ hact))
  cases hs with
  | same | manager => exact hold hw
  | inserted x hx values table tid hins _ =>
    rcases getElem?_concat.1 hw with hw' | ⟨-, rfl⟩
    · exact hold hw'
    · cases ht
  | replaced x hx values tid new old mid table hv _ _ hins hrew _ _ =>
    rcases getElem?_concat.1 hw with hw' | ⟨-, rfl⟩
    · exact hold hw'
    · cases ht
      refine ⟨tid, ⟨old.xmin, x, some new, old.values⟩, by rw [hrew.versions, Function.update_self], ?_, rfl⟩
      exact Function.update_of_ne (hins.ne (by rw [hv]; simp)) _ _
  | deleted x hx tid old table hv _ _ hrew _ =>
    rcases getElem?_concat.1 hw with hw' | ⟨-, rfl⟩
    · exact hold hw'
    · cases ht
      exact ⟨tid, ⟨old.xmin, x, old.nextTid, old.values⟩, by rw [hrew.versions, Function.update_self], rfl, rfl⟩

/-- The versions of a row are the same in both states. -/
def Untouched (s s' : HeapState) (row : Nat) : Prop :=
  ∀ a, (s.table.physicalVersion a ≠ none ∧ s.rowOf a = row) ∨ (s'.table.physicalVersion a ≠ none ∧ s'.rowOf a = row) →
    s'.table.physicalVersion a = s.table.physicalVersion a ∧ s.rowOf a = row ∧ s'.rowOf a = row

/-- **A step that writes no version of a row leaves the row.** -/
theorem HeapStepped.untouched (hi : HeapInv s) (hs : HeapStepped live s s') {row : Nat}
    (hrow : ∀ w : Write Nat Values, s'.log = s.log ++ [w] → w.row ≠ row) : Untouched s s' row := by
  -- a slot with the same version in both states, and the slots a write touched
  have hsame : ∀ a, s'.table.physicalVersion a = s.table.physicalVersion a →
      (s.table.physicalVersion a ≠ none ∧ s.rowOf a = row) ∨ (s'.table.physicalVersion a ≠ none ∧ s'.rowOf a = row) →
      s'.table.physicalVersion a = s.table.physicalVersion a ∧ s.rowOf a = row ∧ s'.rowOf a = row := by
    intro a he h
    have hstay : s.table.physicalVersion a ≠ none → s'.rowOf a = s.rowOf a := fun hne => by
      obtain ⟨v, hv⟩ := Option.ne_none_iff_exists'.1 hne
      exact hs.rowOf_stays hi hv
    rcases h with ⟨hne, hr⟩ | ⟨hne, hr⟩
    · exact ⟨he, hr, (hstay hne).trans hr⟩
    · rw [he] at hne
      exact ⟨he, (hstay hne).symm.trans hr, hr⟩
  have htouched : ∀ a w, s'.log = s.log ++ [w] → s'.table.physicalVersion a ≠ none → s'.rowOf a = w.row →
      ((s.table.physicalVersion a ≠ none ∧ s.rowOf a = row) ∨ (s'.table.physicalVersion a ≠ none ∧ s'.rowOf a = row)) →
      False := by
    intro a w hlog hne hr h
    rcases h with ⟨hne', hr'⟩ | ⟨-, hr'⟩
    · obtain ⟨v, hv⟩ := Option.ne_none_iff_exists'.1 hne'
      exact hrow w hlog (hr.symm.trans ((hs.rowOf_stays hi hv).trans hr'))
    · exact hrow w hlog (hr.symm.trans hr')
  have hkeep : ∀ a v, s.table.physicalVersion a = some v → s'.rowOf a = s.rowOf a := fun a v hv => hs.rowOf_stays hi hv
  have hnew : ∀ {w : Write Nat Values} {b : TID}, rowOf (s.log ++ [w]) (Function.update s.origin b s.log.length) b = w.row :=
    fun {w b} => rowOf_eq (by rw [Function.update_self]; exact getElem?_concat.2 (Or.inr ⟨rfl, rfl⟩))
  cases hs with
  | same => exact fun a => hsame a rfl
  | manager m hm => exact fun a => hsame a rfl
  | inserted x hx values table tid hins he =>
    intro a h
    by_cases hat : a = tid
    · subst hat
      exact (htouched a _ rfl (by rw [hins.get]; simp) hnew h).elim
    · exact hsame a (by rw [hins.versions, Function.update_of_ne hat]) h
  | replaced x hx values tid new old mid table hold hw hlive hins hrew he he' =>
    have hne : s.table.physicalVersion tid ≠ none := by rw [hold]; simp
    intro a h
    by_cases hat : a = tid
    · subst hat
      exact (htouched a _ rfl (hrew.stays (by rw [hins.keeps hne]; exact hne)) (hkeep a old hold) h).elim
    · by_cases han : a = new
      · subst han
        exact (htouched a _ rfl (hrew.stays (by rw [hins.get]; simp)) hnew h).elim
      · exact hsame a (by rw [hrew.versions, Function.update_of_ne hat, hins.versions, Function.update_of_ne han]) h
  | deleted x hx tid old table hold hw hlive hrew he =>
    have hne : s.table.physicalVersion tid ≠ none := by rw [hold]; simp
    intro a h
    by_cases hat : a = tid
    · subst hat
      exact (htouched a _ rfl (hrew.stays hne) (hkeep a old hold) h).elim
    · exact hsame a (by rw [hrew.versions, Function.update_of_ne hat]) h

end Frame

/-! ## A quiet row -/

section Quiet

variable {s s' : HeapState} {x : Nat} {r : TID}

/-- No open transaction but `x` wrote the row. -/
def Quiet (s : HeapState) (x row : Nat) : Prop :=
  ∀ (j : Nat) (w : Write Nat Values), s.log[j]? = some w → w.row = row → w.writer = x ∨ w.writer ∉ s.manager.active

/-- The creator and the deleter of a version of a quiet row are settled, or the transaction itself. -/
theorem Quiet.settled (hi : HeapInv s) (h : Quiet s x (s.rowOf r)) {a : TID} {v : TupleVersion}
    (hv : s.table.physicalVersion a = some v) (hrow : s.rowOf a = s.rowOf r) :
    (v.xmin = x ∨ s.manager.Settled v.xmin) ∧ (v.xmax = x ∨ s.manager.Settled v.xmax) := by
  have hset : ∀ {j : Nat} {w : Write Nat Values}, s.log[j]? = some w → w.row = s.rowOf r →
      w.writer = x ∨ s.manager.Settled w.writer := fun {j w} hw hr =>
    (h j w hw hr).imp_right (fun hna => ⟨(hi.writer_pos hw).2, hna⟩)
  obtain ⟨w, hw, hx, -, hr⟩ := hi.origin_write hv
  refine ⟨hx ▸ hset hw (hr.symm.trans hrow), ?_⟩
  by_cases h0 : v.xmax = 0
  · refine Or.inr ⟨?_, fun ha => ?_⟩
    · rw [h0]; have := hi.manager.two_le; omega
    · have := (hi.manager.active_lt ha).1; omega
  · obtain ⟨j, u, hl, hxu⟩ := (hi.mirror.carries a v hv).deleted h0
    obtain ⟨-, u', hu', -, hru⟩ := hi.wf.writes j u _ hl.get hl.target
    rw [hw] at hu'
    cases hu'
    exact hxu ▸ hset hl.get (hru.symm.trans (hr.symm.trans hrow))

/-- **A quiet row's live version stays the live version** over a step that does not write the row. -/
theorem RowRoot.resolved_stays (hi : HeapInv s) (hl : LiveTargets s.manager.statuses s.log) (hx : x ∈ s.manager.active)
    (h : RowRoot s x r) (hq : Quiet s x (s.rowOf r)) (hs : HeapStepped True s s') (hx' : x ∈ s'.manager.active)
    (hu : Untouched s s' (s.rowOf r)) :
    s'.table.resolved (fun v => HeapTable.globallyLive v x s'.manager.statuses) r =
      s.table.resolved (fun v => HeapTable.globallyLive v x s.manager.statuses) r := by
  have hi' := heapInv_stepped hi hs
  have hl' := liveTargets_stepped hi hl hs
  have h' := h.stays hi hs
  have hrow : s'.rowOf r = s.rowOf r := by
    obtain ⟨-, v, hv, -⟩ := h
    exact hs.rowOf_stays hi hv
  -- settled transactions are as live in both states
  have hlive : ∀ y, y = x ∨ s.manager.Settled y → (s'.Live x y ↔ s.Live x y) := by
    rintro y (rfl | hy)
    · exact ⟨fun _ => Or.inl rfl, fun _ => Or.inl rfl⟩
    · unfold HeapState.Live
      rw [(TransactionManager.settled_later hi.manager hy (manager_later (.single hs))).2]
  have hiff : ∀ {a : TID} {v : TupleVersion}, s.table.physicalVersion a = some v → s'.table.physicalVersion a = some v →
      s.rowOf a = s.rowOf r →
      (HeapTable.globallyLive v x s'.manager.statuses = true ↔ HeapTable.globallyLive v x s.manager.statuses = true) := by
    intro a v hv hv' hr
    obtain ⟨h1, h2⟩ := hq.settled hi hv hr
    rw [hi.globallyLive_iff hv, hi'.globallyLive_iff hv', hlive _ h1, hlive _ h2]
  ext ⟨a, values⟩
  rw [h.resolved_live hi hl hx, h'.resolved_live hi' hl' hx']
  constructor
  · rintro ⟨v, hv, hr, hp, he⟩
    obtain ⟨hsame, hr0, -⟩ := hu a (Or.inr ⟨by rw [hv]; simp, hr.trans hrow⟩)
    have hv0 : s.table.physicalVersion a = some v := by rw [← hsame]; exact hv
    exact ⟨v, hv0, hr0, (hiff hv0 hv hr0).1 hp, he⟩
  · rintro ⟨v, hv, hr, hp, he⟩
    obtain ⟨hsame, -, hr'⟩ := hu a (Or.inl ⟨by rw [hv]; simp, hr⟩)
    have hv' : s'.table.physicalVersion a = some v := by rw [hsame]; exact hv
    exact ⟨v, hv', hr'.trans hrow.symm, (hiff hv hv' hr).2 hp, he⟩

end Quiet
end MiniPostgres
