import MiniPostgres.Recovery
/-!
# Outcomes — the status table and the log

`commit` and `abort` of a transaction with writes log the outcome, flush the log, and then write the status, all under the
manager's lock: between the record and the status the transaction is an `Ending`.  `OutcomeInv` ties the log to the manager
at every one of these points, so that recovery finds one outcome for each transaction.
-/
namespace MiniPostgres

/-- `ControlState`; the clean-shutdown flag does not reach `recover`. -/
structure ControlState where
  checkpointLsn : Nat
  nextXid       : Nat
  statuses      : StatusTable

def ControlState.new : ControlState := ⟨0, 2, StatusTable.empty⟩

inductive CheckpointStage
  | idle | activeRead | statusesRead | called | logFlushed | framesFlushed | synced | recorded | recordFlushed
  deriving DecidableEq, Repr

/-- The local variables of `Database.checkpoint` and `sharp_checkpoint`. -/
structure Checkpointing where
  stage         : CheckpointStage
  active        : List Nat
  statuses      : StatusTable
  nextXid       : Nat
  checkpointLsn : Nat

/-- A `commit` or `abort` between its record and its status: it holds the manager's lock. -/
structure Ending where
  xid     : Nat
  status  : TransactionStatus
  flushed : Bool

/-- `status_map` of `Database.checkpoint`: the recorded outcomes, and the status of each transaction that was active. -/
def statusMap (m : TransactionManager) (active : List Nat) : StatusTable := fun x =>
  if x ∈ active then some (m.statuses.get x) else m.statuses x

theorem statusMap_recorded {m : TransactionManager} {active : List Nat} {x : Nat}
    (hx : (statusMap m active).get x ≠ .inProgress) : m.statuses x = some ((statusMap m active).get x) := by
  have hget : (statusMap m active).get x = m.statuses.get x := by
    simp only [statusMap, StatusTable.get]
    split <;> rfl
  rw [hget] at hx ⊢
  unfold StatusTable.get at hx ⊢
  cases hx' : m.statuses x with
  | none => rw [hx'] at hx; exact absurd rfl hx
  | some st => rfl

/-- The outcome of a transaction, from its record on. -/
def decided (m : TransactionManager) (ending : Option Ending) : Nat → Option TransactionStatus := fun x =>
  match ending with
  | some e => if x = e.xid then some e.status else m.statuses x
  | none   => m.statuses x

/-- A table holds no outcome other than the decided ones. -/
def Agrees (d : Nat → Option TransactionStatus) (t : StatusTable) : Prop :=
  ∀ x, t.get x ≠ .inProgress → d x = some (t.get x)

def Extends (d d' : Nat → Option TransactionStatus) : Prop := ∀ x st, d x = some st → d' x = some st

theorem Agrees.mono {d d' : Nat → Option TransactionStatus} {t : StatusTable} (h : Agrees d t) (he : Extends d d') :
    Agrees d' t := fun x hx => he x _ (h x hx)

/-- **The log and the manager agree**: an outcome record decides its transaction, the transaction that is ending is open,
and a commit with writes has its record. -/
structure OutcomeInv (m : TransactionManager) (ending : Option Ending) (entries : List WalEntry) : Prop where
  manager   : TransactionManager.Inv m
  found     : ∀ e, ending = some e → ∃ t, m.transactions e.xid = some t ∧ TransactionManager.isOpen t
  logged    : ∀ e, ending = some e → e.status = .committed → ∃ f ∈ entries, f.xid = e.xid ∧ f.record = .commit
  commits   : ∀ e ∈ entries, e.record = .commit → decided m ending e.xid = some .committed
  aborts    : ∀ e ∈ entries, e.record = .abort → decided m ending e.xid = some .aborted
  committed : ∀ x t, m.transactions x = some t → t.state = .committed → t.hasWrites = true →
    ∃ f ∈ entries, f.xid = x ∧ f.record = .commit

namespace OutcomeInv

variable {m : TransactionManager} {ending : Option Ending} {entries : List WalEntry}

theorem start (r : Recovered) : OutcomeInv (TransactionManager.start r) none [] where
  manager := TransactionManager.inv_start r
  found e h := by cases h
  logged e h := by cases h
  commits e h := by cases h
  aborts e h := by cases h
  committed x t h := by cases h

theorem coherent (h : OutcomeInv m ending entries) {t : StatusTable} (ht : Agrees (decided m ending) t) :
    Coherent (decided m ending) t entries :=
  ⟨ht, h.commits, h.aborts⟩

theorem logs (h : OutcomeInv m ending entries) {e : WalEntry} (hc : e.record ≠ .commit) (ha : e.record ≠ .abort) :
    OutcomeInv m ending (entries ++ [e]) where
  manager := h.manager
  found := h.found
  logged f hf hs := by
    obtain ⟨g, hg, hr⟩ := h.logged f hf hs
    exact ⟨g, List.mem_append_left _ hg, hr⟩
  commits f hf hr := by
    rcases List.mem_append.1 hf with hf | hf
    · exact h.commits f hf hr
    · rw [List.mem_singleton.1 hf] at hr; exact absurd hr hc
  aborts f hf hr := by
    rcases List.mem_append.1 hf with hf | hf
    · exact h.aborts f hf hr
    · rw [List.mem_singleton.1 hf] at hr; exact absurd hr ha
  committed x t ht hs hw := by
    obtain ⟨g, hg, hr⟩ := h.committed x t ht hs hw
    exact ⟨g, List.mem_append_left _ hg, hr⟩

theorem extends_stepped (h : OutcomeInv m none entries) {m' : TransactionManager} (hs : TransactionManager.Stepped m m') :
    Extends (decided m none) (decided m' none) := by
  intro x st hx
  simp only [decided] at hx ⊢
  rw [TransactionManager.status_later h.manager (by rw [hx]; simp) (.single hs), hx]

theorem managed (h : OutcomeInv m none entries) {m' : TransactionManager} (hs : TransactionManager.Stepped m m')
    (hw : ∀ x t, m'.transactions x = some t → t.state = .committed → t.hasWrites = true →
      ∃ t', m.transactions x = some t' ∧ t'.state = .committed ∧ t'.hasWrites = true) : OutcomeInv m' none entries where
  manager := TransactionManager.inv_stepped h.manager hs
  found e he := by cases he
  logged e he := by cases he
  commits e he hr := h.extends_stepped hs _ _ (h.commits e he hr)
  aborts e he hr := h.extends_stepped hs _ _ (h.aborts e he hr)
  committed x t ht hc hwr := by
    obtain ⟨t', ht', hc', hw'⟩ := hw x t ht hc hwr
    exact h.committed x t' ht' hc' hw'

theorem committed_of_put {t t' : Transaction} {x : Nat} (hs : t'.state ≠ .committed)
    (ht : (m.put t').transactions x = some t) (hc : t.state = .committed) : m.transactions x = some t := by
  simp only [TransactionManager.put, Function.update_apply] at ht
  split at ht
  · cases ht; exact absurd hc hs
  · exact ht

theorem committed_of_step {c : TransactionManager.Call}
    (hnc : (∀ x, c ≠ .commit x) ∧ ∀ x, c ≠ .abort x) {x : Nat} {t : Transaction}
    (ht : (m.step c).transactions x = some t) (hc : t.state = .committed) : m.transactions x = some t := by
  unfold TransactionManager.step at ht
  split at ht
  · rename_i m' hm
    cases c with
    | begin i => cases hm; exact committed_of_put (by simp) ht hc
    | statementSnapshot y =>
      obtain ⟨⟨m₁, sn⟩, hs, he⟩ := bind_eq_ok.1 hm
      cases he
      obtain ⟨t₀, -, ho, ⟨-, -, rfl⟩ | ⟨-, -, -, rfl⟩ | ⟨-, -, rfl⟩⟩ := TransactionManager.statementSnapshot_eq_ok hs
      · exact ht
      · exact committed_of_put (by simp [ho]) ht hc
      · exact ht
    | markFailed y =>
      obtain ⟨t₀, -, -, rfl⟩ := TransactionManager.markFailed_eq_ok hm
      exact committed_of_put (by simp) ht hc
    | commit y => exact absurd rfl (hnc.1 y)
    | abort y => exact absurd rfl (hnc.2 y)
  · exact ht

theorem managerStep (h : OutcomeInv m none entries) {c : TransactionManager.Call}
    (hc : (∀ x, c ≠ .commit x) ∧ ∀ x, c ≠ .abort x) : OutcomeInv (m.step c) none entries :=
  h.managed (TransactionManager.step_stepped _ c) (fun _ t ht hst hw => ⟨t, committed_of_step hc ht hst, hst, hw⟩)

theorem firstWrite (h : OutcomeInv m ending entries) {x : Nat} {t : Transaction} (ht : m.transactions x = some t)
    (ho : t.state = .active) : OutcomeInv (m.put { t with hasWrites := true }) ending entries := by
  have hs : TransactionManager.Stepped m (m.put { t with hasWrites := true }) :=
    .edited x t _ ht rfl ho (Or.inl ho) (Or.inl rfl)
  have hx := (h.manager.object x t ht).1
  refine ⟨TransactionManager.inv_stepped h.manager hs, fun e he => ?_, h.logged, h.commits, h.aborts,
    fun y u hu hc hw => ?_⟩
  · obtain ⟨u, hu, hou⟩ := h.found e he
    simp only [TransactionManager.put, Function.update_apply, hx]
    split
    · exact ⟨_, rfl, Or.inl ho⟩
    · exact ⟨u, hu, hou⟩
  · exact h.committed y u (committed_of_put (by simp [ho]) hu hc) hc hw

theorem undecided (h : OutcomeInv m none entries) {x : Nat} {t : Transaction} (ht : m.transactions x = some t)
    (ho : TransactionManager.isOpen t) : m.statuses x = none :=
  h.manager.undecided x ((h.manager.active x).2 ⟨t, ht, ho⟩)

theorem extends_ending (h : OutcomeInv m none entries) {x : Nat} {t : Transaction} (ht : m.transactions x = some t)
    (ho : TransactionManager.isOpen t) (status : TransactionStatus) (flushed : Bool) :
    Extends (decided m none) (decided m (some ⟨x, status, flushed⟩)) := by
  intro y st hy
  simp only [decided] at hy ⊢
  split
  · rename_i hyx; rw [hyx, h.undecided ht ho] at hy; cases hy
  · exact hy

/-- The record of an outcome: from here on it is decided. -/
theorem outcomeLogged (h : OutcomeInv m none entries) {x : Nat} {t : Transaction} (ht : m.transactions x = some t)
    (ho : TransactionManager.isOpen t) {status : TransactionStatus} {e : WalEntry} (hx : e.xid = x)
    (hr : (status = .committed ∧ e.record = .commit) ∨ (status = .aborted ∧ e.record = .abort)) :
    OutcomeInv m (some ⟨x, status, false⟩) (entries ++ [e]) := by
  have hext := h.extends_ending ht ho status false
  have hdec : decided m (some ⟨x, status, false⟩) x = some status := by simp [decided]
  refine ⟨h.manager, fun f hf => ?_, fun f hf hc => ?_, fun f hf hc => ?_, fun f hf ha => ?_, fun y u hu hc hw => ?_⟩
  · cases hf; exact ⟨t, ht, ho⟩
  · cases hf
    refine ⟨e, List.mem_append_right _ (List.mem_singleton.2 rfl), hx, ?_⟩
    rcases hr with ⟨-, hr⟩ | ⟨hs, -⟩
    · exact hr
    · rw [hs] at hc; cases hc
  · rcases List.mem_append.1 hf with hf | hf
    · exact hext _ _ (h.commits f hf hc)
    · rw [List.mem_singleton.1 hf] at hc ⊢
      rcases hr with ⟨hs, -⟩ | ⟨-, hr⟩
      · rw [hx, hdec, hs]
      · rw [hr] at hc; cases hc
  · rcases List.mem_append.1 hf with hf | hf
    · exact hext _ _ (h.aborts f hf ha)
    · rw [List.mem_singleton.1 hf] at ha ⊢
      rcases hr with ⟨-, hr⟩ | ⟨hs, -⟩
      · rw [hr] at ha; cases ha
      · rw [hx, hdec, hs]
  · obtain ⟨f, hf, hfr⟩ := h.committed y u hu hc hw
    exact ⟨f, List.mem_append_left _ hf, hfr⟩

theorem outcomeFlushed {e : Ending} (h : OutcomeInv m (some e) entries) :
    OutcomeInv m (some { e with flushed := true }) entries where
  manager := h.manager
  found f hf := by cases hf; exact h.found e rfl
  logged f hf := by cases hf; exact h.logged e rfl
  commits := h.commits
  aborts := h.aborts
  committed := h.committed

theorem decided_finished {e : Ending} (h : OutcomeInv m (some e) entries) {t : Transaction}
    (ht : m.transactions e.xid = some t) (state : TransactionState) :
    decided (m.ended { t with state := state } e.status) none = decided m (some e) := by
  funext y
  simp only [decided, TransactionManager.ended, Function.update_apply, (h.manager.object e.xid t ht).1]

/-- The status that ends `commit` and `abort`: what was decided is recorded. -/
theorem finished {e : Ending} (h : OutcomeInv m (some e) entries) {t : Transaction}
    (ht : m.transactions e.xid = some t) {state : TransactionState}
    (hs : TransactionManager.Stepped m (m.ended { t with state := state } e.status))
    (hst : state = .committed → e.status = .committed) :
    OutcomeInv (m.ended { t with state := state } e.status) none entries := by
  have hdec := h.decided_finished ht state
  refine ⟨TransactionManager.inv_stepped h.manager hs, fun f hf => (by cases hf), fun f hf => (by cases hf),
    by rw [hdec]; exact h.commits, by rw [hdec]; exact h.aborts, fun y u hu hc hw => ?_⟩
  simp only [TransactionManager.ended, TransactionManager.put, Function.update_apply,
    (h.manager.object e.xid t ht).1] at hu
  split at hu
  · rename_i hy
    cases hu
    rw [hy]
    exact h.logged e rfl (hst hc)
  · exact h.committed y u hu hc hw

theorem endedPlain (h : OutcomeInv m none entries) {t : Transaction} (hw : t.hasWrites = false)
    {state : TransactionState} {status : TransactionStatus}
    (hs : TransactionManager.Stepped m (m.ended { t with state := state } status)) :
    OutcomeInv (m.ended { t with state := state } status) none entries := by
  refine h.managed hs (fun y u hu hc hwu => ?_)
  simp only [TransactionManager.ended, TransactionManager.put, Function.update_apply] at hu
  split at hu
  · cases hu
    simp only [hw] at hwu
    cases hwu
  · exact ⟨u, hu, hc, hwu⟩

/-- The map that `Database.checkpoint` builds holds decided outcomes only. -/
theorem statusMap_agrees (h : OutcomeInv m ending entries) (active : List Nat) :
    Agrees (decided m ending) (statusMap m active) := by
  intro x hx
  have hst := statusMap_recorded hx
  cases ending with
  | none => exact hst
  | some e =>
    simp only [decided]
    split
    · -- the transaction that is ending has no status yet
      rename_i hxe
      obtain ⟨t, ht, ho⟩ := h.found e rfl
      have hnone := h.manager.undecided e.xid ((h.manager.active e.xid).2 ⟨t, ht, ho⟩)
      rw [hxe, hnone] at hst
      cases hst
    · exact hst

end OutcomeInv
/-! ## Transactions with writes -/

def HasWrites (m : TransactionManager) (x : Nat) : Prop := ∃ t, m.transactions x = some t ∧ t.hasWrites = true

section Writers

variable {m : TransactionManager}

theorem hasWrites_put (hi : TransactionManager.Inv m) {x : Nat} {t t' : Transaction} (ht : m.transactions x = some t)
    (hx : t'.xid = t.xid) (hw : t'.hasWrites = t.hasWrites) (y : Nat) : HasWrites (m.put t') y ↔ HasWrites m y := by
  have hxid := (hi.object x t ht).1
  unfold HasWrites TransactionManager.put
  simp only [Function.update_apply, hx, hxid]
  split
  · rename_i hy
    subst hy
    rw [ht]
    simp [hw]
  · rfl

theorem hasWrites_ended (hi : TransactionManager.Inv m) {x : Nat} {t t' : Transaction} (ht : m.transactions x = some t)
    (hx : t'.xid = t.xid) (hw : t'.hasWrites = t.hasWrites) (status : TransactionStatus) (y : Nat) :
    HasWrites (m.ended t' status) y ↔ HasWrites m y := hasWrites_put hi ht hx hw y

theorem step_plain_call (hi : TransactionManager.Inv m) {c : TransactionManager.Call}
    (hc : (∀ x, c ≠ .commit x) ∧ ∀ x, c ≠ .abort x) :
    (m.step c).statuses = m.statuses ∧ ∀ y, HasWrites (m.step c) y ↔ HasWrites m y := by
  unfold TransactionManager.step
  split
  · rename_i m' hm
    cases c with
    | begin i =>
      cases hm
      refine ⟨rfl, fun y => ?_⟩
      unfold HasWrites TransactionManager.begin TransactionManager.put
      simp only [Function.update_apply]
      split
      · rename_i hy
        subst hy
        refine ⟨fun ⟨t, ht, hw⟩ => ?_, fun ⟨t, ht, hw⟩ => ?_⟩
        · cases ht; cases hw
        · exact absurd (hi.object _ t ht).2.2 (Nat.lt_irrefl _)
      · rfl
    | statementSnapshot x =>
      obtain ⟨⟨m₁, sn⟩, hs, he⟩ := bind_eq_ok.1 hm
      cases he
      obtain ⟨t, ht, -, ⟨-, -, rfl⟩ | ⟨-, -, -, rfl⟩ | ⟨-, -, rfl⟩⟩ := TransactionManager.statementSnapshot_eq_ok hs
      · exact ⟨rfl, fun _ => Iff.rfl⟩
      · refine ⟨rfl, fun y => ?_⟩
        exact hasWrites_put hi ht (by rfl) (by rfl) y
      · exact ⟨rfl, fun _ => Iff.rfl⟩
    | markFailed x =>
      obtain ⟨t, ht, -, rfl⟩ := TransactionManager.markFailed_eq_ok hm
      refine ⟨rfl, fun y => ?_⟩
      exact hasWrites_put hi ht (by rfl) (by rfl) y
    | commit x => exact absurd rfl (hc.1 x)
    | abort x => exact absurd rfl (hc.2 x)
  · exact ⟨rfl, fun _ => Iff.rfl⟩

end Writers

end MiniPostgres
