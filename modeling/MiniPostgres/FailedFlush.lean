import MiniPostgres.Checkpoint
/-!
# FailedFlush — commits and aborts whose flush raises

`commit` and `abort` append and flush their record before they look at the state of the transaction: a flush that raises leaves
it open with the record in the log, and a transaction that has ended is announced again before `mark_committed` or `mark_aborted`
raises.  What ends a transaction later must agree with the records before.  The machine is the one of `Checkpoint.lean` with
flushes that raise, and with these calls on any transaction; `Database.close` is an `abort` of each transaction that was active
and a checkpoint.
-/
namespace MiniPostgres

def WalRecord.outcome : WalRecord → Option TransactionStatus
  | .commit => some .committed
  | .abort  => some .aborted
  | _       => none

/-- The log has a record of this outcome for the transaction. -/
def Announced (entries : List WalEntry) (x : Nat) (status : TransactionStatus) : Prop :=
  ∃ e ∈ entries, e.xid = x ∧ e.record.outcome = some status

instance (entries : List WalEntry) (x : Nat) (status : TransactionStatus) : Decidable (Announced entries x status) :=
  inferInstanceAs (Decidable (∃ e ∈ entries, _))

theorem announced_append {entries : List WalEntry} {e : WalEntry} {x : Nat} {status : TransactionStatus} :
    Announced (entries ++ [e]) x status ↔ Announced entries x status ∨ e.xid = x ∧ e.record.outcome = some status := by
  simp [Announced, or_and_right, exists_or]

/-! ## Calls -/

inductive FlushCall
  | call (c : CheckpointCall)
  /-- The `fsync` of a `commit` or an `abort` raises: its lock is released, its transaction is as before. -/
  | outcomeFlushRaises
  /-- An `fsync` of the checkpoint raises. -/
  | checkpointFlushRaises

namespace CheckpointState

/-- A call that logs nothing: the manager it leaves, if it returns. -/
def settle (s : CheckpointState) (plain : Result TransactionManager) : CheckpointState :=
  match plain with
  | .ok m    => { s with manager := m }
  | .error _ => s

/-- `mark_failed` takes the lock of its transaction only, a publication looks at no state, and `commit` and `abort` log and flush
before they do. -/
def flushStep (s : CheckpointState) : FlushCall → CheckpointState
  | .call (.markFailed x) => { s with manager := s.manager.step (.markFailed x) }
  | .call (.firstWrite x) =>
    match s.manager.transactions x with
    | some t =>
      if t.hasWrites then s
      else { s with storage := s.storage.append x .begin, manager := s.manager.put { t with hasWrites := true } }
    | none => s
  | .call (.logImage x key page pageLsn) =>
    match s.manager.transactions x with
    | some t =>
      if t.hasWrites = true ∧ pageLsn ≤ s.storage.wal.endLsn then
        let s' := { s with storage := s.storage.append x (.heapPageImages [(key, ⟨pageLsn, page⟩)]) }
        if s.storage.wal.endLsn = pageLsn then { s' with pending := (key, ⟨pageLsn, page⟩) :: s.pending }
        else s'
      else s
    | none => s
  | .call (.commit x) =>
    match s.manager.transactions x, s.ending with
    | some t, none => s.endTransaction t .committed .commit (s.manager.commit x)
    | _, _         => s
  | .call (.abort x) =>
    match s.manager.transactions x, s.ending with
    | some t, none =>
      if t.state = .aborted then s.settle (s.manager.abort x)
      else s.endTransaction t .aborted .abort (s.manager.abort x)
    | _, _ => s
  | .call .finish =>
    match s.ending with
    | some ⟨x, .committed, true⟩ => { s with ending := none }.settle (s.manager.commit x)
    | some ⟨x, .aborted, true⟩   => { s with ending := none }.settle (s.manager.abort x)
    | _                          => s
  | .call c => s.step c
  | .outcomeFlushRaises =>
    match s.ending with
    | some ⟨_, _, false⟩ => { s with ending := none }
    | _                  => s
  | .checkpointFlushRaises =>
    match s.ckpt.stage with
    | .called | .logFlushed | .framesFlushed | .recorded => s.setStage .idle
    | _ => s

def flushRun (s : CheckpointState) (calls : List FlushCall) : CheckpointState := calls.foldl flushStep s

/-- No other transaction is being ended, and this one has writes: `commit` appends a record, and so does `abort` unless it has
aborted. -/
def Logs (s : CheckpointState) (x : Nat) (but : TransactionState → Prop) : Prop :=
  s.ending.isNone ∧ ∃ t ∈ s.manager.transactions x, t.hasWrites = true ∧ ¬ but t.state

/-- `commit` finds no ABORT record of its transaction in the log, `abort` no COMMIT record. -/
def Agreeing (s : CheckpointState) : FlushCall → Prop
  | .call (.commit x) => s.Logs x (fun _ => False) → ¬ Announced s.storage.wal.entries x .aborted
  | .call (.abort x)  => s.Logs x (· = .aborted) → ¬ Announced s.storage.wal.entries x .committed
  | _                 => True

/-- Along the run, every `commit` and `abort` agrees with what an earlier one has left in the log. -/
def Consistent : CheckpointState → List FlushCall → Prop
  | _, []         => True
  | s, c :: calls => s.Agreeing c ∧ Consistent (s.flushStep c) calls

/-- A transaction that has ended makes no first write. -/
def Opening (s : CheckpointState) : FlushCall → Prop
  | .call (.firstWrite x) => ∀ t ∈ s.manager.transactions x, TransactionManager.isOpen t
  | _                     => True

/-- Along the run, only open transactions begin to write. -/
def WritersOpen : CheckpointState → List FlushCall → Prop
  | _, []         => True
  | s, c :: calls => s.Opening c ∧ WritersOpen (s.flushStep c) calls

end CheckpointState

/-! ## The outcomes of a log -/

/-- **The log and the manager agree on `d`**: every recorded status and every announced outcome is in it, and nothing else; and a
transaction with writes has no status that is not announced. -/
structure OutcomesAre (m : TransactionManager) (ending : Option Ending) (entries : List WalEntry)
    (d : Nat → Option TransactionStatus) : Prop where
  manager   : TransactionManager.Inv m
  found     : ∀ e, ending = some e → Announced entries e.xid e.status
  recorded  : Extends m.statuses d
  known     : ∀ x st, d x = some st → m.statuses x = some st ∨ Announced entries x st
  announced : ∀ x st, Announced entries x st → d x = some st
  writers   : ∀ x st, Announced entries x st → HasWrites m x
  ended     : ∀ x st, HasWrites m x → m.statuses x = some st → Announced entries x st

theorem TransactionManager.inv_put_hasWrites {m : TransactionManager} (h : TransactionManager.Inv m) {t : Transaction}
    (ht : m.transactions t.xid = some t) : TransactionManager.Inv (m.put { t with hasWrites := true }) := by
  -- every field of the other transactions, and every field but this one of `t`
  have hput : ∀ x u, (m.put { t with hasWrites := true }).transactions x = some u → ∃ u', m.transactions x = some u' ∧
      u.xid = u'.xid ∧ u.state = u'.state ∧ u.repeatableSnapshot = u'.repeatableSnapshot := by
    intro x u hu
    simp only [TransactionManager.put, Function.update_apply] at hu
    split at hu
    · rename_i hx
      cases hu
      exact ⟨t, hx ▸ ht, rfl, rfl, rfl⟩
    · exact ⟨u, hu, rfl, rfl, rfl⟩
  refine ⟨h.two_le, h.known, fun x u hu => ?_, fun x => ?_, h.undecided, fun x u hu hs => ?_,
    fun x u hu hs => ?_, fun x u s hu hs => ?_⟩
  · obtain ⟨u', hu', hx, -, -⟩ := hput x u hu
    rw [hx]
    exact h.object x u' hu'
  · refine (h.active x).trans ?_
    constructor
    · rintro ⟨u, hu, ho⟩
      simp only [TransactionManager.put, Function.update_apply]
      split
      · rename_i hx
        rw [hx, ht] at hu
        cases hu
        exact ⟨_, rfl, ho⟩
      · exact ⟨u, hu, ho⟩
    · rintro ⟨u, hu, ho⟩
      obtain ⟨u', hu', -, hst, -⟩ := hput x u hu
      refine ⟨u', hu', ?_⟩
      unfold TransactionManager.isOpen at ho ⊢
      rwa [← hst]
  · obtain ⟨u', hu', -, hst, -⟩ := hput x u hu
    exact h.aborted x u' hu' (hst ▸ hs)
  · obtain ⟨u', hu', -, hst, -⟩ := hput x u hu
    exact h.committed x u' hu' (hst ▸ hs)
  · obtain ⟨u', hu', -, -, hsn⟩ := hput x u hu
    exact h.retained x u' s hu' (hsn ▸ hs)

namespace OutcomesAre

variable {m : TransactionManager} {ending : Option Ending} {entries : List WalEntry} {d : Nat → Option TransactionStatus}

theorem start (r : Recovered) : OutcomesAre (TransactionManager.start r) none [] r.statuses where
  manager := TransactionManager.inv_start r
  found e h := by cases h
  recorded x st h := h
  known x st h := Or.inl h
  announced x st h := by obtain ⟨e, he, -⟩ := h; cases he
  writers x st h := by obtain ⟨e, he, -⟩ := h; cases he
  ended x st h := by obtain ⟨t, ht, -⟩ := h; cases ht

theorem logs (h : OutcomesAre m ending entries d) {e : WalEntry} (he : e.record.outcome = none) :
    OutcomesAre m ending (entries ++ [e]) d := by
  have hann : ∀ x st, Announced (entries ++ [e]) x st ↔ Announced entries x st := by
    simp [announced_append, he]
  exact ⟨h.manager, fun f hf => (hann _ _).2 (h.found f hf), h.recorded, fun x st hx => (h.known x st hx).imp id (hann x st).2,
    fun x st hx => h.announced x st ((hann x st).1 hx), fun x st hx => h.writers x st ((hann x st).1 hx),
    fun x st hw hx => (hann x st).2 (h.ended x st hw hx)⟩

/-- The outcome of a transaction with writes is announced, and what was announced before is the same. -/
theorem outcomeLogged (h : OutcomesAre m none entries d) {x : Nat} (hw : HasWrites m x) {status : TransactionStatus}
    {e : WalEntry} (hx : e.xid = x) (he : e.record.outcome = some status) (hd : ∀ st, Announced entries x st → st = status) :
    OutcomesAre m (some ⟨x, status, false⟩) (entries ++ [e]) (Function.update d x (some status)) ∧
      Extends d (Function.update d x (some status)) := by
  have hext : Extends d (Function.update d x (some status)) := by
    intro y st hy
    rw [Function.update_apply]
    split
    · rename_i hyx
      rw [hyx] at hy
      rcases h.known x st hy with hy | hy
      · rw [hd st (h.ended x st hw hy)]
      · rw [hd st hy]
    · exact hy
  refine ⟨⟨h.manager, fun f hf => ?_, fun y st hy => hext y st (h.recorded y st hy), fun y st hy => ?_, fun y st hy => ?_,
    fun y st hy => ?_, fun y st hwy hy => announced_append.2 (Or.inl (h.ended y st hwy hy))⟩, hext⟩
  · cases hf
    exact announced_append.2 (Or.inr ⟨hx, he⟩)
  · rw [Function.update_apply] at hy
    split at hy
    · rename_i hyx
      cases hy
      exact Or.inr (announced_append.2 (Or.inr ⟨hx.trans hyx.symm, he⟩))
    · exact (h.known y st hy).imp id (fun ha => announced_append.2 (Or.inl ha))
  · rcases announced_append.1 hy with hy | ⟨hey, hst⟩
    · exact hext y st (h.announced y st hy)
    · rw [he] at hst
      cases hst
      rw [← hey, hx, Function.update_self]
  · rcases announced_append.1 hy with hy | ⟨hey, -⟩
    · exact h.writers y st hy
    · rw [← hey, hx]
      exact hw

theorem released (h : OutcomesAre m ending entries d) {ending' : Option Ending}
    (he : ∀ f, ending' = some f → ∃ e, ending = some e ∧ f.xid = e.xid ∧ f.status = e.status) :
    OutcomesAre m ending' entries d := by
  refine ⟨h.manager, fun f hf => ?_, h.recorded, h.known, h.announced, h.writers, h.ended⟩
  obtain ⟨e, hending, hx, hst⟩ := he f hf
  rw [hx, hst]
  exact h.found e hending

theorem unending (h : OutcomesAre m ending entries d) : OutcomesAre m none entries d := h.released (fun f hf => by cases hf)

/-- A new manager with the same transactions with writes and, at most, outcomes of `d` more, which are announced for these. -/
theorem managed (h : OutcomesAre m ending entries d) {m' : TransactionManager} (hm : TransactionManager.Inv m')
    (hk : ∀ x st, m.statuses x = some st → m'.statuses x = some st) (hw : ∀ x, HasWrites m' x ↔ HasWrites m x)
    (hd : ∀ x st, m'.statuses x = some st → m.statuses x = some st ∨ (d x = some st ∧ (HasWrites m x → Announced entries x st))) :
    OutcomesAre m' ending entries d where
  manager := hm
  found := h.found
  recorded x st hx := (hd x st hx).elim (h.recorded x st) And.left
  known x st hx := (h.known x st hx).imp (hk x st) id
  announced := h.announced
  writers x st hx := (hw x).2 (h.writers x st hx)
  ended x st hwx hx := (hd x st hx).elim (h.ended x st ((hw x).1 hwx)) (fun hst => hst.2 ((hw x).1 hwx))

theorem managerStep (h : OutcomesAre m ending entries d) {c : TransactionManager.Call}
    (hnc : (∀ x, c ≠ .commit x) ∧ ∀ x, c ≠ .abort x) : OutcomesAre (m.step c) ending entries d := by
  obtain ⟨hst, hw⟩ := step_plain_call h.manager hnc
  exact h.managed (TransactionManager.inv_stepped h.manager (TransactionManager.step_stepped m c))
    (fun x st hx => by rw [hst]; exact hx) hw
    (fun x st hx => Or.inl (by rw [← hst]; exact hx))

theorem firstWrite (h : OutcomesAre m ending entries d) {x : Nat} {t : Transaction} (ht : m.transactions x = some t)
    (ho : TransactionManager.isOpen t) : OutcomesAre (m.put { t with hasWrites := true }) ending entries d := by
  obtain ⟨rfl, -⟩ := h.manager.object x t ht
  have hgrows : ∀ y, HasWrites m y → HasWrites (m.put { t with hasWrites := true }) y := by
    intro y hy
    unfold HasWrites TransactionManager.put
    simp only [Function.update_apply]
    split
    · exact ⟨_, rfl, rfl⟩
    · exact hy
  refine ⟨TransactionManager.inv_put_hasWrites h.manager ht, h.found, h.recorded, h.known, h.announced,
    fun y st hy => hgrows y (h.writers y st hy),
    fun y st hy hst => ?_⟩
  obtain ⟨u, hu, huw⟩ := hy
  simp only [TransactionManager.put, Function.update_apply] at hu hst
  split at hu
  · rename_i hyx
    rw [hyx, h.manager.undecided t.xid ((h.manager.active t.xid).2 ⟨t, ht, ho⟩)] at hst
    cases hst
  · exact h.ended y st ⟨u, hu, huw⟩ hst

theorem finished (h : OutcomesAre m ending entries d) {t : Transaction} (ht : m.transactions t.xid = some t)
    {state : TransactionState} {status : TransactionStatus} (hd : d t.xid = some status)
    (ha : HasWrites m t.xid → Announced entries t.xid status)
    (hs : TransactionManager.Stepped m (m.ended { t with state := state } status)) :
    OutcomesAre (m.ended { t with state := state } status) ending entries d := by
  refine h.managed (TransactionManager.inv_stepped h.manager hs)
    (fun x st hx => by rw [TransactionManager.status_later h.manager (by rw [hx]; simp) (.single hs), hx])
    (hasWrites_ended h.manager ht (by rfl) (by rfl) status) (fun x st hx => ?_)
  simp only [TransactionManager.ended, Function.update_apply] at hx
  split at hx
  · rename_i hxt
    cases hx
    rw [hxt]
    exact Or.inr ⟨hd, ha⟩
  · exact Or.inl hx

theorem endedPlain (h : OutcomesAre m ending entries d) {t : Transaction} (ht : m.transactions t.xid = some t)
    (ho : TransactionManager.isOpen t) (hw : t.hasWrites = false) {state : TransactionState} {status : TransactionStatus}
    (hs : TransactionManager.Stepped m (m.ended { t with state := state } status)) :
    ∃ d', OutcomesAre (m.ended { t with state := state } status) ending entries d' ∧ Extends d d' := by
  have hplain : ¬HasWrites m t.xid := by
    rintro ⟨u, hu, huw⟩
    rw [ht] at hu
    cases hu
    rw [hw] at huw
    cases huw
  have hnone : d t.xid = none := by
    cases hd : d t.xid with
    | none => rfl
    | some st =>
      rcases h.known _ st hd with hm | ha
      · rw [h.manager.undecided _ ((h.manager.active _).2 ⟨t, ht, ho⟩)] at hm
        cases hm
      · exact absurd (h.writers _ st ha) hplain
  have hext : Extends d (Function.update d t.xid (some status)) := by
    intro y st hy
    rw [Function.update_of_ne]
    · exact hy
    · intro hyx
      rw [hyx, hnone] at hy
      cases hy
  have hwrites : ∀ y, HasWrites (m.ended { t with state := state } status) y ↔ HasWrites m y :=
    hasWrites_ended h.manager ht (by rfl) (by rfl) status
  refine ⟨_, ⟨TransactionManager.inv_stepped h.manager hs, h.found, fun y st hy => ?_, fun y st hy => ?_,
    fun y st hy => hext y st (h.announced y st hy), fun y st hy => (hwrites y).2 (h.writers y st hy),
      fun y st hy hst => ?_⟩, hext⟩
  · simp only [TransactionManager.ended, Function.update_apply] at hy ⊢
    split
    · rename_i hyx; rw [if_pos hyx] at hy; exact hy
    · rename_i hyx; rw [if_neg hyx] at hy; exact h.recorded y st hy
  · simp only [TransactionManager.ended, Function.update_apply] at hy ⊢
    split
    · rename_i hyx; rw [if_pos hyx] at hy; exact Or.inl hy
    · rename_i hyx; rw [if_neg hyx] at hy; exact h.known y st hy
  · have hyw := (hwrites y).1 hy
    simp only [TransactionManager.ended, Function.update_apply] at hst
    split at hst
    · rename_i hyx
      rw [hyx] at hyw
      exact absurd hyw hplain
    · exact h.ended y st hyw hst

theorem abortedAgain (h : OutcomesAre m ending entries d) {t : Transaction} (ht : m.transactions t.xid = some t)
    (ha : t.state = .aborted) : OutcomesAre (m.ended { t with state := .aborted } .aborted) ending entries d := by
  have hst := h.manager.aborted _ t ht ha
  exact h.finished ht (h.recorded _ _ hst) (fun hw => h.ended _ _ hw hst)
    (.aborted t.xid t ht (by rw [ha]; decide))

theorem statusMap_agrees (h : OutcomesAre m ending entries d) (active : List Nat) : Agrees d (statusMap m active) :=
  fun x hx => h.recorded x _ (statusMap_recorded hx)

end OutcomesAre

/-! ## Steps and runs -/

namespace CheckpointState

/-- The log, the control file and the checkpoint in progress hold the outcomes of `d`. -/
structure Decides (s : CheckpointState) (d : Nat → Option TransactionStatus) : Prop where
  outcomes : OutcomesAre s.manager s.ending s.storage.wal.entries d
  stored   : Agrees d s.control.statuses
  captured : Agrees d s.ckpt.statuses

theorem decides_start : Decides start StatusTable.empty :=
  ⟨.start .new, fun _ h => absurd rfl h, fun _ h => absurd rfl h⟩

/-- The manager, the log or what is ending changes; `d` grows. -/
theorem Decides.moved {s s' : CheckpointState} {d d' : Nat → Option TransactionStatus} (h : Decides s d)
    (ho : OutcomesAre s'.manager s'.ending s'.storage.wal.entries d') (hd : Extends d d') (hc : s'.control = s.control)
    (hk : s'.ckpt = s.ckpt) : Decides s' d' :=
  ⟨ho, by rw [hc]; exact h.stored.mono hd, by rw [hk]; exact h.captured.mono hd⟩

theorem Decides.pooled {s : CheckpointState} {d : Nat → Option TransactionStatus} (h : Decides s d) (storage : Storage)
    (he : storage.wal.entries = s.storage.wal.entries) (pending : List (PageKey × Image)) :
    Decides { s with storage := storage, pending := pending } d :=
  ⟨by simp only [he]; exact h.outcomes, h.stored, h.captured⟩

theorem Decides.managerStep {s : CheckpointState} {d : Nat → Option TransactionStatus} (h : Decides s d)
    (c : TransactionManager.Call) (hc : (∀ x, c ≠ .commit x) ∧ ∀ x, c ≠ .abort x) :
    Decides { s with manager := s.manager.step c } d ∧ Decides (s.managerStep c) d := by
  have hstep : Decides { s with manager := s.manager.step c } d :=
    h.moved (h.outcomes.managerStep hc) (fun _ _ hd => hd) rfl rfl
  refine ⟨hstep, ?_⟩
  unfold CheckpointState.managerStep
  split
  · exact h
  · exact hstep

theorem Decides.settled {s : CheckpointState} {d : Nat → Option TransactionStatus} (h : Decides s d) {x : Nat} {t : Transaction}
    (ht : s.manager.transactions x = some t) (hw : t.hasWrites = false ∨ t.state = .aborted) {plain : Result TransactionManager}
    (hp : plain = s.manager.commit x ∨ plain = s.manager.abort x) : ∃ d', Decides (s.settle plain) d' := by
  obtain ⟨rfl, -⟩ := h.outcomes.manager.object x t ht
  unfold CheckpointState.settle
  split
  · rename_i m
    have hplain : ∃ d', OutcomesAre m s.ending s.storage.wal.entries d' ∧ Extends d d' := by
      rcases hp with hm | hm
      · obtain ⟨t', ht', ho', rfl⟩ := TransactionManager.commit_eq_ok hm.symm
        rw [ht] at ht'
        cases ht'
        refine h.outcomes.endedPlain ht (Or.inl ho') (hw.resolve_right (by rw [ho']; decide)) (.committed _ t ht ho')
      · obtain ⟨t', ht', ho', rfl⟩ := TransactionManager.abort_eq_ok hm.symm
        rw [ht] at ht'
        cases ht'
        by_cases ha : t.state = .aborted
        · exact ⟨d, h.outcomes.abortedAgain ht ha, fun _ _ hd => hd⟩
        · refine h.outcomes.endedPlain ht ?_ (hw.resolve_right ha) (.aborted _ t ht ho')
          unfold TransactionManager.isOpen
          cases hst : t.state <;> simp_all
    obtain ⟨d', hm', hext⟩ := hplain
    exact ⟨d', h.moved hm' hext rfl rfl⟩
  · exact ⟨d, h⟩

theorem Decides.endTransaction {s : CheckpointState} {d : Nat → Option TransactionStatus} (h : Decides s d)
    (hn : s.ending = none) {x : Nat} {t : Transaction} (ht : s.manager.transactions x = some t)
    {status : TransactionStatus} {r : WalRecord} {plain : Result TransactionManager} (hr : r.outcome = some status)
    (hp : plain = s.manager.commit x ∨ plain = s.manager.abort x)
    (ha : t.hasWrites = true → ∀ st, Announced s.storage.wal.entries x st → st = status) :
    ∃ d', Decides (s.endTransaction t status r plain) d' := by
  have hout := h.outcomes
  rw [hn] at hout
  obtain ⟨rfl, -⟩ := hout.manager.object x t ht
  unfold CheckpointState.endTransaction
  split
  · rename_i hw
    obtain ⟨hl, hext⟩ := hout.outcomeLogged ⟨t, ht, hw⟩ (e := ⟨s.storage.wal.endLsn, t.xid, r⟩) rfl hr (ha hw)
    exact ⟨_, h.moved hl hext rfl rfl⟩
  · rename_i hw
    exact h.settled ht (Or.inl (by simpa using hw)) hp

theorem Decides.checkpointStep {s : CheckpointState} {d : Nat → Option TransactionStatus} (h : Decides s d) :
    Decides s.checkpointStep d := by
  unfold CheckpointState.checkpointStep
  split
  · split
    · exact h
    · exact ⟨h.outcomes, h.stored, h.captured⟩
  · exact ⟨h.outcomes, h.stored, h.outcomes.statusMap_agrees _⟩
  · split
    · exact h
    · exact ⟨h.outcomes, h.stored, h.captured⟩
  · exact ⟨h.outcomes, h.stored, h.captured⟩
  · exact ⟨h.outcomes, h.stored, h.captured⟩
  · exact ⟨h.outcomes, h.stored, h.captured⟩
  · exact ⟨h.outcomes.logs rfl, h.stored, h.captured⟩
  · exact ⟨h.outcomes, h.stored, h.captured⟩
  · exact ⟨h.outcomes, h.captured, h.captured⟩

theorem Decides.finish {s : CheckpointState} {d : Nat → Option TransactionStatus} (h : Decides s d) :
    Decides (s.flushStep (.call .finish)) d := by
  have hnone : Decides { s with ending := none } d := h.moved h.outcomes.unending (fun _ _ hd => hd) rfl rfl
  have hdone : ∀ {x : Nat} {t : Transaction} {status : TransactionStatus} {state : TransactionState} {flushed : Bool},
      s.ending = some ⟨x, status, flushed⟩ → s.manager.transactions x = some t →
      TransactionManager.Stepped s.manager (s.manager.ended { t with state := state } status) →
      OutcomesAre (s.manager.ended { t with state := state } status) none s.storage.wal.entries d := by
    intro x t status state flushed he ht hs
    have ha := h.outcomes.found _ he
    obtain ⟨rfl, -⟩ := h.outcomes.manager.object x t ht
    exact h.outcomes.unending.finished ht (h.outcomes.announced _ _ ha) (fun _ => ha) hs
  simp only [flushStep, settle]
  split
  · rename_i x he
    split
    · rename_i m hm
      obtain ⟨t, ht, hst, rfl⟩ := TransactionManager.commit_eq_ok hm
      exact h.moved (hdone he ht (.committed x t ht hst)) (fun _ _ hd => hd) rfl rfl
    · exact hnone
  · rename_i x he
    split
    · rename_i m hm
      obtain ⟨t, ht, hst, rfl⟩ := TransactionManager.abort_eq_ok hm
      exact h.moved (hdone he ht (.aborted x t ht hst)) (fun _ _ hd => hd) rfl rfl
    · exact hnone
  · exact h

theorem announced_other {st st' : TransactionStatus} {entries : List WalEntry} {x : Nat}
    (hs : st = .committed ∧ st' = .aborted ∨ st = .aborted ∧ st' = .committed) (h : ¬ Announced entries x st') :
    ∀ u, Announced entries x u → u = st := by
  rintro u ⟨e, he, hx, hu⟩
  have hu' : u = .committed ∨ u = .aborted := by
    cases hr : e.record <;> simp [WalRecord.outcome, hr] at hu <;> simp [← hu]
  rcases hs with ⟨rfl, rfl⟩ | ⟨rfl, rfl⟩ <;> rcases hu' with rfl | rfl
  · rfl
  · exact absurd ⟨e, he, hx, hu⟩ h
  · exact absurd ⟨e, he, hx, hu⟩ h
  · rfl

/-- **Every step that agrees with the log keeps one outcome for each transaction.** -/
theorem decides_step {s : CheckpointState} {d : Nat → Option TransactionStatus} (h : Decides s d) (c : FlushCall)
    (ho : s.Opening c) (hc : s.Agreeing c) : ∃ d', Decides (s.flushStep c) d' := by
  cases c with
  | outcomeFlushRaises =>
    simp only [flushStep]
    split
    · exact ⟨d, h.moved h.outcomes.unending (fun _ _ hd => hd) rfl rfl⟩
    · exact ⟨d, h⟩
  | checkpointFlushRaises =>
    simp only [flushStep]
    split <;> exact ⟨d, h.outcomes, h.stored, h.captured⟩
  | call c =>
    cases c with
    | begin i => exact ⟨d, (h.managerStep (.begin i) (by simp)).2⟩
    | statementSnapshot x => exact ⟨d, (h.managerStep (.statementSnapshot x) (by simp)).2⟩
    | markFailed x => exact ⟨d, (h.managerStep (.markFailed x) (by simp)).1⟩
    | firstWrite x =>
      simp only [flushStep]
      split
      · rename_i t ht
        split
        · exact ⟨d, h⟩
        · exact ⟨d, h.moved ((h.outcomes.logs rfl).firstWrite ht (ho t ht)) (fun _ _ hd => hd) rfl rfl⟩
      · exact ⟨d, h⟩
    | logImage x key page pageLsn =>
      simp only [flushStep]
      split
      · split
        · split
          · exact ⟨d, h.moved (h.outcomes.logs rfl) (fun _ _ hd => hd) rfl rfl⟩
          · exact ⟨d, h.moved (h.outcomes.logs rfl) (fun _ _ hd => hd) rfl rfl⟩
        · exact ⟨d, h⟩
      · exact ⟨d, h⟩
    | install key image =>
      simp only [flushStep, step]
      split
      · split
        · rename_i storage hi
          exact ⟨d, h.pooled _ (by rw [Storage.wal_install hi]) _⟩
        · exact ⟨d, h.pooled _ rfl _⟩
      · exact ⟨d, h⟩
    | publishUnlogged key page =>
      simp only [flushStep, step]
      split
      · rename_i storage hi
        exact ⟨d, h.pooled _ (by rw [Storage.wal_install hi]) _⟩
      · exact ⟨d, h⟩
    | allocatePage table => exact ⟨d, h.pooled (s.storage.allocatePage table) rfl s.pending⟩
    | flushFrame key => exact ⟨d, h.pooled _ (Storage.wal_flushFrame s.storage key).1 s.pending⟩
    | evict key =>
      exact ⟨d, h.pooled (s.storage.evict key) (Storage.wal_flushFrame s.storage key).1 s.pending⟩
    | commit x =>
      simp only [flushStep]
      split
      · rename_i t ht hn
        refine h.endTransaction hn ht rfl (Or.inl rfl) (fun hw => announced_other (Or.inl ⟨rfl, rfl⟩) ?_)
        exact hc ⟨by rw [hn]; rfl, t, ht, hw, id⟩
      · exact ⟨d, h⟩
    | abort x =>
      simp only [flushStep]
      split
      · rename_i t ht hn
        split
        · rename_i ha
          exact h.settled ht (Or.inr ha) (Or.inr rfl)
        · rename_i ha
          refine h.endTransaction hn ht rfl (Or.inr rfl) (fun hw => announced_other (Or.inr ⟨rfl, rfl⟩) ?_)
          exact hc ⟨by rw [hn]; rfl, t, ht, hw, ha⟩
      · exact ⟨d, h⟩
    | flushOutcome =>
      simp only [flushStep, step]
      split
      · rename_i e he
        exact ⟨d, h.moved (h.outcomes.released (fun f hf => by cases hf; exact ⟨e, he, rfl, rfl⟩)) (fun _ _ hd => hd) rfl rfl⟩
      · exact ⟨d, h⟩
    | finish => exact ⟨d, h.finish⟩
    | checkpoint => exact ⟨d, h.checkpointStep⟩

theorem decides_run : ∀ (calls : List FlushCall) {s : CheckpointState} {d : Nat → Option TransactionStatus}, Decides s d →
    s.WritersOpen calls → s.Consistent calls → ∃ d', Decides (s.flushRun calls) d'
  | [], _, d, h, _, _ => ⟨d, h⟩
  | c :: calls, _, _, h, ho, hc => by
    obtain ⟨d', h'⟩ := decides_step h c ho.1 hc.1
    exact decides_run calls h' ho.2 hc.2

/-! ## A record that disagrees stays in the log -/

/-- The log has both outcomes of one transaction. -/
def Contradicts (entries : List WalEntry) : Prop := ∃ x, Announced entries x .committed ∧ Announced entries x .aborted

theorem entries_settle (s : CheckpointState) (plain : Result TransactionManager) :
    (s.settle plain).storage.wal.entries = s.storage.wal.entries := by
  unfold settle
  split <;> rfl

theorem entries_endTransaction (s : CheckpointState) (t : Transaction) (status : TransactionStatus) (r : WalRecord)
    (plain : Result TransactionManager) :
    (s.endTransaction t status r plain).storage.wal.entries =
      s.storage.wal.entries ++ (if t.hasWrites then [⟨s.storage.wal.endLsn, t.xid, r⟩] else []) := by
  unfold CheckpointState.endTransaction
  split
  · rfl
  · split <;> exact (List.append_nil _).symm

/-- The log only grows. -/
theorem entries_flushStep (s : CheckpointState) (c : FlushCall) :
    s.storage.wal.entries <+: (s.flushStep c).storage.wal.entries := by
  have happend : ∀ x r, s.storage.wal.entries <+: (s.storage.append x r).wal.entries := fun x r => List.prefix_append _ _
  have hsettle : ∀ plain, s.storage.wal.entries <+: (s.settle plain).storage.wal.entries := fun plain => by
    rw [entries_settle]
  have hend : ∀ t status r plain, s.storage.wal.entries <+: (s.endTransaction t status r plain).storage.wal.entries :=
    fun t status r plain => by
      rw [entries_endTransaction]
      exact List.prefix_append _ _
  cases c with
  | outcomeFlushRaises =>
    simp only [flushStep]
    split <;> exact List.prefix_rfl
  | checkpointFlushRaises =>
    simp only [flushStep]
    split <;> exact List.prefix_rfl
  | call c =>
    simp only [flushStep]
    cases c with
    | begin | statementSnapshot =>
      simp only [step, CheckpointState.managerStep]
      split <;> exact List.prefix_rfl
    | markFailed => exact List.prefix_rfl
    | firstWrite =>
      simp only
      split
      · split
        · exact List.prefix_rfl
        · exact happend _ _
      · exact List.prefix_rfl
    | logImage =>
      simp only
      split
      · split
        · split <;> exact happend _ _
        · exact List.prefix_rfl
      · exact List.prefix_rfl
    | install =>
      simp only [step]
      split
      · split
        · rename_i hi
          exact ⟨[], by rw [List.append_nil, Storage.wal_install hi]⟩
        · exact List.prefix_rfl
      · exact List.prefix_rfl
    | publishUnlogged =>
      simp only [step]
      split
      · rename_i hi
        exact ⟨[], by rw [List.append_nil, Storage.wal_install hi]⟩
      · exact List.prefix_rfl
    | allocatePage => exact List.prefix_rfl
    | flushFrame key => exact ⟨[], by rw [List.append_nil]; exact (Storage.wal_flushFrame s.storage key).1.symm⟩
    | evict key => exact ⟨[], by rw [List.append_nil]; exact (Storage.wal_flushFrame s.storage key).1.symm⟩
    | commit =>
      simp only
      split
      · exact hend _ _ _ _
      · exact List.prefix_rfl
    | abort =>
      simp only
      split
      · split
        · exact hsettle _
        · exact hend _ _ _ _
      · exact List.prefix_rfl
    | flushOutcome =>
      simp only [step]
      split <;> exact List.prefix_rfl
    | finish =>
      simp only
      split
      · rw [entries_settle]
      · rw [entries_settle]
      · exact List.prefix_rfl
    | checkpoint =>
      simp only [step, CheckpointState.checkpointStep]
      split
      all_goals first | exact List.prefix_rfl | exact happend _ _ | (split <;> exact List.prefix_rfl)

theorem contradicts_mono {entries entries' : List WalEntry} (h : Contradicts entries) (hs : entries <+: entries') :
    Contradicts entries' := by
  obtain ⟨x, ⟨e, he, hx, ho⟩, ⟨f, hf, hy, hp⟩⟩ := h
  exact ⟨x, ⟨e, hs.subset he, hx, ho⟩, ⟨f, hs.subset hf, hy, hp⟩⟩

/-- **A step that disagrees leaves both outcomes.** -/
theorem contradicts_step {s : CheckpointState} (hm : TransactionManager.Inv s.manager) {c : FlushCall}
    (hc : ¬ s.Agreeing c) : Contradicts (s.flushStep c).storage.wal.entries := by
  have hlogs : ∀ {x : Nat} {t : Transaction} {status : TransactionStatus} {r : WalRecord} {plain : Result TransactionManager},
      s.manager.transactions x = some t → t.hasWrites = true → r.outcome = some status →
      Announced (s.endTransaction t status r plain).storage.wal.entries x status := by
    intro x t status r plain ht hw hr
    obtain ⟨rfl, -⟩ := hm.object x t ht
    rw [entries_endTransaction, if_pos hw]
    exact announced_append.2 (Or.inr ⟨rfl, hr⟩)
  have hkeeps := entries_flushStep s c
  unfold Agreeing at hc
  split at hc
  · rename_i x
    obtain ⟨⟨hn, t, ht, hw, -⟩, hno⟩ := Classical.not_imp.1 hc
    obtain ⟨e, he, hx, ho⟩ := not_not.1 hno
    refine ⟨x, ?_, e, hkeeps.subset he, hx, ho⟩
    simp only [flushStep, Option.isNone_iff_eq_none.1 hn, Option.mem_def.1 ht]
    exact hlogs ht hw rfl
  · rename_i x
    obtain ⟨⟨hn, t, ht, hw, hst⟩, hno⟩ := Classical.not_imp.1 hc
    obtain ⟨e, he, hx, ho⟩ := not_not.1 hno
    refine ⟨x, ⟨e, hkeeps.subset he, hx, ho⟩, ?_⟩
    simp only [flushStep, Option.isNone_iff_eq_none.1 hn, Option.mem_def.1 ht, if_neg hst]
    exact hlogs ht hw rfl
  · exact absurd trivial hc

theorem entries_flushRun : ∀ (calls : List FlushCall) (s : CheckpointState),
    s.storage.wal.entries <+: (s.flushRun calls).storage.wal.entries
  | [], _         => List.prefix_rfl
  | c :: calls, s => (entries_flushStep s c).trans (entries_flushRun calls (s.flushStep c))

theorem manager_settle {s : CheckpointState} (hm : TransactionManager.Inv s.manager) {x : Nat} {plain : Result TransactionManager}
    (hp : plain = s.manager.commit x ∨ plain = s.manager.abort x) : TransactionManager.Inv (s.settle plain).manager := by
  unfold settle
  split
  · rcases hp with hp | hp
    · obtain ⟨t, ht, hst, rfl⟩ := TransactionManager.commit_eq_ok hp.symm
      exact TransactionManager.inv_stepped hm (.committed x t ht hst)
    · obtain ⟨t, ht, hst, rfl⟩ := TransactionManager.abort_eq_ok hp.symm
      exact TransactionManager.inv_stepped hm (.aborted x t ht hst)
  · exact hm

theorem manager_endTransaction {s : CheckpointState} (hm : TransactionManager.Inv s.manager) {x : Nat}
    {plain : Result TransactionManager}
    (hp : plain = s.manager.commit x ∨ plain = s.manager.abort x) (t : Transaction) (status : TransactionStatus) (r : WalRecord) :
    TransactionManager.Inv (s.endTransaction t status r plain).manager := by
  unfold CheckpointState.endTransaction
  split
  · exact hm
  · exact manager_settle hm hp

theorem manager_flushStep {s : CheckpointState} (hm : TransactionManager.Inv s.manager) (c : FlushCall) :
    TransactionManager.Inv (s.flushStep c).manager := by
  have hstep : ∀ c, TransactionManager.Inv (s.manager.step c) := fun c =>
    TransactionManager.inv_stepped hm (TransactionManager.step_stepped s.manager c)
  have hcalled : ∀ c, TransactionManager.Inv (s.managerStep c).manager := fun c => by
    unfold CheckpointState.managerStep
    split
    · exact hm
    · exact hstep c
  cases c with
  | outcomeFlushRaises => simp only [flushStep]; split <;> exact hm
  | checkpointFlushRaises => simp only [flushStep]; split <;> exact hm
  | call c =>
    simp only [flushStep]
    cases c with
    | begin i => exact hcalled (.begin i)
    | statementSnapshot x => exact hcalled (.statementSnapshot x)
    | markFailed x => exact hstep (.markFailed x)
    | firstWrite x =>
      simp only
      split
      · rename_i t ht
        split
        · exact hm
        · obtain ⟨rfl, -⟩ := hm.object x t ht
          exact TransactionManager.inv_put_hasWrites hm ht
      · exact hm
    | logImage x key page pageLsn =>
      simp only
      split
      · split
        · split <;> exact hm
        · exact hm
      · exact hm
    | install key image => simp only [step]; split <;> (try split) <;> exact hm
    | publishUnlogged key page => simp only [step]; split <;> exact hm
    | allocatePage table => exact hm
    | flushFrame key => exact hm
    | evict key => exact hm
    | commit x =>
      simp only
      split
      · exact manager_endTransaction hm (Or.inl rfl) _ _ _
      · exact hm
    | abort x =>
      simp only
      split
      · split
        · exact manager_settle hm (Or.inr rfl)
        · exact manager_endTransaction hm (Or.inr rfl) _ _ _
      · exact hm
    | flushOutcome => simp only [step]; split <;> exact hm
    | finish =>
      have hnone : TransactionManager.Inv ({ s with ending := none } : CheckpointState).manager := hm
      simp only
      split
      · exact manager_settle hnone (Or.inl rfl)
      · exact manager_settle hnone (Or.inr rfl)
      · exact hm
    | checkpoint =>
      simp only [step, CheckpointState.checkpointStep]
      split <;> (try split) <;> exact hm

theorem contradicts_run : ∀ (calls : List FlushCall) {s : CheckpointState}, TransactionManager.Inv s.manager →
    ¬ s.Consistent calls → Contradicts (s.flushRun calls).storage.wal.entries
  | [], _, _, hc          => absurd trivial hc
  | c :: calls, s, hm, hc => by
    by_cases ha : s.Agreeing c
    · exact contradicts_run calls (manager_flushStep hm c) (fun hrest => hc ⟨ha, hrest⟩)
    · exact contradicts_mono (contradicts_step hm ha) (entries_flushRun calls (s.flushStep c))

/-- The log holds one outcome of each transaction at most, and recovery returns. -/
def Recoverable (s : CheckpointState) : Prop :=
  (∀ x, ¬ ((∃ e ∈ s.storage.wal.entries, e.xid = x ∧ e.record = .commit) ∧
    ∃ e ∈ s.storage.wal.entries, e.xid = x ∧ e.record = .abort)) ∧
  ∃ r, s.recoverFrom s.control.checkpointLsn = .ok r

/-- **A transaction has one outcome in the log, and recovery returns**, in the runs whose writers are open and that end no
transaction against a record in the log; and only in runs that end none against a record. -/
theorem failed_flush_recoverable (calls : List FlushCall) :
    (start.WritersOpen calls ∧ start.Consistent calls → (start.flushRun calls).Recoverable) ∧
      ((start.flushRun calls).Recoverable → start.Consistent calls) := by
  have hout : ∀ (e : WalEntry), (e.record = .commit ↔ e.record.outcome = some .committed) ∧
      (e.record = .abort ↔ e.record.outcome = some .aborted) := by
    intro e
    cases e.record <;> simp [WalRecord.outcome]
  constructor
  · rintro ⟨ho, hc⟩
    obtain ⟨d, h⟩ := decides_run calls decides_start ho hc
    refine ⟨fun x hx => ?_, ?_⟩
    · simp only [(hout _).1, (hout _).2] at hx
      have hcom := h.outcomes.announced x .committed hx.1
      rw [h.outcomes.announced x .aborted hx.2] at hcom
      cases hcom
    · have hcoh : Coherent d (start.flushRun calls).control.statuses (start.flushRun calls).storage.wal.entries :=
        ⟨h.stored, fun e he hr => h.outcomes.announced _ _ ⟨e, he, rfl, (hout e).1.1 hr⟩,
          fun e he hr => h.outcomes.announced _ _ ⟨e, he, rfl, (hout e).2.1 hr⟩⟩
      obtain ⟨r, hr, -⟩ := recover_ok hcoh (start.flushRun calls).storage.diskNow
        (start.flushRun calls).control.checkpointLsn (start.flushRun calls).control.nextXid
      exact ⟨r, hr⟩
  · rintro ⟨hno, -⟩
    by_contra hc
    obtain ⟨x, hx⟩ := contradicts_run calls (TransactionManager.inv_start .new) hc
    refine hno x ?_
    simp only [(hout _).1, (hout _).2]
    exact hx

/-- XID 2 publishes a page; the `fsync` of its COMMIT raises, and `close` aborts what is still active. -/
def failedCommit : List FlushCall :=
  [.call (.begin .readCommitted), .call (.allocatePage 0), .call (.firstWrite 2), .call (.logImage 2 ⟨0, 0⟩ onePage 36),
    .call (.install ⟨0, 0⟩ ⟨36, onePage⟩), .call (.commit 2), .outcomeFlushRaises, .call (.abort 2), .call .flushOutcome,
    .call .finish] ++ List.replicate 9 (.call .checkpoint)

theorem failed_flush_unrecoverable :
    (∃ e ∈ (start.flushRun failedCommit).storage.wal.entries, e.xid = 2 ∧ e.record = .commit) ∧
    (∃ e ∈ (start.flushRun failedCommit).storage.wal.entries, e.xid = 2 ∧ e.record = .abort) ∧
    ((start.flushRun failedCommit).recoverFrom (start.flushRun failedCommit).control.checkpointLsn).map (fun _ => ()) =
      .error ⟨.valueError, "transaction status is terminal"⟩ := by
  decide +kernel

/-- `close` has read the active transactions, XID 2 commits, and then `close` aborts it: no flush raises. -/
def abortedAfterCommit : List FlushCall :=
  [.call (.begin .readCommitted), .call (.allocatePage 0), .call (.firstWrite 2), .call (.logImage 2 ⟨0, 0⟩ onePage 36),
    .call (.install ⟨0, 0⟩ ⟨36, onePage⟩), .call (.commit 2), .call .flushOutcome, .call .finish, .call (.abort 2)]

example : Announced (start.flushRun abortedAfterCommit).storage.wal.entries 2 .committed ∧
    Announced (start.flushRun abortedAfterCommit).storage.wal.entries 2 .aborted := by decide +kernel

end CheckpointState
end MiniPostgres
