import MiniPostgres.Leases
import MiniPostgres.LockWaits
import Mathlib.Logic.Relation
/-!
# CrossWaits — row locks, writer leases and a waiting VACUUM

Sessions that run INSERT, UPDATE, DELETE, COMMIT, ROLLBACK and VACUUM through the lock manager and the maintenance coordinator at
once.  A statement may wait in three places: in the queue of a lock, before `acquire_writer`, and in `acquire_maintenance`; the
graph of the deadlock detector has the first kind of wait only.
-/
namespace MiniPostgres

/-! ## What a call to the lock manager leaves of the others -/

def LockCall.xid : LockCall → Nat
  | .acquire xid _ => xid
  | .resume xid    => xid
  | .release xid   => xid
  | .commit xid    => xid
  | .rollback xid  => xid
  | .fail xid      => xid

namespace LockManagerState

variable {s : LockManagerState} {x y : Nat} {r : LockKey} (handler : Bool)

theorem leave_calls_none {state : TransactionState} (h : s.calls y = none) : (s.leave x state).calls y = none := by
  simp only [leave, releaseAll, h, Option.map_none]

theorem contend_calls_none (hi : Inv s) (hne : y ≠ x) (h : s.calls y = none) : (s.contend handler x r).1.calls y = none := by
  rcases contend_cases handler hi (x := x) (r := r) with ⟨rest, -, -, he⟩ | ⟨-, ⟨-, he⟩ | ⟨v, -, he⟩⟩
  · rw [he]
    simp only [Function.update_of_ne hne, h]
  · rw [he, park]
    simp only [Function.update_of_ne hne, h]
  · rw [he]
    split
    · rw [endCall]
      simp only [Function.update_of_ne hne]
      exact leave_calls_none h
    · rw [park]
      simp only [Function.update_of_ne hne]
      exact leave_calls_none h

/-- **A transaction with no call of `acquire` under way gets none from another's call**, and none from its own commit, rollback or
failure. -/
theorem step_calls_none (hi : Inv s) {c : LockCall} (hc : c.xid ≠ y ∨ ∀ r, c ≠ .acquire y r) (h : s.calls y = none) :
    (s.step handler c).calls y = none := by
  cases c with
  | acquire x r =>
    have hne : y ≠ x := hc.elim Ne.symm (fun h he => h r (by rw [he]))
    simp only [LockManagerState.step]
    split
    · exact h
    · rename_i hg
      rw [not_or, not_not, not_not] at hg
      split
      · exact h
      · rename_i hown
        refine contend_calls_none handler (hi.enter hg.1 hg.2 hown) hne ?_
        rw [enter_eq hi hg.1]
        simp only [Function.update_of_ne hne, h]
  | resume x =>
    simp only [LockManagerState.step]
    split
    · rename_i resource hcall
      have hne : y ≠ x := fun he => by rw [he, hcall] at h; cases h
      split
      · simp only [endCall, Function.update_of_ne hne, h]
      · exact contend_calls_none handler hi hne h
    · exact h
  | release x =>
    simp only [LockManagerState.step]
    split
    · exact h
    · exact leave_calls_none h
  | commit x =>
    simp only [LockManagerState.step]
    split
    · exact h
    · exact leave_calls_none h
  | rollback x =>
    simp only [LockManagerState.step]
    split
    · exact h
    · exact leave_calls_none h
  | fail x =>
    simp only [LockManagerState.step]
    split <;> exact h

theorem step_owners_none (hi : Inv s) {c : LockCall} (hc : c.xid ≠ y ∨ ∀ r, c ≠ .acquire y r) (h : s.calls y = none)
    (ho : (s.step handler c).owners r = some y) : s.owners r = some y := by
  by_contra hn
  rcases (hi.fair handler c r y hn ho).1 with hq | hq
  · exact not_mem_queues hi h r hq
  · rcases hc with hc | hc
    · exact hc (by rw [hq]; rfl)
    · exact hc r hq

/-- An edge goes from a transaction of a queue to the owner of its lock or to another of the queue. -/
theorem mem_queueEdges : ∀ {queue : List Nat} {blockers : List Nat} {e : Nat × List Nat}, e ∈ queueEdges blockers queue →
    e.1 ∈ queue ∧ ∀ y ∈ e.2, y ∈ blockers ∨ y ∈ queue
  | [], _, _, h                  => by cases h
  | waiter :: queue, blockers, e, h => by
    rcases List.mem_cons.1 h with rfl | h
    · exact ⟨List.mem_cons_self, fun y hy => .inl hy⟩
    · obtain ⟨h1, h2⟩ := mem_queueEdges h
      refine ⟨List.mem_cons_of_mem _ h1, fun y hy => ?_⟩
      rcases h2 y hy with hb | hq
      · rcases List.mem_append.1 hb with hb | hb
        · exact .inl hb
        · rw [List.mem_singleton.1 hb]
          exact .inr List.mem_cons_self
      · exact .inr (List.mem_cons_of_mem _ hq)

theorem mem_waitGraph {e : Nat × List Nat} (h : e ∈ s.waitGraph.edges) :
    ∃ r, e.1 ∈ s.queues r ∧ ∀ y ∈ e.2, s.owners r = some y ∨ y ∈ s.queues r := by
  obtain ⟨r, -, he⟩ := List.mem_flatMap.1 h
  obtain ⟨h1, h2⟩ := mem_queueEdges he
  exact ⟨r, h1, fun y hy => (h2 y hy).imp_left Option.mem_toList.1⟩

end LockManagerState

/-! ## The sessions -/

/-- The coordinator with the statements under way, the lock manager, and the transaction of each session with a mark for BEGIN. -/
structure CrossState where
  leases       : LeaseState
  locks        : LockManagerState
  nextXid      : Nat
  transactions : Nat → Option (Nat × Bool)

inductive CrossCall
  | session
  | begin (i : Nat)
  | modify (i : Nat) (kind : Modification) (tableId : Nat)
  | vacuum (i : Nat) (tables : List Nat)
  /-- The thread goes on at the coordinator. -/
  | advance (i : Nat)
  /-- The executor of the statement asks for a row or a key. -/
  | lock (i : Nat) (resource : LockKey)
  /-- A notified wait goes on. -/
  | resume (i : Nat)
  | finish (i : Nat) (raised : Bool)
  | commit (i : Nat)
  | rollback (i : Nat)

namespace CrossState

def start : CrossState := ⟨.start, .new, 2, fun _ => none⟩

def leaseCall (s : CrossState) (c : LeaseCall) : CrossState := { s with leases := s.leases.step c }

def lockCall (s : CrossState) (c : LockCall) : CrossState := { s with locks := s.locks.step true c }

def openTransaction (s : CrossState) (i : Nat) (explicit : Bool) : CrossState :=
  { s with transactions := Function.update s.transactions i (some (s.nextXid, explicit)), nextXid := s.nextXid + 1 }

def closeTransaction (s : CrossState) (i : Nat) : CrossState := { s with transactions := Function.update s.transactions i none }

/-- The end of `execute_for_session`: an implicit transaction is committed or aborted, an explicit one fails with its
statement. -/
def endStatement (s : CrossState) (i : Nat) (raised : Bool) : CrossState :=
  match s.transactions i with
  | none             => s
  | some (xid, true) => if raised then s.lockCall (.fail xid) else s
  | some (xid, false) => (s.lockCall (if raised then .rollback xid else .commit xid)).closeTransaction i

/-- A statement starts, in the session's transaction or in one of its own. -/
def execute (s : CrossState) (i : Nat) (statement : Statement) : CrossState :=
  match s.transactions i with
  | none          => (s.openTransaction i false).leaseCall (.execute i statement)
  | some (xid, _) => if s.locks.state xid = .active then s.leaseCall (.execute i statement) else s

def step (s : CrossState) : CrossCall → CrossState
  | .session => s.leaseCall .session
  | .begin i => if s.leases.sessions[i]? = some .idle ∧ s.transactions i = none then s.openTransaction i true else s
  | .modify i kind tableId =>
    if s.leases.sessions[i]? = some .idle then s.execute i (.modify kind tableId) else s
  | .vacuum i tables =>
    if s.leases.sessions[i]? = some .idle then
      match s.transactions i with
      | none          => s.execute i (.vacuum tables)
      | some (xid, _) => s.lockCall (.fail xid)
    else s
  | .advance i =>
    if s.leases.sessions[i]? = some (.vacuuming []) then (s.leaseCall (.advance i)).endStatement i false
    else s.leaseCall (.advance i)
  | .lock i resource =>
    match s.leases.sessions[i]?, s.transactions i with
    | some (.modifying _ _), some (xid, _) => s.lockCall (.acquire xid resource)
    | _, _                                 => s
  | .resume i =>
    match s.leases.sessions[i]?, s.transactions i with
    | some (.modifying _ _), some (xid, _) => s.lockCall (.resume xid)
    | _, _                                 => s
  | .finish i raised =>
    match s.leases.sessions[i]?, s.transactions i with
    | some (.modifying _ _), some (xid, _)     =>
      if s.locks.calls xid = none then (s.leaseCall (.finish i raised)).endStatement i raised else s
    | some (.maintaining _ _ _), some (_, _) =>
      if raised then (s.leaseCall (.finish i true)).endStatement i true else s.leaseCall (.finish i false)
    | _, _                                     => s
  | .commit i =>
    match s.leases.sessions[i]?, s.transactions i with
    | some .idle, some (xid, true) =>
      if s.locks.state xid = .active then (s.lockCall (.commit xid)).closeTransaction i else s
    | _, _                         => s
  | .rollback i =>
    match s.leases.sessions[i]?, s.transactions i with
    | some .idle, some (xid, true) => (s.lockCall (.rollback xid)).closeTransaction i
    | _, _                         => s

def run (s : CrossState) (calls : List CrossCall) : CrossState := calls.foldl step s

/-! ## Waits -/

/-- An edge of the detector's graph between the transactions of two sessions. -/
def LockWait (s : CrossState) (i j : Nat) : Prop := ∃ x e y e', s.transactions i = some (x, e) ∧ s.transactions j = some (y, e') ∧
  ∃ edge ∈ s.locks.waitGraph.edges, edge.1 = x ∧ y ∈ edge.2

/-- A writer waits for a waiting or active VACUUM of its table; a VACUUM waits for the running writers and for another VACUUM. -/
def LeaseWait (s : CrossState) (i j : Nat) : Prop := ∃ a b t, s.leases.sessions[i]? = some a ∧ s.leases.sessions[j]? = some b ∧
  ((a = .acquiringWriter t ∧ (b.waits t = true ∨ b.maintains t = true)) ∨
    (a.waits t = true ∧ (b.writes t = true ∨ b.maintains t = true)))

def Waits (s : CrossState) (i j : Nat) : Prop := LockWait s i j ∨ LeaseWait s i j

/-- **A cycle that the detector cannot see**: one of its waits is for a lease. -/
def UndetectedCycle (s : CrossState) : Prop := ∃ i j, LeaseWait s i j ∧ Relation.ReflTransGen (Waits s) j i

/-! ## The condition -/

/-- The session waits for a writer lease of the table and owns a lock. -/
def entering (s : CrossState) (t i : Nat) : Bool :=
  match s.leases.sessions[i]?, s.transactions i with
  | some (.acquiringWriter u), some (xid, _) => decide (u = t) && !(s.locks.resources xid).isEmpty
  | _, _                                     => false

/-- No session that owns a lock comes to `acquire_writer` while a VACUUM of the table waits for a statement that runs, and no
VACUUM begins to wait for one while such a session is there. -/
def keepsClear (s : CrossState) : CrossCall → Bool
  | .modify i _ t =>
    match s.transactions i with
    | some (xid, _) =>
      (s.locks.resources xid).isEmpty || !(s.leases.sessions.any (Running.waits t) && s.leases.sessions.any (Running.writes t))
    | none          => true
  | .advance i    =>
    match s.leases.sessions[i]? with
    | some (.vacuuming (t :: _)) =>
      !(s.leases.sessions.any (Running.writes t) && (List.range s.leases.sessions.length).any (s.entering t))
    | _                          => true
  | _             => true

def keepsClearAlong (s : CrossState) : List CrossCall → Bool
  | []            => true
  | call :: calls => s.keepsClear call && (s.step call).keepsClearAlong calls

end CrossState

/-! ## The moves of a session at the coordinator -/

/-- In the executor of a modification. -/
def Running.modifies : Running → Bool
  | .modifying _ _ => true
  | _              => false

def Running.vacuums : Running → Bool
  | .vacuuming _              => true
  | .acquiringMaintenance _ _ => true
  | .maintaining _ _ _        => true
  | _                         => false

namespace LeaseState

variable {s : LeaseState} {i : Nat}

/-- **A session that goes on** gets its writer lease while no VACUUM waits, or is one step further in its VACUUM. -/
theorem advance_cases (s : LeaseState) (i : Nat) : (s.advance i).sessions = s.sessions ∨
    (∃ t lease, s.sessions[i]? = some (.acquiringWriter t) ∧ (s.coordinator t).maintenanceWaiters = 0 ∧
      (s.advance i).sessions = s.sessions.set i (.modifying t (some lease))) ∨
    (s.sessions[i]? = some (.vacuuming []) ∧ (s.advance i).sessions = s.sessions.set i .idle) ∨
    (∃ t tables, s.sessions[i]? = some (.vacuuming (t :: tables)) ∧
      (s.advance i).sessions = s.sessions.set i (.acquiringMaintenance t tables)) ∨
    ∃ t lease tables, s.sessions[i]? = some (.acquiringMaintenance t tables) ∧
      (s.advance i).sessions = s.sessions.set i (.maintaining t lease tables) := by
  unfold advance
  split
  · rename_i t ht
    split
    · rename_i c lease hacq
      unfold MaintenanceCoordinator.acquireWriter at hacq
      split at hacq
      · rename_i hfree
        exact .inr (.inl ⟨t, lease, ht, hfree.2, rfl⟩)
      · cases hacq
    · exact .inl rfl
  · rename_i ht
    exact .inr (.inr (.inl ⟨ht, rfl⟩))
  · rename_i t tables ht
    exact .inr (.inr (.inr (.inl ⟨t, tables, ht, rfl⟩)))
  · rename_i t tables ht
    split
    · rename_i c lease hacq
      exact .inr (.inr (.inr (.inr ⟨t, lease, tables, ht, rfl⟩)))
    · exact .inl rfl
  · exact .inl rfl

theorem execute_sessions (statement : Statement) (hi : s.sessions[i]? = some .idle) :
    (s.step (.execute i statement)).sessions = s.sessions.set i statement.dispatch := by
  simp only [step, hi, setSession]

theorem exitLease_sessions (s : LeaseState) (i : Nat) (lease : MaintenanceLease) (r : Running) :
    (s.exitLease i lease r).sessions = s.sessions.set i r ∨ (s.exitLease i lease r).sessions = s.sessions.set i .idle := by
  unfold exitLease
  split
  · exact .inl rfl
  · exact .inr rfl

/-- The end of the work under a lease leaves the session idle or before the next table of its VACUUM. -/
theorem finish_sessions {old : Running} (raised : Bool) (hi : s.sessions[i]? = some old)
    (ho : old.modifies = true ∨ old.vacuums = true) :
    (s.step (.finish i raised)).sessions = s.sessions ∨ (s.step (.finish i raised)).sessions = s.sessions.set i .idle ∨
      (old.vacuums = true ∧ ∃ tables, (s.step (.finish i raised)).sessions = s.sessions.set i (.vacuuming tables)) := by
  simp only [step, hi]
  split
  · exact .inr (.inl ((exitLease_sessions s i _ .idle).elim id id))
  · exact .inr (.inl rfl)
  · rename_i t lease tables he
    cases he
    rcases exitLease_sessions s i lease (if raised then .idle else .vacuuming tables) with h | h
    · cases raised
      · exact .inr (.inr ⟨rfl, tables, h⟩)
      · exact .inr (.inl h)
    · exact .inr (.inl h)
  · exact .inl rfl

end LeaseState

namespace CrossState

/-! ## The invariant -/

/-- Transactions belong to one session; only a modification has a call of `acquire` under way, and a VACUUM owns no lock. -/
structure Inv (s : CrossState) : Prop where
  leases  : s.leases.Inv
  locks   : s.locks.Inv
  present : ∀ i x e, s.transactions i = some (x, e) → i < s.leases.sessions.length
  fresh   : ∀ i x e, s.transactions i = some (x, e) → x < s.nextXid
  inj     : ∀ i j x e e', s.transactions i = some (x, e) → s.transactions j = some (x, e') → i = j
  unborn  : ∀ x, s.nextXid ≤ x → s.locks.calls x = none ∧ ∀ r, s.locks.owners r ≠ some x
  quiet   : ∀ i x e a, s.transactions i = some (x, e) → s.leases.sessions[i]? = some a →
    a.modifies = false → s.locks.calls x = none
  vacuum  : ∀ i x e a, s.transactions i = some (x, e) → s.leases.sessions[i]? = some a → a.vacuums = true →
    ∀ r, s.locks.owners r ≠ some x

variable {s : CrossState} {i : Nat}

theorem inv_start : Inv start :=
  ⟨LeaseState.inv_start, .new, fun _ _ _ h => (by cases h), fun _ _ _ h => (by cases h), fun _ _ _ _ _ h => (by cases h),
    fun _ _ => ⟨rfl, fun _ h => (by cases h)⟩, fun _ _ _ _ h => (by cases h), fun _ _ _ _ h => (by cases h)⟩

theorem vacuums_modifies {a : Running} (h : a.vacuums = true) : a.modifies = false := by
  cases a <;> first | rfl | cases h

namespace Inv

/-- A call to the lock manager for the session's own transaction; it asks for a lock only in a modification. -/
theorem lockCall (h : Inv s) {x : Nat} {e : Bool} (hi : s.transactions i = some (x, e)) {c : LockCall} (hc : c.xid = x)
    (hq : (∀ r, c ≠ .acquire x r) ∨ ∀ a, s.leases.sessions[i]? = some a → a.modifies = true) : Inv (s.lockCall c) := by
  have hcalls : ∀ j y e' a, s.transactions j = some (y, e') → s.leases.sessions[j]? = some a → a.modifies = false →
      (c.xid ≠ y ∨ ∀ r, c ≠ .acquire y r) := by
    intro j y e' a hj ha hm
    by_cases hy : c.xid = y
    · right
      have hxy : x = y := hc.symm.trans hy
      rw [← hxy] at hj ⊢
      cases h.inj i j x e e' hi hj
      rcases hq with hq | hq
      · exact hq
      · rw [hq a ha] at hm
        cases hm
    · exact .inl hy
  refine ⟨h.leases, h.locks.step true c, h.present, h.fresh, h.inj, fun y hy => ?_, fun j y e' a hj ha hm => ?_,
    fun j y e' a hj ha hv r ho => ?_⟩
  · have hlt := h.fresh i x e hi
    have hne : c.xid ≠ y := by rw [hc]; exact Nat.ne_of_lt (Nat.lt_of_lt_of_le hlt hy)
    obtain ⟨h1, h2⟩ := h.unborn y hy
    exact ⟨LockManagerState.step_calls_none true h.locks (.inl hne) h1,
      fun r ho => h2 r (LockManagerState.step_owners_none true h.locks (.inl hne) h1 ho)⟩
  · exact LockManagerState.step_calls_none true h.locks (hcalls j y e' a hj ha hm) (h.quiet j y e' a hj ha hm)
  · have hm := vacuums_modifies hv
    exact h.vacuum j y e' a hj ha hv r
      (LockManagerState.step_owners_none true h.locks (hcalls j y e' a hj ha hm) (h.quiet j y e' a hj ha hm) ho)

theorem leaseCall (h : Inv s) {c : LeaseCall} {new : Running}
    (hs : (s.leases.step c).sessions = s.leases.sessions ∨ (s.leases.step c).sessions = s.leases.sessions.set i new)
    (hq : new.modifies = false → ∀ x e, s.transactions i = some (x, e) → s.locks.calls x = none)
    (hv : new.vacuums = true → ∀ x e, s.transactions i = some (x, e) → ∀ r, s.locks.owners r ≠ some x) : Inv (s.leaseCall c) := by
  have hlen : (s.leases.step c).sessions.length = s.leases.sessions.length := by
    rcases hs with hs | hs <;> rw [hs]
    exact List.length_set
  have hget : ∀ j a, (s.leases.step c).sessions[j]? = some a → s.leases.sessions[j]? = some a ∨ (j = i ∧ a = new) := by
    intro j a ha
    rcases hs with hs | hs <;> rw [hs] at ha
    · exact .inl ha
    · rw [List.getElem?_set] at ha
      split at ha
      · rename_i hij
        split at ha
        · cases ha
          exact .inr ⟨hij.symm, rfl⟩
        · cases ha
      · exact .inl ha
  refine ⟨LeaseState.inv_step h.leases c, h.locks, fun j x e hj => ?_, h.fresh, h.inj, h.unborn, fun j x e a hj ha hm => ?_,
    fun j x e a hj ha hvac => ?_⟩
  · rw [CrossState.leaseCall, hlen]
    exact h.present j x e hj
  · rcases hget j a ha with hold | ⟨rfl, rfl⟩
    · exact h.quiet j x e a hj hold hm
    · exact hq hm x e hj
  · rcases hget j a ha with hold | ⟨rfl, rfl⟩
    · exact h.vacuum j x e a hj hold hvac
    · exact hv hvac x e hj

theorem openTransaction (h : Inv s) (hi : s.leases.sessions[i]? = some .idle) (explicit : Bool) :
    Inv (s.openTransaction i explicit) := by
  have hlen := (List.getElem?_eq_some_iff.1 hi).1
  have hcases : ∀ {j x e}, (s.openTransaction i explicit).transactions j = some (x, e) →
      (j = i ∧ x = s.nextXid) ∨ s.transactions j = some (x, e) := by
    intro j x e hj
    simp only [CrossState.openTransaction, Function.update_apply] at hj
    split at hj
    · rename_i hji
      cases hj
      exact .inl ⟨hji, rfl⟩
    · exact .inr hj
  refine ⟨h.leases, h.locks, fun j x e hj => ?_, fun j x e hj => ?_, fun j k x e e' hj hk => ?_, fun x hx => ?_,
    fun j x e a hj ha hm => ?_, fun j x e a hj ha hv => ?_⟩
  · rcases hcases hj with ⟨rfl, -⟩ | hj
    · exact hlen
    · exact h.present j x e hj
  · rcases hcases hj with ⟨-, rfl⟩ | hj
    · exact Nat.lt_succ_self _
    · exact Nat.lt_succ_of_lt (h.fresh j x e hj)
  · rcases hcases hj with ⟨rfl, rfl⟩ | hj
    · rcases hcases hk with ⟨rfl, -⟩ | hk
      · rfl
      · exact absurd (h.fresh k _ e' hk) (Nat.lt_irrefl _)
    · rcases hcases hk with ⟨-, rfl⟩ | hk
      · exact absurd (h.fresh j _ e hj) (Nat.lt_irrefl _)
      · exact h.inj j k x e e' hj hk
  · exact h.unborn x (Nat.le_of_succ_le hx)
  · rcases hcases hj with ⟨-, rfl⟩ | hj
    · exact (h.unborn _ (Nat.le_refl _)).1
    · exact h.quiet j x e a hj ha hm
  · rcases hcases hj with ⟨-, rfl⟩ | hj
    · exact (h.unborn _ (Nat.le_refl _)).2
    · exact h.vacuum j x e a hj ha hv

theorem closeTransaction (h : Inv s) (i : Nat) : Inv (s.closeTransaction i) := by
  have hold : ∀ {j x e}, (s.closeTransaction i).transactions j = some (x, e) → s.transactions j = some (x, e) := by
    intro j x e hj
    simp only [CrossState.closeTransaction, Function.update_apply] at hj
    split at hj
    · cases hj
    · exact hj
  exact ⟨h.leases, h.locks, fun j x e hj => h.present j x e (hold hj), fun j x e hj => h.fresh j x e (hold hj),
    fun j k x e e' hj hk => h.inj j k x e e' (hold hj) (hold hk), h.unborn, fun j x e a hj => h.quiet j x e a (hold hj),
    fun j x e a hj => h.vacuum j x e a (hold hj)⟩

end Inv

/-! ## Tables that are clear -/

/-- No table has a session that owns a lock before `acquire_writer`, a VACUUM that waits and a statement that it waits for. -/
def Clear (s : CrossState) : Prop := ∀ t, ¬((∃ j, s.entering t j = true) ∧ (∃ a ∈ s.leases.sessions, a.waits t = true) ∧
  ∃ b ∈ s.leases.sessions, b.writes t = true)

theorem clear_start : Clear start := by
  rintro t ⟨-, ⟨a, ha, -⟩, -⟩
  cases ha

theorem entering_iff {t j : Nat} : s.entering t j = true ↔ ∃ x e, s.leases.sessions[j]? = some (.acquiringWriter t) ∧
    s.transactions j = some (x, e) ∧ s.locks.resources x ≠ [] := by
  unfold entering
  constructor
  · intro h
    split at h
    · rename_i u x e hu hx
      simp only [Bool.and_eq_true, decide_eq_true_eq, Bool.not_eq_true', List.isEmpty_eq_false_iff] at h
      obtain ⟨rfl, hr⟩ := h
      exact ⟨x, e, hu, hx, hr⟩
    · cases h
  · rintro ⟨x, e, hu, hx, hr⟩
    rw [hu, hx]
    simp only [decide_true, Bool.true_and, Bool.not_eq_true', List.isEmpty_eq_false_iff]
    exact hr

namespace Clear

theorem lockCall (h : Clear s) (hi : Inv s) {x : Nat} {e : Bool} (ht : s.transactions i = some (x, e))
    {c : LockCall} (hc : c.xid = x)
    (hq : (∀ r, c ≠ .acquire x r) ∨ ∀ a, s.leases.sessions[i]? = some a → a.modifies = true) : Clear (s.lockCall c) := by
  rintro t ⟨⟨j, hj⟩, hrest⟩
  refine h t ⟨⟨j, ?_⟩, hrest⟩
  obtain ⟨y, e', hu, hy, hr⟩ := entering_iff.1 hj
  refine entering_iff.2 ⟨y, e', hu, hy, ?_⟩
  obtain ⟨r, hmem⟩ := List.exists_mem_of_ne_nil _ hr
  have hcalls := hi.quiet j y e' _ hy hu rfl
  have hother : c.xid ≠ y ∨ ∀ r, c ≠ .acquire y r := by
    by_cases hxy : c.xid = y
    · right
      have he : x = y := hc.symm.trans hxy
      rw [← he] at hy ⊢
      cases hi.inj i j x e e' ht hy
      rcases hq with hq | hq
      · exact hq
      · cases hq _ hu
    · exact .inl hxy
  have hown := LockManagerState.step_owners_none true hi.locks hother hcalls ((hi.locks.step true c).owned r y hmem)
  exact List.ne_nil_of_mem (hi.locks.owner_has r y hown)

theorem leaseCall (h : Clear s) {c : LeaseCall} {new : Running}
    (hs : (s.leases.step c).sessions = s.leases.sessions ∨ (s.leases.step c).sessions = s.leases.sessions.set i new)
    (hW : ∀ t, new = .acquiringWriter t → (s.leaseCall c).entering t i = true →
      ¬((∃ a ∈ s.leases.sessions, a.waits t = true) ∧ ∃ b ∈ s.leases.sessions, b.writes t = true))
    (hV : ∀ t, new.waits t = true → ¬((∃ j, s.entering t j = true) ∧ ∃ b ∈ s.leases.sessions, b.writes t = true))
    (hB : ∀ t, new.writes t = true → ∀ a ∈ s.leases.sessions, a.waits t = false) : Clear (s.leaseCall c) := by
  rintro t ⟨⟨j, hj⟩, ⟨a, ha, haw⟩, b, hb, hbw⟩
  rcases hs with hs | hs
  · refine h t ⟨⟨j, ?_⟩, ⟨a, by rw [← hs]; exact ha, haw⟩, b, by rw [← hs]; exact hb, hbw⟩
    obtain ⟨y, e', hu, hy, hr⟩ := entering_iff.1 hj
    exact entering_iff.2 ⟨y, e', by rw [← hs]; exact hu, hy, hr⟩
  · simp only [CrossState.leaseCall, hs] at ha hb
    have hb' : b ∈ s.leases.sessions := (List.mem_or_eq_of_mem_set hb).resolve_right (fun he => by
      rcases List.mem_or_eq_of_mem_set ha with ha | ha
      · rw [hB t (by rw [← he]; exact hbw) a ha] at haw
        cases haw
      · rw [ha] at haw
        rw [he] at hbw
        cases new <;> first | cases haw | cases hbw)
    obtain ⟨y, e', hu, hy, hr⟩ := entering_iff.1 hj
    simp only [CrossState.leaseCall, hs, List.getElem?_set] at hu
    rcases List.mem_or_eq_of_mem_set ha with ha' | rfl
    · split at hu
      · rename_i hij
        split at hu
        · exact hW t (Option.some.inj hu) (by rw [hij]; exact hj) ⟨⟨a, ha', haw⟩, b, hb', hbw⟩
        · cases hu
      · exact h t ⟨⟨j, entering_iff.2 ⟨y, e', hu, hy, hr⟩⟩, ⟨a, ha', haw⟩, b, hb', hbw⟩
    · split at hu
      · split at hu
        · rw [Option.some.inj hu] at haw
          cases haw
        · cases hu
      · exact hV t haw ⟨⟨j, entering_iff.2 ⟨y, e', hu, hy, hr⟩⟩, b, hb', hbw⟩

theorem leaseQuiet (h : Clear s) {c : LeaseCall} {new : Running}
    (hs : (s.leases.step c).sessions = s.leases.sessions ∨ (s.leases.step c).sessions = s.leases.sessions.set i new)
    (hw : ∀ t, new ≠ .acquiringWriter t ∧ new.waits t = false ∧ new.writes t = false) : Clear (s.leaseCall c) :=
  h.leaseCall hs (fun t he => absurd he (hw t).1) (fun t he => by rw [(hw t).2.1] at he; cases he)
    (fun t he => by rw [(hw t).2.2] at he; cases he)

theorem retransact (h : Clear s) {s' : CrossState} (hl : s'.leases = s.leases) (hk : s'.locks = s.locks)
    (hi : ∀ t, s.leases.sessions[i]? ≠ some (.acquiringWriter t)) (ht : ∀ j, j ≠ i → s'.transactions j = s.transactions j) :
    Clear s' := by
  rintro t ⟨⟨j, hj⟩, hrest⟩
  rw [hl] at hrest
  refine h t ⟨⟨j, ?_⟩, hrest⟩
  obtain ⟨y, e', hu, hy, hr⟩ := entering_iff.1 hj
  rw [hl] at hu
  have hne : j ≠ i := fun he => hi t (by rw [← he]; exact hu)
  exact entering_iff.2 ⟨y, e', hu, by rw [← ht j hne]; exact hy, by rw [← hk]; exact hr⟩

theorem openTransaction (h : Clear s) (hi : s.leases.sessions[i]? = some .idle) (explicit : Bool) :
    Clear (s.openTransaction i explicit) :=
  h.retransact (i := i) rfl rfl (fun t he => by rw [hi] at he; cases he) (fun _ hj => Function.update_of_ne hj _ _)

theorem closeTransaction (h : Clear s) (hi : ∀ t, s.leases.sessions[i]? ≠ some (.acquiringWriter t)) :
    Clear (s.closeTransaction i) :=
  h.retransact (i := i) rfl rfl hi (fun _ hj => Function.update_of_ne hj _ _)

end Clear

/-! ## Steps -/

theorem session_get {j : Nat} {a : Running} (h : (s.leaseCall .session).leases.sessions[j]? = some a) :
    s.leases.sessions[j]? = some a ∨ (a = .idle ∧ s.leases.sessions.length ≤ j) := by
  simp only [CrossState.leaseCall, LeaseState.step, List.getElem?_append] at h
  split at h
  · exact .inl h
  · rename_i hlt
    rw [List.getElem?_singleton] at h
    split at h
    · cases h
      exact .inr ⟨rfl, Nat.le_of_not_lt hlt⟩
    · cases h

theorem Inv.session (h : Inv s) : Inv (s.leaseCall .session) := by
  have hget : ∀ {j x e a}, s.transactions j = some (x, e) → (s.leaseCall .session).leases.sessions[j]? = some a →
      s.leases.sessions[j]? = some a := by
    intro j x e a hj ha
    rcases session_get ha with ha | ⟨-, hlt⟩
    · exact ha
    · exact absurd (h.present j x e hj) (Nat.not_lt.2 hlt)
  refine ⟨LeaseState.inv_step h.leases .session, h.locks, fun j x e hj => ?_, h.fresh, h.inj, h.unborn,
    fun j x e a hj ha => h.quiet j x e a hj (hget hj ha), fun j x e a hj ha => h.vacuum j x e a hj (hget hj ha)⟩
  have := h.present j x e hj
  simp only [CrossState.leaseCall, LeaseState.step, List.length_append, List.length_singleton]
  omega

theorem Clear.session (h : Clear s) : Clear (s.leaseCall .session) := by
  rintro t ⟨⟨j, hj⟩, ⟨a, ha, haw⟩, b, hb, hbw⟩
  obtain ⟨y, e, hu, hy, hr⟩ := entering_iff.1 hj
  refine h t ⟨⟨j, entering_iff.2 ⟨y, e, ?_, hy, hr⟩⟩, ⟨a, ?_, haw⟩, b, ?_, hbw⟩
  · rcases session_get hu with hu | ⟨hu, -⟩
    · exact hu
    · cases hu
  · rcases List.mem_append.1 ha with ha | ha
    · exact ha
    · rw [List.mem_singleton.1 ha] at haw
      cases haw
  · rcases List.mem_append.1 hb with hb | hb
    · exact hb
    · rw [List.mem_singleton.1 hb] at hbw
      cases hbw

theorem safe_endStatement (h : Inv s) (hc : Clear s)
    (hi : ∀ t, s.leases.sessions[i]? ≠ some (.acquiringWriter t)) (raised : Bool) :
    Inv (s.endStatement i raised) ∧ Clear (s.endStatement i raised) := by
  unfold endStatement
  split
  · exact ⟨h, hc⟩
  · rename_i x hx
    split
    · have hq : ∀ r, LockCall.fail x ≠ .acquire x r := fun _ he => by cases he
      exact ⟨h.lockCall hx rfl (.inl hq), hc.lockCall h hx rfl (.inl hq)⟩
    · exact ⟨h, hc⟩
  · rename_i x hx
    have hxid : (if raised then LockCall.rollback x else LockCall.commit x).xid = x := by cases raised <;> rfl
    have hq : ∀ r, (if raised then LockCall.rollback x else LockCall.commit x) ≠ .acquire x r := fun _ he => by
      cases raised <;> cases he
    exact ⟨(h.lockCall hx hxid (.inl hq)).closeTransaction i, (hc.lockCall h hx hxid (.inl hq)).closeTransaction hi⟩

theorem safe_dispatch (h : Inv s) (hc : Clear s) (hi : s.leases.sessions[i]? = some .idle) {x : Nat} {e : Bool}
    (hx : s.transactions i = some (x, e)) {statement : Statement}
    (hn : ∀ t, statement.dispatch.waits t = false ∧ statement.dispatch.writes t = false)
    (hv : statement.dispatch.vacuums = true → ∀ r, s.locks.owners r ≠ some x)
    (hW : ∀ t, statement.dispatch = .acquiringWriter t → s.locks.resources x ≠ [] →
      ¬((∃ a ∈ s.leases.sessions, a.waits t = true) ∧ ∃ b ∈ s.leases.sessions, b.writes t = true)) :
    Inv (s.leaseCall (.execute i statement)) ∧ Clear (s.leaseCall (.execute i statement)) := by
  have hs := LeaseState.execute_sessions statement hi
  refine ⟨h.leaseCall (.inr hs) (fun _ x' e' hx' => h.quiet i x' e' _ hx' hi rfl) (fun hvac x' e' hx' => ?_),
    hc.leaseCall (.inr hs) (fun t ht hent => ?_) (fun t ht => ?_) (fun t ht => ?_)⟩
  · rw [hx] at hx'
    cases hx'
    exact hv hvac
  · obtain ⟨x', e', -, hx', hr⟩ := entering_iff.1 hent
    have hxx : some (x, e) = some (x', e') := hx.symm.trans hx'
    cases hxx
    exact hW t ht hr
  · rw [(hn t).1] at ht
    cases ht
  · rw [(hn t).2] at ht
    cases ht

theorem safe_open (h : Inv s) (hc : Clear s) (hi : s.leases.sessions[i]? = some .idle) {statement : Statement}
    (hn : ∀ t, statement.dispatch.waits t = false ∧ statement.dispatch.writes t = false) :
    Inv ((s.openTransaction i false).leaseCall (.execute i statement)) ∧
      Clear ((s.openTransaction i false).leaseCall (.execute i statement)) := by
  have hnone := (h.unborn s.nextXid (Nat.le_refl _)).2
  refine safe_dispatch (h.openTransaction hi false) (hc.openTransaction hi false) hi (Function.update_self ..) hn (fun _ => hnone)
    (fun t _ hr => ?_)
  obtain ⟨r, hmem⟩ := List.exists_mem_of_ne_nil _ hr
  exact absurd (h.locks.owned r s.nextXid hmem) (hnone r)

theorem safe_still (h : Inv s) (hc : Clear s) {c : LeaseCall} (hs : (s.leases.step c).sessions = s.leases.sessions) :
    Inv (s.leaseCall c) ∧ Clear (s.leaseCall c) := by
  refine ⟨?_, hc.leaseQuiet (.inl hs : _ ∨ (s.leases.step c).sessions = s.leases.sessions.set 0 .idle)
    (fun t => ⟨fun he => (by cases he), rfl, rfl⟩)⟩
  have hsame : ∀ {j : Nat} {a : Running}, (s.leaseCall c).leases.sessions[j]? = some a → s.leases.sessions[j]? = some a := by
    intro j a ha
    rw [← hs]
    exact ha
  exact ⟨LeaseState.inv_step h.leases c, h.locks, fun j x e hj => hs ▸ h.present j x e hj, h.fresh, h.inj, h.unborn,
    fun j x e a hj ha => h.quiet j x e a hj (hsame ha), fun j x e a hj ha => h.vacuum j x e a hj (hsame ha)⟩

theorem safe_advance (h : Inv s) (hc : Clear s) (hk : s.keepsClear (.advance i) = true) :
    Inv (s.leaseCall (.advance i)) ∧ Clear (s.leaseCall (.advance i)) := by
  rcases LeaseState.advance_cases s.leases i with hs | ⟨t, lease, hi, hfree, hs⟩ | ⟨hi, hs⟩ | ⟨t, tables, hi, hs⟩ |
      ⟨t, lease, tables, hi, hs⟩
  · exact safe_still h hc hs
  · refine ⟨h.leaseCall (.inr hs) (fun hm => by cases hm) (fun hv => by cases hv),
      hc.leaseCall (.inr hs) (fun _ he => by cases he) (fun _ he => by cases he) (fun u hu a ha => ?_)⟩
    have hzero := (h.leases.counted t).waiters
    rw [hfree, eq_comm, List.countP_eq_zero] at hzero
    have hut : u = t := by
      simp only [Running.writes, decide_eq_true_eq] at hu
      exact hu.symm
    rw [hut]
    exact Bool.eq_false_iff.2 (hzero a ha)
  · exact ⟨h.leaseCall (.inr hs) (fun _ x e hx => h.quiet i x e _ hx hi rfl) (fun hv => by cases hv),
      hc.leaseQuiet (.inr hs) (fun t => ⟨fun he => (by cases he), rfl, rfl⟩)⟩
  · refine ⟨h.leaseCall (.inr hs) (fun _ x e hx => h.quiet i x e _ hx hi rfl) (fun _ x e hx => h.vacuum i x e _ hx hi rfl),
      hc.leaseCall (.inr hs) (fun _ he => by cases he) (fun u hu => ?_) (fun _ he => by cases he)⟩
    have hut : u = t := by
      simp only [Running.waits, decide_eq_true_eq] at hu
      exact hu.symm
    rw [hut]
    simp only [keepsClear, hi, Bool.not_eq_true', Bool.and_eq_false_iff, List.any_eq_false,
      List.mem_range, Bool.not_eq_true] at hk
    rintro ⟨⟨j, hj⟩, b, hb, hbw⟩
    rcases hk with hk | hk
    · rw [hk b hb] at hbw
      cases hbw
    · obtain ⟨x, e, hget, -, -⟩ := entering_iff.1 hj
      rw [hk j (List.getElem?_eq_some_iff.1 hget).1] at hj
      cases hj
  · exact ⟨h.leaseCall (.inr hs) (fun _ x e hx => h.quiet i x e _ hx hi rfl) (fun _ x e hx => h.vacuum i x e _ hx hi rfl),
      hc.leaseQuiet (.inr hs) (fun t => ⟨fun he => (by cases he), rfl, rfl⟩)⟩

theorem safe_finish (h : Inv s) (hc : Clear s) {old : Running} (hi : s.leases.sessions[i]? = some old)
    (ho : old.modifies = true ∨ old.vacuums = true) (hq : ∀ x e, s.transactions i = some (x, e) → s.locks.calls x = none)
    (raised : Bool) : Inv (s.leaseCall (.finish i raised)) ∧ Clear (s.leaseCall (.finish i raised)) ∧
      ∀ t, (s.leaseCall (.finish i raised)).leases.sessions[i]? ≠ some (.acquiringWriter t) := by
  have hlen := (List.getElem?_eq_some_iff.1 hi).1
  rcases LeaseState.finish_sessions raised hi ho with hs | hs | ⟨hv, tables, hs⟩
  · obtain ⟨h1, h2⟩ := safe_still h hc hs
    refine ⟨h1, h2, fun t ht => ?_⟩
    simp only [CrossState.leaseCall, hs, hi, Option.some.injEq] at ht
    rw [ht] at ho
    rcases ho with ho | ho <;> cases ho
  · refine ⟨h.leaseCall (.inr hs) (fun _ => hq) (fun hv => by cases hv),
      hc.leaseQuiet (.inr hs) (fun t => ⟨fun he => (by cases he), rfl, rfl⟩), fun t ht => ?_⟩
    simp only [CrossState.leaseCall, hs, List.getElem?_set_self hlen] at ht
    cases ht
  · refine ⟨h.leaseCall (.inr hs) (fun _ => hq) (fun _ x e hx => h.vacuum i x e old hx hi hv),
      hc.leaseQuiet (.inr hs) (fun t => ⟨fun he => (by cases he), rfl, rfl⟩), fun t ht => ?_⟩
    simp only [CrossState.leaseCall, hs, List.getElem?_set_self hlen] at ht
    cases ht

theorem safe_step (h : Inv s) (hc : Clear s) {call : CrossCall} (hk : s.keepsClear call = true) :
    Inv (s.step call) ∧ Clear (s.step call) := by
  cases call with
  | session => exact ⟨h.session, hc.session⟩
  | begin i =>
    simp only [step]
    split
    · rename_i hg
      exact ⟨h.openTransaction hg.1 true, hc.openTransaction hg.1 true⟩
    · exact ⟨h, hc⟩
  | modify i kind t =>
    simp only [step]
    split
    · rename_i hi
      unfold execute
      split
      · exact safe_open h hc hi (fun _ => ⟨rfl, rfl⟩)
      · rename_i x e hx
        split
        · refine safe_dispatch h hc hi hx (fun _ => ⟨rfl, rfl⟩) (fun hv => by cases hv) (fun u hu hr hboth => ?_)
          obtain ⟨⟨a, ha, haw⟩, b, hb, hbw⟩ := hboth
          cases hu
          simp only [keepsClear, hx, Bool.or_eq_true, List.isEmpty_iff, hr, false_or, Bool.not_eq_true', Bool.and_eq_false_iff,
            List.any_eq_false] at hk
          exact hk.elim (fun hk => hk a ha haw) (fun hk => hk b hb hbw)
        · exact ⟨h, hc⟩
    · exact ⟨h, hc⟩
  | vacuum i tables =>
    simp only [step]
    split
    · rename_i hi
      split
      · rename_i hx
        simp only [execute, hx]
        exact safe_open h hc hi (fun _ => ⟨rfl, rfl⟩)
      · rename_i x e hx
        have hq : ∀ r, LockCall.fail x ≠ .acquire x r := fun _ he => by cases he
        exact ⟨h.lockCall hx rfl (.inl hq), hc.lockCall h hx rfl (.inl hq)⟩
    · exact ⟨h, hc⟩
  | advance i =>
    obtain ⟨h1, h2⟩ := safe_advance h hc hk
    simp only [step]
    split
    · rename_i hi
      refine safe_endStatement h1 h2 (fun t ht => ?_) false
      simp only [CrossState.leaseCall, LeaseState.step, LeaseState.advance, hi, LeaseState.setSession,
        List.getElem?_set_self (List.getElem?_eq_some_iff.1 hi).1] at ht
      cases ht
    · exact ⟨h1, h2⟩
  | lock i resource =>
    simp only [step]
    split
    · rename_i x e hi hx
      have hq : ∀ a, s.leases.sessions[i]? = some a → a.modifies = true := fun a ha => by
        rw [hi] at ha
        cases ha
        rfl
      exact ⟨h.lockCall hx rfl (.inr hq), hc.lockCall h hx rfl (.inr hq)⟩
    · exact ⟨h, hc⟩
  | resume i =>
    simp only [step]
    split
    · rename_i x e hi hx
      have hq : ∀ r, LockCall.resume x ≠ .acquire x r := fun _ he => by cases he
      exact ⟨h.lockCall hx rfl (.inl hq), hc.lockCall h hx rfl (.inl hq)⟩
    · exact ⟨h, hc⟩
  | finish i raised =>
    simp only [step]
    split
    · rename_i x e hi hx
      split
      · rename_i hcall
        obtain ⟨h1, h2, h3⟩ := safe_finish h hc hi (.inl rfl) (fun x' e' hx' => by rw [hx] at hx'; cases hx'; exact hcall) raised
        exact safe_endStatement h1 h2 h3 raised
      · exact ⟨h, hc⟩
    · rename_i x e hi hx
      have hq := fun x' e' hx' => h.quiet i x' e' _ hx' hi rfl
      split
      · obtain ⟨h1, h2, h3⟩ := safe_finish h hc hi (.inr rfl) hq true
        exact safe_endStatement h1 h2 h3 true
      · obtain ⟨h1, h2, -⟩ := safe_finish h hc hi (.inr rfl) hq false
        exact ⟨h1, h2⟩
    · exact ⟨h, hc⟩
  | commit i =>
    simp only [step]
    split
    · rename_i x hi hx
      split
      · have hq : ∀ r, LockCall.commit x ≠ .acquire x r := fun _ he => by cases he
        exact ⟨(h.lockCall hx rfl (.inl hq)).closeTransaction i,
          (hc.lockCall h hx rfl (.inl hq)).closeTransaction (fun t ht => by cases hi.symm.trans ht)⟩
      · exact ⟨h, hc⟩
    · exact ⟨h, hc⟩
  | rollback i =>
    simp only [step]
    split
    · rename_i x hi hx
      have hq : ∀ r, LockCall.rollback x ≠ .acquire x r := fun _ he => by cases he
      exact ⟨(h.lockCall hx rfl (.inl hq)).closeTransaction i,
        (hc.lockCall h hx rfl (.inl hq)).closeTransaction (fun t ht => by cases hi.symm.trans ht)⟩
    · exact ⟨h, hc⟩

theorem safe_run : ∀ (calls : List CrossCall) {s : CrossState}, Inv s → Clear s → s.keepsClearAlong calls = true →
    Inv (s.run calls) ∧ Clear (s.run calls)
  | [], _, h, hc, _ => ⟨h, hc⟩
  | call :: calls, s, h, hc, hk => by
    rw [keepsClearAlong, Bool.and_eq_true] at hk
    obtain ⟨h1, h2⟩ := safe_step h hc hk.1
    exact safe_run calls h1 h2 hk.2

/-! ## No cycle -/

theorem LockWait.modifies {j : Nat} (h : Inv s) (hw : LockWait s i j) {a : Running} (ha : s.leases.sessions[i]? = some a) :
    a.modifies = true := by
  obtain ⟨x, e, y, e', hx, -, edge, hmem, rfl, -⟩ := hw
  obtain ⟨r, hr, -⟩ := LockManagerState.mem_waitGraph hmem
  by_contra hm
  exact LockManagerState.not_mem_queues h.locks (h.quiet i _ e a hx ha (Bool.eq_false_iff.2 hm)) r hr

theorem LockWait.owns {j : Nat} (h : Inv s) (hw : LockWait s i j) {b : Running} (hb : s.leases.sessions[j]? = some b)
    (hm : b.modifies = false) : ∃ y e r, s.transactions j = some (y, e) ∧ s.locks.owners r = some y := by
  obtain ⟨x, e, y, e', -, hy, edge, hmem, -, hedge⟩ := hw
  obtain ⟨r, -, hr⟩ := LockManagerState.mem_waitGraph hmem
  rcases hr y hedge with ho | hq
  · exact ⟨y, e', r, hy, ho⟩
  · exact absurd hq (LockManagerState.not_mem_queues h.locks (h.quiet j y e' b hy hb hm) r)

theorem Waits.not_maintains {j t : Nat} (h : Inv s) (hw : Waits s i j) {a : Running} (ha : s.leases.sessions[i]? = some a) :
    a.maintains t = false := by
  rcases hw with hw | ⟨a', b, u, ha', -, hcase⟩
  · have hm := hw.modifies h ha
    cases a <;> first | rfl | cases hm
  · rw [ha] at ha'
    cases ha'
    rcases hcase with ⟨rfl, -⟩ | ⟨hw, -⟩
    · rfl
    · cases a <;> first | rfl | cases hw

/-- **Who is before `acquire_writer` is waited for because of a lock it owns.** -/
theorem Waits.entering {j t : Nat} (h : Inv s) (hw : Waits s i j) (hj : s.leases.sessions[j]? = some (.acquiringWriter t)) :
    s.entering t j = true := by
  rcases hw with hw | ⟨a, b, u, -, hb, hcase⟩
  · obtain ⟨y, e, r, hy, ho⟩ := hw.owns h hj rfl
    exact entering_iff.2 ⟨y, e, hj, hy, List.ne_nil_of_mem (h.locks.owner_has r y ho)⟩
  · rw [hj] at hb
    cases hb
    rcases hcase with ⟨-, hc | hc⟩ | ⟨-, hc | hc⟩ <;> cases hc

/-- **Who waits for a waiting VACUUM is before `acquire_writer` of its table.** -/
theorem Waits.of_waiting {j t : Nat} (h : Inv s) (hw : Waits s i j) {b : Running} (hj : s.leases.sessions[j]? = some b)
    (hb : b.waits t = true) : s.leases.sessions[i]? = some (.acquiringWriter t) := by
  cases b with
  | acquiringMaintenance u tables =>
    rcases hw with hw | ⟨a, b, v, ha, hb', hcase⟩
    · obtain ⟨y, e, r, hy, ho⟩ := hw.owns h hj rfl
      exact absurd ho (h.vacuum j y e _ hy hj rfl r)
    · rw [hj] at hb'
      cases hb'
      simp only [Running.waits, Running.maintains, Running.writes, decide_eq_true_eq, Bool.false_eq_true,
        or_false, or_self, and_false]
        at hcase hb
      rw [ha, hcase.1, ← hcase.2, hb]
  | _ => cases hb

/-- **A waiting VACUUM waits for a statement or a VACUUM under a lease on its table.** -/
theorem Waits.from_waiting {j t : Nat} (h : Inv s) (hw : Waits s i j) {a : Running} (hi : s.leases.sessions[i]? = some a)
    (ha : a.waits t = true) : ∃ b, s.leases.sessions[j]? = some b ∧ (b.writes t = true ∨ b.maintains t = true) := by
  cases a with
  | acquiringMaintenance u tables =>
    rcases hw with hw | ⟨a, b, v, ha', hb, hcase⟩
    · cases hw.modifies h hi
    · rw [hi] at ha'
      cases ha'
      simp only [Running.waits, decide_eq_true_eq, reduceCtorEq, false_and, false_or] at hcase ha
      rw [← ha, hcase.1]
      exact ⟨b, hb, hcase.2⟩
  | _ => cases ha

theorem no_path_from_maintaining {j t : Nat} (h : Inv s) {b : Running} (hj : s.leases.sessions[j]? = some b)
    (hb : b.maintains t = true)
    (hne : j ≠ i) : ¬Relation.ReflTransGen (Waits s) j i := by
  intro hpath
  rcases hpath.cases_head with he | ⟨k, hk, -⟩
  · exact hne he
  · rw [hk.not_maintains h hj] at hb
    cases hb

theorem path_last {j : Nat} (hpath : Relation.ReflTransGen (Waits s) j i) (hne : j ≠ i) :
    ∃ m, Relation.ReflTransGen (Waits s) j m ∧ Waits s m i := by
  rcases hpath.cases_tail with he | hm
  · exact absurd he.symm hne
  · exact hm

/-- **Without a table that is not clear there is no cycle through a lease.**  A cycle that meets a lease meets a writer that comes
after a waiting VACUUM; who waits for that writer waits for a lock of it, and the VACUUM waits for a statement. -/
theorem Clear.no_cycle (h : Inv s) (hc : Clear s) : ¬UndetectedCycle s := by
  rintro ⟨i, j, ⟨a, b, t, hi, hj, hcase⟩, hpath⟩
  have hne : ∀ {a' b' : Running}, s.leases.sessions[i]? = some a' → s.leases.sessions[j]? = some b' → a' ≠ b' → j ≠ i := by
    intro a' b' ha hb hab he
    rw [he, ha] at hb
    exact hab (Option.some.inj hb)
  rcases hcase with ⟨rfl, hb | hb⟩ | ⟨ha, hb | hb⟩
  · have hji : j ≠ i := hne hi hj (fun he => by rw [← he] at hb; cases hb)
    obtain ⟨m, -, hm⟩ := path_last hpath hji
    rcases hpath.cases_head with he | ⟨k, hk, hrest⟩
    · exact hji he
    · obtain ⟨c, hc', hcw | hcm⟩ := hk.from_waiting h hj hb
      · exact hc t ⟨⟨i, hm.entering h hi⟩, ⟨b, List.mem_of_getElem? hj, hb⟩, c, List.mem_of_getElem? hc', hcw⟩
      · refine no_path_from_maintaining h hc' hcm (fun he => ?_) hrest
        rw [he, hi] at hc'
        cases hc'
        cases hcm
  · exact no_path_from_maintaining h hj hb (hne hi hj (fun he => by rw [← he] at hb; cases hb)) hpath
  · have hji : j ≠ i := hne hi hj (fun he => by rw [he] at ha; cases b <;> first | cases ha | cases hb)
    obtain ⟨m, hjm, hm⟩ := path_last hpath hji
    have hget := hm.of_waiting h hi ha
    obtain ⟨k, -, hk⟩ := path_last hjm (fun he => by rw [he, hget] at hj; cases hj; cases hb)
    exact hc t ⟨⟨m, hk.entering h hget⟩, ⟨a, List.mem_of_getElem? hi, ha⟩, b, List.mem_of_getElem? hj, hb⟩
  · exact no_path_from_maintaining h hj hb (hne hi hj (fun he => by rw [he] at ha; cases b <;> first | cases ha | cases hb)) hpath

/-- **No cycle goes by the detector** in a run whose steps keep every table clear, whatever the sessions and their order. -/
theorem no_undetected_cycle (calls : List CrossCall) (h : start.keepsClearAlong calls = true) :
    ¬UndetectedCycle (start.run calls) :=
  have hsafe := safe_run calls inv_start clear_start h
  hsafe.2.no_cycle hsafe.1

/-! ## A writer, a VACUUM and a statement between them -/

/-- Two sessions update one row, the second waits, and a VACUUM waits for the second. -/
def updateVacuum : List CrossCall :=
  [.session, .session, .session, .begin 0, .modify 0 .update 1, .advance 0, .lock 0 (.tuple 1 ⟨0, 0⟩), .finish 0 false,
    .modify 1 .update 1, .advance 1, .lock 1 (.tuple 1 ⟨0, 0⟩), .vacuum 2 [1], .advance 2]

theorem no_undetected_cycle_updateVacuum :
    start.keepsClearAlong updateVacuum = true ∧ ¬UndetectedCycle (start.run updateVacuum) :=
  have h : start.keepsClearAlong updateVacuum = true := by decide
  ⟨h, no_undetected_cycle updateVacuum h⟩

/-- ... and the first comes back. -/
def updateVacuumUpdate : List CrossCall := updateVacuum ++ [.modify 0 .update 1]

theorem vacuum_closes_cycle : UndetectedCycle (start.run updateVacuumUpdate) := by
  have h02 : LeaseWait (start.run updateVacuumUpdate) 0 2 :=
    ⟨.acquiringWriter 1, .acquiringMaintenance 1 [], 1, by decide, by decide, .inl ⟨rfl, .inl (by decide)⟩⟩
  have h21 : LeaseWait (start.run updateVacuumUpdate) 2 1 :=
    ⟨.acquiringMaintenance 1 [], .modifying 1 (some ⟨1, false, false⟩), 1, by decide, by decide,
      .inr ⟨by decide, .inl (by decide)⟩⟩
  have h10 : LockWait (start.run updateVacuumUpdate) 1 0 :=
    ⟨3, false, 2, true, by decide, by decide, (3, [2]), by decide, rfl, by decide⟩
  exact ⟨0, 2, h02, .head (.inr h21) (.single (.inl h10))⟩

end CrossState

end MiniPostgres
