import MiniPostgres.LockWaits
import MiniPostgres.Lib.Mutex
/-!
# Mutexes — the transaction manager and the lock manager

`transaction/manager.py` and `transaction/locks.py` at the grain of their two mutexes: `TransactionManager._lock` and
`LockManager._condition`, both reentrant.  Any number of threads begin, read, commit, abort, acquire and release; a step of a
thread goes from one operation on a mutex to the next.  A commit takes `_lock` and then `_condition`; the handler of a deadlock
victim runs inside `_condition` and takes `_lock`.
-/
namespace MiniPostgres

open ReentrantMutex (Mutex)

/-! ## Threads -/

/-- The two calls that end a transaction. -/
inductive Finish
  | commit (xid : Nat)
  | abort (xid : Nat)
  deriving DecidableEq

def Finish.xid : Finish → Nat
  | .commit xid => xid
  | .abort xid  => xid

/-- Before `_lock`; inside it; before `_condition`; inside both; inside `_lock` alone again. -/
inductive FinishStage
  | entering | inside | releasing | released | leaving
  deriving DecidableEq

/-- Before `_condition`; inside it; in the loop; behind the handler, which returned or raised; waiting for a notification, and
inside again. -/
inductive AcquireStage
  | entering
  | inside
  | looping
  | resolved (victim : Nat)
  | failed
  | waiting
  | woken
  deriving DecidableEq

/-- What a thread does.  An abort within a call of `acquire` is the handler of its deadlock victim. -/
inductive Activity
  | idle
  | begin (entered : Bool)
  | statementSnapshot (xid : Nat) (entered : Bool)
  | finish (call : Finish) (stage : FinishStage) (within : Option (Nat × LockKey))
  | releaseAll (xid : Nat) (entered : Bool)
  | acquire (xid : Nat) (resource : LockKey) (stage : AcquireStage)
  deriving DecidableEq

inductive ManagerCall
  | begin
  | statementSnapshot (xid : Nat)
  | commit (xid : Nat)
  | abort (xid : Nat)
  | releaseAll (xid : Nat)
  | acquire (xid : Nat) (resource : LockKey)
  deriving DecidableEq

def ManagerCall.activity : ManagerCall → Activity
  | .begin                 => .begin false
  | .statementSnapshot xid => .statementSnapshot xid false
  | .commit xid            => .finish (.commit xid) .entering none
  | .abort xid             => .finish (.abort xid) .entering none
  | .releaseAll xid        => .releaseAll xid false
  | .acquire xid resource  => .acquire xid resource .entering

namespace Activity

/-- How often the thread has taken `_lock`. -/
def manager : Activity → Nat
  | .begin entered               => if entered then 1 else 0
  | .statementSnapshot _ entered => if entered then 1 else 0
  | .finish _ stage _            => if stage = .entering then 0 else 1
  | _                            => 0

/-- How often the thread has taken `_condition`. -/
def condition : Activity → Nat
  | .finish _ stage within  => (if within.isSome then 1 else 0) + if stage = .released then 1 else 0
  | .releaseAll _ entered   => if entered then 1 else 0
  | .acquire _ _ .entering  => 0
  | .acquire _ _ .waiting   => 0
  | .acquire _ _ _          => 1
  | _                       => 0

def wantsManager : Activity → Bool
  | .begin entered               => !entered
  | .statementSnapshot _ entered => !entered
  | .finish _ stage _            => decide (stage = .entering)
  | _                            => false

/-- The handler of a victim waits for `_lock`. -/
def resolving : Activity → Bool
  | .finish _ .entering (some _) => true
  | _                            => false

/-- A commit or an abort of a session is inside `_lock` and has not taken `_condition` yet. -/
def finishing : Activity → Bool
  | .finish _ .inside none    => true
  | .finish _ .releasing none => true
  | _                         => false

end Activity

/-! ## The managers -/

/-- The two managers and the threads that call them. -/
structure ManagersState where
  manager   : Mutex Nat
  condition : Mutex Nat
  locks     : LockManagerState
  nextXid   : Nat
  active    : List Nat
  statuses  : StatusTable
  threads   : List Activity

/-- What one turn of the loop of `acquire` comes to. -/
inductive LoopTurn
  | granted (locks : LockManagerState)
  | resolve (victim : Nat) (locks : LockManagerState)
  | wait
  | leave

namespace ManagersState

def start (threads : Nat) : ManagersState :=
  ⟨.free, .free, .new, 2, [], .empty, List.replicate threads .idle⟩

def setThread (s : ManagersState) (t : Nat) (a : Activity) : ManagersState := { s with threads := s.threads.set t a }

/-- The thread takes `_lock` and goes on, or it waits. -/
def lockManager (s : ManagersState) (t : Nat) (a : Activity) : ManagersState :=
  match s.manager.lock t with
  | none   => s
  | some m => { s with manager := m }.setThread t a

def lockCondition (s : ManagersState) (t : Nat) (a : Activity) : ManagersState :=
  match s.condition.lock t with
  | none   => s
  | some m => { s with condition := m }.setThread t a

def unlockManager (s : ManagersState) (t : Nat) (a : Activity) : ManagersState :=
  { s with manager := s.manager.unlock t }.setThread t a

def unlockCondition (s : ManagersState) (t : Nat) (a : Activity) : ManagersState :=
  { s with condition := s.condition.unlock t }.setThread t a

/-- The body of `commit` or `abort` up to `release_all`; `walFails` is an I/O error of the log. -/
def finishBody (s : ManagersState) (call : Finish) (walFails : Bool) : ManagersState × Bool :=
  if walFails then (s, false)
  else
    match call with
    | .commit xid =>
      if s.locks.state xid ≠ .active then (s, false)
      else
        let s := { s with locks := { s.locks with state := Function.update s.locks.state xid .committed } }
        match s.statuses.set xid .committed with
        | .error _     => (s, false)
        | .ok statuses => ({ s with statuses := statuses, active := s.active.erase xid }, true)
    | .abort xid =>
      if s.locks.state xid = .committed then (s, false)
      else
        let s := { s with locks := { s.locks with state := Function.update s.locks.state xid .aborted } }
        match s.statuses.set xid .aborted with
        | .error _     => (s, false)
        | .ok statuses => ({ s with statuses := statuses, active := s.active.erase xid }, true)

/-- `acquire` from its test of the transaction to its loop. -/
def enterAcquire (l : LockManagerState) (xid : Nat) (resource : LockKey) : Option (LockManagerState × Bool) :=
  if l.state xid ≠ .active then none
  else if l.owners resource = some xid then some (l.reenter xid resource, false)
  else some (l.enter xid resource, true)

/-- One turn of the loop; the victim's handler starts with `mark_failed`. -/
def turn (l : LockManagerState) (xid : Nat) (resource : LockKey) : LoopTurn :=
  if l.owners resource = none ∧ (l.queues resource).head? = some xid then
    .granted { l with
      queues    := Function.update l.queues resource (l.queues resource).tail
      owners    := Function.update l.owners resource (some xid)
      resources := Function.update l.resources xid ((l.resources xid).insert resource)
      calls     := Function.update l.calls xid none }
  else
    match l.waitGraph.deadlockVictim with
    | none        => .wait
    | some victim =>
      if victim ∉ l.transactions then if victim = xid then .leave else .wait
      else if l.state victim ≠ .active then .leave
      else .resolve victim { l with state := Function.update l.state victim .failed }

/-- A call of `acquire` ends, with the lock or with an exception. -/
def leaveAcquire (s : ManagersState) (t xid : Nat) : ManagersState :=
  { s with locks := s.locks.endCall xid }.unlockCondition t .idle

/-- `condition.wait()`: the mutex is given back until a notification. -/
def waitTurn (s : ManagersState) (t xid : Nat) (resource : LockKey) : ManagersState :=
  { s with locks := s.locks.park xid resource }.unlockCondition t (.acquire xid resource .waiting)

def stepFinish (s : ManagersState) (t : Nat) (call : Finish) (within : Option (Nat × LockKey)) (walFails : Bool) :
    FinishStage → ManagersState
  | .entering  => s.lockManager t (.finish call .inside within)
  | .inside    =>
    match s.finishBody call walFails, within with
    | (s, true), _                      => s.setThread t (.finish call .releasing within)
    | (s, false), none                  => s.unlockManager t .idle
    | (s, false), some (xid, resource)  => s.unlockManager t (.acquire xid resource .failed)
  | .releasing => s.lockCondition t (.finish call .released within)
  | .released  =>
    { s with locks := s.locks.releaseAll call.xid }.unlockCondition t (.finish call .leaving within)
  | .leaving   =>
    match within with
    | none                 => s.unlockManager t .idle
    | some (xid, resource) => s.unlockManager t (.acquire xid resource (.resolved call.xid))

def stepAcquire (s : ManagersState) (t xid : Nat) (resource : LockKey) : AcquireStage → ManagersState
  | .entering => s.lockCondition t (.acquire xid resource .inside)
  | .inside   =>
    match enterAcquire s.locks xid resource with
    | none                => s.leaveAcquire t xid
    | some (locks, false) => { s with locks := locks }.leaveAcquire t xid
    | some (locks, true)  => { s with locks := locks }.setThread t (.acquire xid resource .looping)
  | .looping  =>
    match turn s.locks xid resource with
    | .granted locks        => { s with locks := locks }.leaveAcquire t xid
    | .resolve victim locks => { s with locks := locks }.setThread t (.finish (.abort victim) .entering (some (xid, resource)))
    | .wait                 => s.waitTurn t xid resource
    | .leave                => s.leaveAcquire t xid
  | .resolved victim => if victim = xid then s.leaveAcquire t xid else s.waitTurn t xid resource
  | .failed  => s.leaveAcquire t xid
  | .waiting =>
    if s.locks.calls xid = some (resource, true) then s else s.lockCondition t (.acquire xid resource .woken)
  | .woken =>
    if s.locks.state xid ≠ .active then s.leaveAcquire t xid else s.setThread t (.acquire xid resource .looping)

/-- A thread runs up to its next operation on a mutex. -/
def runThread (s : ManagersState) (t : Nat) (walFails : Bool) : ManagersState :=
  match s.threads[t]? with
  | none   => s
  | some a =>
    match a with
    | .idle                        => s
    | .begin false                 => s.lockManager t (.begin true)
    | .begin true                  =>
      { s with nextXid := s.nextXid + 1, active := s.active ++ [s.nextXid] }.unlockManager t .idle
    | .statementSnapshot xid false => s.lockManager t (.statementSnapshot xid true)
    | .statementSnapshot _ true    => s.unlockManager t .idle
    | .finish call stage within    => s.stepFinish t call within walFails stage
    | .releaseAll xid false        => s.lockCondition t (.releaseAll xid true)
    | .releaseAll xid true         => { s with locks := s.locks.releaseAll xid }.unlockCondition t .idle
    | .acquire xid resource stage  => s.stepAcquire t xid resource stage

end ManagersState

inductive ThreadEvent
  | call (t : Nat) (call : ManagerCall)
  | run (t : Nat) (walFails : Bool)
  deriving DecidableEq

namespace ManagersState

def step (s : ManagersState) : ThreadEvent → ManagersState
  | .call t call     => if s.threads[t]? = some .idle then s.setThread t call.activity else s
  | .run t walFails  => s.runThread t walFails

def run (s : ManagersState) (events : List ThreadEvent) : ManagersState := events.foldl step s

/-- The thread waits to get into `_condition`. -/
def wantsCondition (s : ManagersState) : Activity → Bool
  | .finish _ .releasing _          => true
  | .releaseAll _ entered           => !entered
  | .acquire _ _ .entering          => true
  | .acquire xid resource .waiting  => decide (s.locks.calls xid ≠ some (resource, true))
  | _                               => false

/-- **A mutex cycle**: a thread holds `_lock` and waits for `_condition`, another holds `_condition` and waits for `_lock`. -/
def MutexCycle (s : ManagersState) : Prop := ∃ t u a b, t ≠ u ∧ s.threads[t]? = some a ∧ s.threads[u]? = some b ∧
  0 < s.manager.depth t ∧ s.wantsCondition a = true ∧ 0 < s.condition.depth u ∧ b.wantsManager = true

/-! ## The invariant -/

/-- Each thread holds the mutexes that its place in the code says. -/
def Held (s : ManagersState) : Prop := ∀ t a, s.threads[t]? = some a →
  s.manager.depth t = a.manager ∧ s.condition.depth t = a.condition

theorem held_start (threads : Nat) : Held (start threads) := by
  intro t a h
  have ha : a = .idle := List.eq_of_mem_replicate (List.mem_of_getElem? h)
  rw [ha]
  exact ⟨rfl, rfl⟩

variable {s : ManagersState} {t : Nat} {a old : Activity}

theorem Held.moved (h : Held s) {s' : ManagersState} (hth : s'.threads = s.threads.set t a)
    (hm : ∀ u, u ≠ t → s'.manager.depth u = s.manager.depth u) (hc : ∀ u, u ≠ t → s'.condition.depth u = s.condition.depth u)
    (ht : s'.manager.depth t = a.manager ∧ s'.condition.depth t = a.condition) : Held s' := by
  intro u b hu
  rw [hth, List.getElem?_set] at hu
  split at hu
  · rename_i htu
    split at hu
    · cases hu
      rw [← htu]
      exact ht
    · cases hu
  · rename_i htu
    rw [hm u (Ne.symm htu), hc u (Ne.symm htu)]
    exact h u b hu

theorem Held.setThread (h : Held s) (ht : s.threads[t]? = some old) (hm : a.manager = old.manager)
    (hc : a.condition = old.condition) : Held (s.setThread t a) := by
  obtain ⟨h1, h2⟩ := h t old ht
  exact h.moved rfl (fun _ _ => rfl) (fun _ _ => rfl) ⟨h1.trans hm.symm, h2.trans hc.symm⟩

theorem Held.lockManager (h : Held s) (ht : s.threads[t]? = some old) (hm : a.manager = old.manager + 1)
    (hc : a.condition = old.condition) : Held (s.lockManager t a) := by
  obtain ⟨h1, h2⟩ := h t old ht
  unfold ManagersState.lockManager
  split
  · exact h
  · rename_i m hlock
    refine h.moved rfl (fun u hu => ?_) (fun _ _ => rfl) ⟨?_, h2.trans hc.symm⟩
    · exact (Mutex.depth_lock hlock u).trans (by rw [if_neg hu, Nat.add_zero])
    · refine (Mutex.depth_lock hlock t).trans ?_
      rw [if_pos rfl, h1, hm]

theorem Held.lockCondition (h : Held s) (ht : s.threads[t]? = some old) (hm : a.manager = old.manager)
    (hc : a.condition = old.condition + 1) : Held (s.lockCondition t a) := by
  obtain ⟨h1, h2⟩ := h t old ht
  unfold ManagersState.lockCondition
  split
  · exact h
  · rename_i m hlock
    refine h.moved rfl (fun _ _ => rfl) (fun u hu => ?_) ⟨h1.trans hm.symm, ?_⟩
    · exact (Mutex.depth_lock hlock u).trans (by rw [if_neg hu, Nat.add_zero])
    · refine (Mutex.depth_lock hlock t).trans ?_
      rw [if_pos rfl, h2, hc]

theorem Held.unlockManager (h : Held s) (ht : s.threads[t]? = some old) (hm : old.manager = a.manager + 1)
    (hc : a.condition = old.condition) : Held (s.unlockManager t a) := by
  obtain ⟨h1, h2⟩ := h t old ht
  have hpos : 0 < s.manager.depth t := by omega
  refine h.moved rfl (fun u hu => ?_) (fun _ _ => rfl) ⟨?_, h2.trans hc.symm⟩
  · exact (Mutex.depth_unlock hpos u).trans (by rw [if_neg hu, Nat.sub_zero])
  · refine (Mutex.depth_unlock hpos t).trans ?_
    rw [if_pos rfl, h1, hm, Nat.add_sub_cancel]

theorem Held.unlockCondition (h : Held s) (ht : s.threads[t]? = some old) (hm : a.manager = old.manager)
    (hc : old.condition = a.condition + 1) : Held (s.unlockCondition t a) := by
  obtain ⟨h1, h2⟩ := h t old ht
  have hpos : 0 < s.condition.depth t := by omega
  refine h.moved rfl (fun _ _ => rfl) (fun u hu => ?_) ⟨h1.trans hm.symm, ?_⟩
  · exact (Mutex.depth_unlock hpos u).trans (by rw [if_neg hu, Nat.sub_zero])
  · refine (Mutex.depth_unlock hpos t).trans ?_
    rw [if_pos rfl, h2, hc, Nat.add_sub_cancel]

theorem finishBody_frame (s : ManagersState) (call : Finish) (walFails : Bool) :
    (s.finishBody call walFails).1.manager = s.manager ∧ (s.finishBody call walFails).1.condition = s.condition ∧
      (s.finishBody call walFails).1.threads = s.threads := by
  unfold finishBody
  split
  · exact ⟨rfl, rfl, rfl⟩
  · split
    · split
      · exact ⟨rfl, rfl, rfl⟩
      · simp only
        split <;> exact ⟨rfl, rfl, rfl⟩
    · split
      · exact ⟨rfl, rfl, rfl⟩
      · simp only
        split <;> exact ⟨rfl, rfl, rfl⟩

theorem Held.stepFinish (h : Held s) {call : Finish} {stage : FinishStage} {within : Option (Nat × LockKey)}
    (ht : s.threads[t]? = some (.finish call stage within)) (walFails : Bool) :
    Held (s.stepFinish t call within walFails stage) := by
  cases stage with
  | entering => exact h.lockManager ht rfl rfl
  | inside =>
    obtain ⟨hm, hc, hth⟩ := s.finishBody_frame call walFails
    have hbody : Held (s.finishBody call walFails).1 := fun u b hu => by
      rw [hm, hc]
      exact h u b (by rw [← hth]; exact hu)
    have ht' : (s.finishBody call walFails).1.threads[t]? = some (.finish call .inside within) := by rw [hth]; exact ht
    unfold ManagersState.stepFinish
    simp only
    split
    · rename_i s' within' heq
      rw [heq] at hbody ht'
      exact hbody.setThread ht' rfl rfl
    · rename_i s' heq
      rw [heq] at hbody ht'
      exact hbody.unlockManager ht' rfl rfl
    · rename_i s' xid resource heq
      rw [heq] at hbody ht'
      exact hbody.unlockManager ht' rfl rfl
  | releasing => exact h.lockCondition ht rfl rfl
  | released =>
    have hlocks : Held { s with locks := s.locks.releaseAll call.xid } := h
    exact hlocks.unlockCondition (show s.threads[t]? = some (.finish call .released within) from ht) rfl rfl
  | leaving =>
    unfold ManagersState.stepFinish
    cases within with
    | none => exact h.unlockManager ht rfl rfl
    | some w => exact h.unlockManager ht rfl rfl

theorem Held.leaveAcquire (h : Held s) {xid x : Nat} {resource : LockKey} {stage : AcquireStage}
    (ht : s.threads[t]? = some (.acquire xid resource stage)) (hc : (Activity.acquire xid resource stage).condition = 1) :
    Held (s.leaveAcquire t x) := by
  have hlocks : Held { s with locks := s.locks.endCall x } := h
  exact hlocks.unlockCondition (show s.threads[t]? = some (.acquire xid resource stage) from ht) rfl hc

theorem Held.waitTurn (h : Held s) {xid : Nat} {resource : LockKey} {stage : AcquireStage}
    (ht : s.threads[t]? = some (.acquire xid resource stage)) (hc : (Activity.acquire xid resource stage).condition = 1) :
    Held (s.waitTurn t xid resource) := by
  have hlocks : Held { s with locks := s.locks.park xid resource } := h
  exact hlocks.unlockCondition (show s.threads[t]? = some (.acquire xid resource stage) from ht) rfl hc

theorem Held.stepAcquire (h : Held s) {xid : Nat} {resource : LockKey} {stage : AcquireStage}
    (ht : s.threads[t]? = some (.acquire xid resource stage)) : Held (s.stepAcquire t xid resource stage) := by
  have hlocks : ∀ locks, Held { s with locks := locks } := fun _ => h
  unfold ManagersState.stepAcquire
  cases stage with
  | entering => exact h.lockCondition ht rfl rfl
  | inside =>
    simp only
    split
    · exact h.leaveAcquire ht rfl
    · exact (hlocks _).leaveAcquire ht rfl
    · exact (hlocks _).setThread ht rfl rfl
  | looping =>
    simp only
    split
    · exact (hlocks _).leaveAcquire ht rfl
    · exact (hlocks _).setThread ht rfl rfl
    · exact h.waitTurn ht rfl
    · exact h.leaveAcquire ht rfl
  | resolved victim =>
    simp only
    split
    · exact h.leaveAcquire ht rfl
    · exact h.waitTurn ht rfl
  | failed => exact h.leaveAcquire ht rfl
  | waiting =>
    simp only
    split
    · exact h
    · exact h.lockCondition ht rfl rfl
  | woken =>
    simp only
    split
    · exact h.leaveAcquire ht rfl
    · exact h.setThread ht rfl rfl

/-- **Every step of a thread takes and gives back what its place in the code says.** -/
theorem Held.step (h : Held s) (event : ThreadEvent) : Held (s.step event) := by
  cases event with
  | call t call =>
    simp only [ManagersState.step]
    split
    · rename_i ht
      cases call <;> exact h.setThread ht rfl rfl
    · exact h
  | run t walFails =>
    simp only [ManagersState.step, ManagersState.runThread]
    split
    · exact h
    · rename_i a ht
      split
      · exact h
      · exact h.lockManager ht rfl rfl
      · have hbegun : Held { s with nextXid := s.nextXid + 1, active := s.active ++ [s.nextXid] } := h
        exact hbegun.unlockManager ht rfl rfl
      · exact h.lockManager ht rfl rfl
      · exact h.unlockManager ht rfl rfl
      · exact h.stepFinish ht walFails
      · exact h.lockCondition ht rfl rfl
      · rename_i xid
        have hlocks : Held { s with locks := s.locks.releaseAll xid } := h
        exact hlocks.unlockCondition ht rfl rfl
      · exact h.stepAcquire ht

/-! ## Runs without the cycle -/

/-- Commits and aborts keep out of the way of the handler of a victim: a turn of `acquire` calls it only while none of them is
between its two mutexes, and none of them takes `_lock` while the handler waits for it. -/
def keepsOrder (s : ManagersState) : ThreadEvent → Bool
  | .call _ _ => true
  | .run t _  =>
    match s.threads[t]? with
    | some (.acquire xid resource .looping) =>
      match turn s.locks xid resource with
      | .resolve _ _ => !s.threads.any Activity.finishing
      | _            => true
    | some (.finish _ .entering none) => (s.manager.lock t).isNone || !s.threads.any Activity.resolving
    | _                               => true

def keepsOrderAlong (s : ManagersState) : List ThreadEvent → Bool
  | []              => true
  | event :: events => s.keepsOrder event && (s.step event).keepsOrderAlong events

theorem not_finishing_resolving {a : Activity} (hf : a.finishing = true) (hr : a.resolving = true) : False := by
  cases a with
  | finish call stage within =>
    cases within with
    | none => cases stage <;> cases hr
    | some _ => cases stage <;> cases hf
  | _ => cases hf

/-- No commit or abort is between its mutexes while a handler waits. -/
def Apart (s : ManagersState) : Prop := ∀ a ∈ s.threads, ∀ b ∈ s.threads, a.finishing = true → b.resolving = true → False

theorem Apart.set (h : Apart s) {s' : ManagersState} (hth : s'.threads = s.threads.set t a)
    (hf : a.finishing = true → (∃ x ∈ s.threads, x.finishing = true) ∨ ∀ x ∈ s.threads, x.resolving = false)
    (hr : a.resolving = true → ∀ x ∈ s.threads, x.finishing = false) : Apart s' := by
  intro x hx y hy hxf hyr
  rw [hth] at hx hy
  rcases List.mem_or_eq_of_mem_set hx with hx' | rfl
  · rcases List.mem_or_eq_of_mem_set hy with hy' | rfl
    · exact h x hx' y hy' hxf hyr
    · rw [hr hyr x hx'] at hxf
      cases hxf
  · rcases List.mem_or_eq_of_mem_set hy with hy' | rfl
    · rcases hf hxf with ⟨z, hz, hzf⟩ | hnone
      · exact h z hz y hy' hzf hyr
      · rw [hnone y hy'] at hyr
        cases hyr
    · exact not_finishing_resolving hxf hyr

theorem Apart.other (h : Apart s) {s' : ManagersState} (hth : s'.threads = s.threads.set t a) (hf : a.finishing = false)
    (hr : a.resolving = false) : Apart s' :=
  h.set hth (fun hc => by rw [hf] at hc; cases hc) (fun hc => by rw [hr] at hc; cases hc)

theorem Apart.lockManager (h : Apart s)
    (hf : (s.manager.lock t).isSome → a.finishing = true → (∃ x ∈ s.threads, x.finishing = true) ∨
      ∀ x ∈ s.threads, x.resolving = false)
    (hr : a.resolving = false) : Apart (s.lockManager t a) := by
  unfold ManagersState.lockManager
  split
  · exact h
  · rename_i m hm
    exact h.set rfl (hf (by rw [hm]; rfl)) (fun hc => by rw [hr] at hc; cases hc)

theorem Apart.lockCondition (h : Apart s) (hf : a.finishing = false) (hr : a.resolving = false) :
    Apart (s.lockCondition t a) := by
  unfold ManagersState.lockCondition
  split
  · exact h
  · exact h.other rfl hf hr

theorem Apart.stepFinish (h : Apart s) {call : Finish} {stage : FinishStage} {within : Option (Nat × LockKey)} {walFails : Bool}
    (ht : s.threads[t]? = some (.finish call stage within)) (ho : s.keepsOrder (.run t walFails) = true) :
    Apart (s.stepFinish t call within walFails stage) := by
  simp only [keepsOrder, ht] at ho
  cases stage with
  | entering =>
    refine h.lockManager (fun hm hf => .inr ?_) rfl
    cases within with
    | some w => cases hf
    | none =>
      simp only [Bool.or_eq_true, Bool.not_eq_true', List.any_eq_false, Option.isNone_iff_eq_none] at ho
      rcases ho with hnone | ho
      · rw [hnone] at hm
        cases hm
      · exact fun x hx => by simpa using ho x hx
  | inside =>
    obtain ⟨-, -, hth⟩ := s.finishBody_frame call walFails
    have hbody : Apart (s.finishBody call walFails).1 :=
      fun x hx y hy => h x (by rw [← hth]; exact hx) y (by rw [← hth]; exact hy)
    have hmem : Activity.finish call .inside within ∈ (s.finishBody call walFails).1.threads := by
      rw [hth]
      exact List.mem_of_getElem? ht
    have hfin : (Activity.finish call .releasing within).finishing = true →
        (Activity.finish call .inside within).finishing = true := by
      cases within <;> exact id
    unfold ManagersState.stepFinish
    simp only
    split
    · rename_i s' heq
      rw [heq] at hbody hmem
      exact hbody.set rfl (fun hf => .inl ⟨_, hmem, hfin hf⟩) (fun hr => by cases hr)
    · rename_i s' heq
      rw [heq] at hbody
      exact hbody.other rfl rfl rfl
    · rename_i s' xid resource heq
      rw [heq] at hbody
      exact hbody.other rfl rfl rfl
  | releasing => exact h.lockCondition (by cases within <;> rfl) rfl
  | released => exact h.other rfl (by cases within <;> rfl) rfl
  | leaving =>
    unfold ManagersState.stepFinish
    cases within with
    | none => exact h.other rfl rfl rfl
    | some w => exact h.other rfl rfl rfl

theorem Apart.stepAcquire (h : Apart s) {xid : Nat} {resource : LockKey} {stage : AcquireStage} {walFails : Bool}
    (ht : s.threads[t]? = some (.acquire xid resource stage)) (ho : s.keepsOrder (.run t walFails) = true) :
    Apart (s.stepAcquire t xid resource stage) := by
  simp only [keepsOrder, ht] at ho
  unfold ManagersState.stepAcquire
  cases stage with
  | entering => exact h.lockCondition rfl rfl
  | inside =>
    simp only
    split <;> exact h.other rfl rfl rfl
  | looping =>
    simp only at ho ⊢
    split
    · exact h.other rfl rfl rfl
    · rename_i victim locks heq
      rw [heq] at ho
      simp only [Bool.not_eq_true', List.any_eq_false] at ho
      exact h.set rfl (fun hf => by cases hf) (fun _ x hx => by simpa using ho x hx)
    · exact h.other rfl rfl rfl
    · exact h.other rfl rfl rfl
  | resolved victim =>
    simp only
    split <;> exact h.other rfl rfl rfl
  | failed => exact h.other rfl rfl rfl
  | waiting =>
    simp only
    split
    · exact h
    · exact h.lockCondition rfl rfl
  | woken =>
    simp only
    split <;> exact h.other rfl rfl rfl

theorem Apart.step (h : Apart s) (event : ThreadEvent) (ho : s.keepsOrder event = true) : Apart (s.step event) := by
  cases event with
  | call t call =>
    simp only [ManagersState.step]
    split
    · cases call <;> exact h.other rfl rfl rfl
    · exact h
  | run t walFails =>
    simp only [ManagersState.step, ManagersState.runThread]
    split
    · exact h
    · rename_i a ht
      split
      · exact h
      · exact h.lockManager (fun _ hc => by cases hc) rfl
      · exact h.other rfl rfl rfl
      · exact h.lockManager (fun _ hc => by cases hc) rfl
      · exact h.other rfl rfl rfl
      · exact h.stepFinish ht ho
      · exact h.lockCondition rfl rfl
      · exact h.other rfl rfl rfl
      · exact h.stepAcquire ht ho

/-- **A cycle needs a commit or an abort on one side and the handler of a victim on the other.** -/
theorem no_cycle (h : Held s) (ha : Apart s) : ¬ MutexCycle s := by
  rintro ⟨t, u, a, b, hne, ht, hu, hm, hwc, hc, hwm⟩
  obtain ⟨h1, h2⟩ := h t a ht
  obtain ⟨-, h4⟩ := h u b hu
  rw [h1] at hm
  have hres : b.resolving = true ∧ 0 < b.condition := by
    rw [h4] at hc
    refine ⟨?_, hc⟩
    cases b with
    | finish call stage within =>
      cases stage <;> simp only [Activity.wantsManager, reduceCtorEq, decide_false, Bool.false_eq_true] at hwm
      cases within with
      | none => exact absurd hc (Nat.lt_irrefl 0)
      | some w => rfl
    | begin entered => cases hc
    | statementSnapshot xid entered => cases hc
    | _ => cases hwm
  have hfin : a.finishing = true ∨ 0 < a.condition := by
    cases a with
    | finish call stage within =>
      cases stage <;> simp only [wantsCondition, Bool.false_eq_true] at hwc
      cases within with
      | none => exact .inl rfl
      | some w => exact .inr (by simp [Activity.condition])
    | begin entered => cases hwc
    | statementSnapshot xid entered => cases hwc
    | _ => cases hm
  rcases hfin with hfin | hcond
  · exact ha a (List.mem_of_getElem? ht) b (List.mem_of_getElem? hu) hfin hres.1
  · exact hne (Mutex.depth_unique (by rw [h2]; exact hcond) hc)

theorem run_apart : ∀ (events : List ThreadEvent) (s : ManagersState), Held s → Apart s → s.keepsOrderAlong events = true →
    Held (s.run events) ∧ Apart (s.run events)
  | [], _, h, ha, _               => ⟨h, ha⟩
  | event :: events, s, h, ha, ho => by
    simp only [keepsOrderAlong, Bool.and_eq_true] at ho
    exact run_apart events _ (h.step event) (ha.step event ho.1) ho.2

/-- **While commits and aborts keep out of the way of the handler, there is no mutex cycle.** -/
theorem no_mutex_cycle (threads : Nat) (events : List ThreadEvent) (ho : (start threads).keepsOrderAlong events = true) :
    ¬ MutexCycle ((start threads).run events) := by
  have hapart : Apart (start threads) := fun a ha _ _ hf => by
    rw [List.eq_of_mem_replicate ha] at hf
    cases hf
  obtain ⟨h, ha⟩ := run_apart events _ (held_start threads) hapart ho
  exact no_cycle h ha

/-- Three sessions begin; the first two wait for each other's row. -/
def crossedWaits : List ThreadEvent :=
  [.call 0 .begin, .run 0 false, .run 0 false, .call 1 .begin, .run 1 false, .run 1 false, .call 2 .begin,
    .run 2 false, .run 2 false,
    .call 0 (.acquire 2 (.tuple 1 ⟨0, 0⟩)), .run 0 false, .run 0 false, .run 0 false,
    .call 1 (.acquire 3 (.tuple 1 ⟨0, 1⟩)), .run 1 false, .run 1 false, .run 1 false,
    .call 0 (.acquire 2 (.tuple 1 ⟨0, 1⟩)), .run 0 false, .run 0 false, .run 0 false,
    .call 1 (.acquire 3 (.tuple 1 ⟨0, 0⟩)), .run 1 false, .run 1 false]

theorem no_mutex_cycle_deadlock : ¬ MutexCycle ((start 3).run (crossedWaits ++ [.run 1 false, .run 1 false, .run 1 false])) :=
  no_mutex_cycle 3 (crossedWaits ++ [.run 1 false, .run 1 false, .run 1 false]) (by decide)

/-- **The third session commits while the second resolves the deadlock**: each waits for the other's mutex. -/
theorem commit_meets_deadlock : MutexCycle ((start 3).run
    (crossedWaits ++ [.call 2 (.commit 4), .run 2 false, .run 1 false, .run 2 false])) :=
  ⟨2, 1, .finish (.commit 4) .releasing none, .finish (.abort 3) .entering
    (some (3, .tuple 1 ⟨0, 0⟩)), by decide, by decide, by decide,
    by decide, by decide, by decide, by decide⟩

end ManagersState

end MiniPostgres
