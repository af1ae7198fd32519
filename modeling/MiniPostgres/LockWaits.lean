import MiniPostgres.Index
import MiniPostgres.WaitGraph
/-!
# LockWaits — the lock manager with its waiting threads

`transaction/locks.py` whole: owners, queues, the locks each transaction records as its own, the deadlock victim, and the
condition variable.  A critical section is one step: a call of `acquire` runs until it has the lock, raises or parks, and a
parked call goes on after a notification.  A session runs one statement at a time, so a transaction has one call under way.

Three fields record what the code does not: the order of arrivals, its clock, and whose locks were released last.
-/
namespace MiniPostgres

inductive LockKey
  | tuple (tableId : Nat) (tid : TID)
  | uniqueKey (indexId : Nat) (encodedKey : Key)
  deriving DecidableEq

/-- `LockManager`, and what it reads and writes of the `Transaction` objects.  A call of `acquire` under way is parked, or
runs, or has been notified. -/
structure LockManagerState where
  owners       : LockKey → Option Nat
  queues       : LockKey → List Nat
  queueKeys    : List LockKey
  transactions : List Nat
  state        : Nat → TransactionState
  resources    : Nat → List LockKey
  calls        : Nat → Option (LockKey × Bool)
  released     : Nat → Bool
  arrived      : Nat → Nat
  clock        : Nat

namespace LockManagerState

def new : LockManagerState :=
  ⟨fun _ => none, fun _ => [], [], [], fun _ => .active, fun _ => [], fun _ => none, fun _ => false, fun _ => 0, 0⟩

/-- The entries of one queue: each waiter is blocked by the owner and by those before it. -/
def queueEdges : List Nat → List Nat → List (Nat × List Nat)
  | _, []                  => []
  | blockers, waiter :: ws => (waiter, blockers) :: queueEdges (blockers ++ [waiter]) ws

def waitGraph (s : LockManagerState) : WaitForGraph :=
  ⟨s.queueKeys.flatMap (fun resource => queueEdges (s.owners resource).toList (s.queues resource))⟩

def endCall (s : LockManagerState) (xid : Nat) : LockManagerState := { s with calls := Function.update s.calls xid none }

def park (s : LockManagerState) (xid : Nat) (resource : LockKey) : LockManagerState :=
  { s with calls := Function.update s.calls xid (some (resource, true)) }

/-- `release_all`, with `notify_all`. -/
def releaseAll (s : LockManagerState) (xid : Nat) : LockManagerState :=
  { s with
    owners := fun resource =>
      if resource ∈ s.resources xid ∧ s.owners resource = some xid then none else s.owners resource
    resources := Function.update s.resources xid []
    queues := fun resource => (s.queues resource).erase xid
    transactions := s.transactions.filter (fun x => x ≠ xid)
    calls := fun x => (s.calls x).map (fun call => (call.1, false))
    released := Function.update s.released xid true }

def leave (s : LockManagerState) (xid : Nat) (state : TransactionState) : LockManagerState :=
  { s with state := Function.update s.state xid state }.releaseAll xid

def victimState (handler : Bool) : TransactionState := if handler then .aborted else .failed

/-- `_abort_victim`: the handler of the transaction manager marks the victim failed and aborts it; without one the victim is
marked failed and its locks are released. -/
def abortVictim (handler : Bool) (s : LockManagerState) (xid : Nat) : Result LockManagerState :=
  if xid ∉ s.transactions then .ok s
  else if s.state xid ≠ .active then raise .transactionAborted "transaction is not active"
  else .ok (s.leave xid (victimState handler))

/-- The loop of `acquire`, up to its next wait. -/
def contend (handler : Bool) (s : LockManagerState) (xid : Nat) (resource : LockKey) : LockManagerState × Option Error :=
  if s.owners resource = none ∧ (s.queues resource).head? = some xid then
    ({ s with
        queues := Function.update s.queues resource (s.queues resource).tail
        owners := Function.update s.owners resource (some xid)
        resources := Function.update s.resources xid ((s.resources xid).insert resource)
        calls := Function.update s.calls xid none }, none)
  else
    match s.waitGraph.deadlockVictim with
    | none        => (s.park xid resource, none)
    | some victim =>
      match s.abortVictim handler victim with
      | .error e => (s.endCall xid, some e)
      | .ok s'   =>
        if victim = xid then (s'.endCall xid, some ⟨.deadlockDetected, "transaction selected as deadlock victim"⟩)
        else (s'.park xid resource, none)

/-- `acquire` up to its loop: the caller is registered and queued. -/
def enter (s : LockManagerState) (xid : Nat) (resource : LockKey) : LockManagerState :=
  let s := { s with transactions := s.transactions.insert xid, released := Function.update s.released xid false }
  if xid ∈ s.queues resource then { s with calls := Function.update s.calls xid (some (resource, false)) }
  else
    { s with
      queues := Function.update s.queues resource (s.queues resource ++ [xid])
      queueKeys := s.queueKeys.insert resource
      calls := Function.update s.calls xid (some (resource, false))
      arrived := Function.update s.arrived xid s.clock
      clock := s.clock + 1 }

/-- The owner comes again. -/
def reenter (s : LockManagerState) (xid : Nat) (resource : LockKey) : LockManagerState :=
  { s with
    transactions := s.transactions.insert xid
    released := Function.update s.released xid false
    resources := Function.update s.resources xid ((s.resources xid).insert resource) }

end LockManagerState

/-- A session calls `acquire`; a notified call gets the mutex back; a session calls `release_all`, or ends its transaction,
or a statement of it fails. -/
inductive LockCall
  | acquire (xid : Nat) (resource : LockKey)
  | resume (xid : Nat)
  | release (xid : Nat)
  | commit (xid : Nat)
  | rollback (xid : Nat)
  | fail (xid : Nat)
  deriving DecidableEq

namespace LockManagerState

variable (handler : Bool)

def step (s : LockManagerState) : LockCall → LockManagerState
  | .acquire xid resource =>
    if s.calls xid ≠ none ∨ s.state xid ≠ .active then s
    else if s.owners resource = some xid then s.reenter xid resource
    else ((s.enter xid resource).contend handler xid resource).1
  | .resume xid =>
    match s.calls xid with
    | some (resource, false) => if s.state xid ≠ .active then s.endCall xid else (s.contend handler xid resource).1
    | _                      => s
  | .release xid => if s.calls xid ≠ none then s else s.leave xid (s.state xid)
  | .commit xid => if s.calls xid ≠ none ∨ s.state xid ≠ .active then s else s.leave xid .committed
  | .rollback xid => if s.calls xid ≠ none ∨ s.state xid = .committed then s else s.leave xid .aborted
  | .fail xid =>
    if s.calls xid ≠ none ∨ s.state xid ≠ .active then s else { s with state := Function.update s.state xid .failed }

def run (s : LockManagerState) (calls : List LockCall) : LockManagerState := calls.foldl (step handler) s

/-! ## What holds in every state -/

/-- **The three records of ownership agree.** -/
structure Consistent (s : LockManagerState) : Prop where
  owner_has : ∀ r x, s.owners r = some x → r ∈ s.resources x
  owned     : ∀ r x, r ∈ s.resources x → s.owners r = some x
  nodup     : ∀ r, (s.queues r).Nodup
  not_owner : ∀ r x, x ∈ s.queues r → s.owners r ≠ some x
  one_queue : ∀ r r' x, x ∈ s.queues r → x ∈ s.queues r' → r = r'
  released  : ∀ x, s.released x = true → (∀ r, s.owners r ≠ some x) ∧ ∀ r, x ∉ s.queues r

/-- A queue lists calls of `acquire` under way, in the order of their arrival. -/
structure Inv (s : LockManagerState) : Prop where
  owner_has  : ∀ r x, s.owners r = some x → r ∈ s.resources x
  owned      : ∀ r x, r ∈ s.resources x → s.owners r = some x
  nodup      : ∀ r, (s.queues r).Nodup
  not_owner  : ∀ r x, x ∈ s.queues r → s.owners r ≠ some x
  called     : ∀ r x, x ∈ s.queues r → ∃ parked, s.calls x = some (r, parked)
  active     : ∀ r x, x ∈ s.queues r → s.state x = .active
  registered : ∀ r x, x ∈ s.queues r → x ∈ s.transactions
  queued     : ∀ r x parked, s.calls x = some (r, parked) → s.state x = .active → x ∈ s.queues r
  released   : ∀ x, s.released x = true → (∀ r, s.owners r ≠ some x) ∧ ∀ r, x ∉ s.queues r
  arrived    : ∀ r x, x ∈ s.queues r → s.arrived x < s.clock
  ordered    : ∀ r, (s.queues r).Pairwise (fun x y => s.arrived x < s.arrived y)

theorem Inv.consistent {s : LockManagerState} (h : Inv s) : Consistent s := by
  refine ⟨h.owner_has, h.owned, h.nodup, h.not_owner, fun r r' x hx hx' => ?_, h.released⟩
  obtain ⟨p, hp⟩ := h.called r x hx
  obtain ⟨p', hp'⟩ := h.called r' x hx'
  rw [hp] at hp'
  cases hp'
  rfl

theorem Inv.new : Inv new := by
  refine ⟨?_, ?_, ?_, ?_, ?_, ?_, ?_, ?_, ?_, ?_, ?_⟩ <;> simp [LockManagerState.new]

variable {s : LockManagerState} {x y : Nat} {r : LockKey}

theorem Inv.leave (h : Inv s) {st : TransactionState} (hc : s.calls x = none ∨ st ≠ .active) : Inv (s.leave x st) := by
  have hmem : ∀ r y, y ∈ (s.queues r).erase x ↔ y ≠ x ∧ y ∈ s.queues r := fun r y => (h.nodup r).mem_erase_iff
  refine ⟨fun r y ho => ?_, fun r y hr => ?_, fun r => (h.nodup r).erase x, fun r y hy ho => ?_, fun r y hy => ?_,
    fun r y hy => ?_, fun r y hy => ?_, fun r y p hp ha => ?_, fun y hy => ?_, fun r y hy => ?_, fun r => ?_⟩
  · simp only [LockManagerState.leave, releaseAll] at ho ⊢
    split at ho
    · cases ho
    · rename_i hn
      have hr := h.owner_has r y ho
      rw [Function.update_of_ne (fun (he : y = x) => hn ⟨he ▸ hr, he ▸ ho⟩)]
      exact hr
  · simp only [LockManagerState.leave, releaseAll] at hr ⊢
    by_cases hyx : y = x
    · rw [hyx, Function.update_self] at hr
      cases hr
    · rw [Function.update_of_ne hyx] at hr
      have ho := h.owned r y hr
      rw [if_neg, ho]
      rintro ⟨-, hox⟩
      rw [ho] at hox
      exact hyx (Option.some.inj hox)
  · simp only [LockManagerState.leave, releaseAll] at hy ho
    split at ho
    · cases ho
    · exact h.not_owner r y ((hmem r y).1 hy).2 ho
  · obtain ⟨p, hp⟩ := h.called r y ((hmem r y).1 hy).2
    exact ⟨false, by simp only [LockManagerState.leave, releaseAll, hp, Option.map_some]⟩
  · obtain ⟨hyx, hq⟩ := (hmem r y).1 hy
    simp only [LockManagerState.leave, releaseAll]
    rw [Function.update_of_ne hyx]
    exact h.active r y hq
  · obtain ⟨hyx, hq⟩ := (hmem r y).1 hy
    exact List.mem_filter.2 ⟨h.registered r y hq, by simpa using hyx⟩
  · simp only [LockManagerState.leave, releaseAll] at hp ha
    obtain ⟨⟨r', p'⟩, hp', he⟩ := Option.map_eq_some_iff.1 hp
    cases he
    by_cases hyx : y = x
    · rw [hyx, Function.update_self] at ha
      rcases hc with hc | hc
      · rw [hyx, hc] at hp'; cases hp'
      · exact absurd ha hc
    · rw [Function.update_of_ne hyx] at ha
      exact (hmem r' y).2 ⟨hyx, h.queued r' y p' hp' ha⟩
  · simp only [LockManagerState.leave, releaseAll] at hy ⊢
    by_cases hyx : y = x
    · subst hyx
      refine ⟨fun r ho => ?_, fun r hq => ((hmem r y).1 hq).1 rfl⟩
      split at ho
      · cases ho
      · rename_i hn
        exact hn ⟨h.owner_has r y ho, ho⟩
    · rw [Function.update_of_ne hyx] at hy
      obtain ⟨ho, hq⟩ := h.released y hy
      refine ⟨fun r ho' => ?_, fun r hq' => hq r ((hmem r y).1 hq').2⟩
      split at ho'
      · cases ho'
      · exact ho r ho'
  · exact h.arrived r y ((hmem r y).1 hy).2
  · exact (h.ordered r).sublist List.erase_sublist

/-- The victim waits in a queue, so it is registered and active. -/
theorem Inv.victim (h : Inv s) {v : Nat} (hv : s.waitGraph.deadlockVictim = some v) :
    s.abortVictim handler v = .ok (s.leave v (victimState handler)) := by
  have hmem : ∀ (queue blockers : List Nat), ∀ e ∈ queueEdges blockers queue, e.1 ∈ queue := by
    intro queue
    induction queue with
    | nil => intro _ e he; cases he
    | cons w ws ih =>
      intro blockers e he
      rcases List.mem_cons.1 he with rfl | he
      · exact List.mem_cons_self
      · exact List.mem_cons_of_mem _ (ih _ e he)
  obtain ⟨e, he, rfl⟩ := WaitForGraph.deadlockVictim_waits hv
  obtain ⟨r, -, hr⟩ := List.mem_flatMap.1 he
  have hq := hmem _ _ e hr
  unfold abortVictim
  rw [if_neg (not_not_intro (h.registered r _ hq)), if_neg (not_not_intro (h.active r _ hq))]

theorem Inv.endCall (h : Inv s) (hx : ∀ r, x ∉ s.queues r) : Inv (s.endCall x) := by
  refine ⟨h.owner_has, h.owned, h.nodup, h.not_owner, fun r y hy => ?_, h.active, h.registered, fun r y p hp ha => ?_,
    h.released, h.arrived, h.ordered⟩
  · obtain ⟨p, hp⟩ := h.called r y hy
    refine ⟨p, ?_⟩
    simp only [LockManagerState.endCall]
    rw [Function.update_of_ne (fun (he : y = x) => hx r (he ▸ hy)), hp]
  · simp only [LockManagerState.endCall] at hp
    by_cases hyx : y = x
    · rw [hyx, Function.update_self] at hp; cases hp
    · rw [Function.update_of_ne hyx] at hp
      exact h.queued r y p hp ha

theorem Inv.park (h : Inv s) {b : Bool} (hx : s.calls x = some (r, b)) : Inv (s.park x r) := by
  refine ⟨h.owner_has, h.owned, h.nodup, h.not_owner, fun r' y hy => ?_, h.active, h.registered, fun r' y p hp ha => ?_,
    h.released, h.arrived, h.ordered⟩
  · obtain ⟨p, hp⟩ := h.called r' y hy
    simp only [LockManagerState.park]
    by_cases hyx : y = x
    · subst hyx
      rw [hx] at hp
      cases hp
      exact ⟨true, Function.update_self ..⟩
    · exact ⟨p, by rw [Function.update_of_ne hyx, hp]⟩
  · simp only [LockManagerState.park] at hp
    by_cases hyx : y = x
    · subst hyx
      rw [Function.update_self] at hp
      cases hp
      exact h.queued r y b hx ha
    · rw [Function.update_of_ne hyx] at hp
      exact h.queued r' y p hp ha

theorem Inv.grant (h : Inv s) (ho : s.owners r = none) {rest : List Nat} (hq : s.queues r = x :: rest) :
    Inv { s with
      queues := Function.update s.queues r (s.queues r).tail
      owners := Function.update s.owners r (some x)
      resources := Function.update s.resources x ((s.resources x).insert r)
      calls := Function.update s.calls x none } := by
  have hx : x ∈ s.queues r := by rw [hq]; exact List.mem_cons_self
  have htail : (s.queues r).tail = rest := by rw [hq]; rfl
  have hxrest : x ∉ rest := by
    have hn := h.nodup r
    rw [hq] at hn
    exact (List.nodup_cons.1 hn).1
  have hone : ∀ r', x ∈ s.queues r' → r' = r := fun r' hx' => h.consistent.one_queue r' r x hx' hx
  have hmem : ∀ r' y, y ∈ Function.update s.queues r (s.queues r).tail r' → y ∈ s.queues r' ∧ y ≠ x := by
    intro r' y hy
    by_cases hr : r' = r
    · subst hr
      rw [Function.update_self, htail] at hy
      exact ⟨by rw [hq]; exact List.mem_cons_of_mem _ hy, fun he => hxrest (he ▸ hy)⟩
    · rw [Function.update_of_ne hr] at hy
      exact ⟨hy, fun he => hr (hone r' (he ▸ hy))⟩
  have hsub : ∀ r', (Function.update s.queues r (s.queues r).tail r').Sublist (s.queues r') := by
    intro r'
    by_cases hr : r' = r
    · rw [hr, Function.update_self]; exact List.tail_sublist _
    · rw [Function.update_of_ne hr]
  refine ⟨fun r' y hy => ?_, fun r' y hy => ?_, fun r' => (h.nodup r').sublist (hsub r'), fun r' y hy ho' => ?_,
    fun r' y hy => ?_, fun r' y hy => h.active r' y (hmem r' y hy).1, fun r' y hy => h.registered r' y (hmem r' y hy).1,
    fun r' y p hp ha => ?_, fun y hy => ?_, fun r' y hy => h.arrived r' y (hmem r' y hy).1,
    fun r' => (h.ordered r').sublist (hsub r')⟩
  · simp only [Function.update_apply] at hy ⊢
    by_cases hr : r' = r
    · rw [if_pos hr] at hy
      cases hy
      rw [if_pos rfl, hr]
      exact List.mem_insert_self
    · rw [if_neg hr] at hy
      split
      · rename_i hyx
        exact List.mem_insert_of_mem (hyx ▸ h.owner_has r' y hy)
      · exact h.owner_has r' y hy
  · simp only [Function.update_apply] at hy ⊢
    by_cases hyx : y = x
    · rw [if_pos hyx] at hy
      rcases List.mem_insert_iff.1 hy with he | hy
      · rw [if_pos he, hyx]
      · have hox := h.owned r' x hy
        rw [if_neg, hox, hyx]
        rintro rfl
        rw [ho] at hox
        cases hox
    · rw [if_neg hyx] at hy
      have hoy := h.owned r' y hy
      rw [if_neg, hoy]
      rintro rfl
      rw [ho] at hoy
      cases hoy
  · obtain ⟨hy', hyx⟩ := hmem r' y hy
    simp only [Function.update_apply] at ho'
    split at ho'
    · cases ho'; exact hyx rfl
    · exact h.not_owner r' y hy' ho'
  · obtain ⟨hy', hyx⟩ := hmem r' y hy
    obtain ⟨p, hp⟩ := h.called r' y hy'
    exact ⟨p, by simp only; rw [Function.update_of_ne hyx, hp]⟩
  · simp only at hp ha ⊢
    by_cases hyx : y = x
    · rw [hyx, Function.update_self] at hp; cases hp
    · rw [Function.update_of_ne hyx] at hp
      have hy := h.queued r' y p hp ha
      by_cases hr : r' = r
      · subst hr
        rw [Function.update_self, htail]
        rw [hq] at hy
        exact (List.mem_cons.1 hy).resolve_left hyx
      · rw [Function.update_of_ne hr]
        exact hy
  · obtain ⟨ho', hq'⟩ := h.released y hy
    refine ⟨fun r' hy' => ?_, fun r' hy' => hq' r' (hmem r' y hy').1⟩
    simp only [Function.update_apply] at hy'
    split at hy'
    · cases hy'; exact hq' r hx
    · exact ho' r' hy'

theorem not_mem_queues (h : Inv s) (hx : s.calls x = none) (r : LockKey) : x ∉ s.queues r := by
  intro hq
  obtain ⟨p, hp⟩ := h.called r x hq
  rw [hx] at hp
  cases hp

theorem enter_eq (h : Inv s) (hx : s.calls x = none) : s.enter x r =
    { s with
      transactions := s.transactions.insert x
      released := Function.update s.released x false
      queues := Function.update s.queues r (s.queues r ++ [x])
      queueKeys := s.queueKeys.insert r
      calls := Function.update s.calls x (some (r, false))
      arrived := Function.update s.arrived x s.clock
      clock := s.clock + 1 } := by
  unfold enter
  simp only
  rw [if_neg (not_mem_queues h hx r)]

theorem Inv.enter (h : Inv s) (hx : s.calls x = none) (ha : s.state x = .active) (ho : s.owners r ≠ some x) :
    Inv (s.enter x r) := by
  have hno := not_mem_queues h hx
  rw [enter_eq h hx]
  have hmem : ∀ r' y, y ∈ Function.update s.queues r (s.queues r ++ [x]) r' → (y ∈ s.queues r' ∧ y ≠ x) ∨ (y = x ∧ r' = r) := by
    intro r' y hy
    have hold : ∀ {r'}, y ∈ s.queues r' → y ∈ s.queues r' ∧ y ≠ x := fun hy => ⟨hy, fun he => hno _ (he ▸ hy)⟩
    by_cases hr : r' = r
    · subst hr
      rw [Function.update_self, List.mem_append, List.mem_singleton] at hy
      rcases hy with hy | hy
      · exact Or.inl (hold hy)
      · exact Or.inr ⟨hy, rfl⟩
    · rw [Function.update_of_ne hr] at hy
      exact Or.inl (hold hy)
  refine ⟨h.owner_has, h.owned, fun r' => ?_, fun r' y hy => ?_, fun r' y hy => ?_, fun r' y hy => ?_, fun r' y hy => ?_,
    fun r' y p hp hy => ?_, fun y hy => ?_, fun r' y hy => ?_, fun r' => ?_⟩
  · by_cases hr : r' = r
    · subst hr
      simp only [Function.update_self]
      exact List.nodup_append.2 ⟨h.nodup r', List.nodup_singleton x, fun a haq b hb he =>
        hno r' (by rw [List.mem_singleton] at hb; rw [← hb, ← he]; exact haq)⟩
    · simp only
      rw [Function.update_of_ne hr]
      exact h.nodup r'
  · rcases hmem r' y hy with ⟨hy, -⟩ | ⟨rfl, rfl⟩
    · exact h.not_owner r' y hy
    · exact ho
  · rcases hmem r' y hy with ⟨hy, hyx⟩ | ⟨rfl, rfl⟩
    · obtain ⟨p, hp⟩ := h.called r' y hy
      exact ⟨p, by simp only; rw [Function.update_of_ne hyx, hp]⟩
    · exact ⟨false, Function.update_self ..⟩
  · rcases hmem r' y hy with ⟨hy, -⟩ | ⟨rfl, rfl⟩
    · exact h.active r' y hy
    · exact ha
  · rcases hmem r' y hy with ⟨hy, -⟩ | ⟨rfl, rfl⟩
    · exact List.mem_insert_of_mem (h.registered r' y hy)
    · exact List.mem_insert_self
  · simp only at hp hy ⊢
    by_cases hyx : y = x
    · subst hyx
      rw [Function.update_self] at hp
      cases hp
      rw [Function.update_self]
      exact List.mem_append_right _ (List.mem_singleton_self _)
    · rw [Function.update_of_ne hyx] at hp
      have hq := h.queued r' y p hp hy
      by_cases hr : r' = r
      · subst hr
        rw [Function.update_self]
        exact List.mem_append_left _ hq
      · rw [Function.update_of_ne hr]
        exact hq
  · simp only at hy ⊢
    by_cases hyx : y = x
    · rw [hyx, Function.update_self] at hy; cases hy
    · rw [Function.update_of_ne hyx] at hy
      obtain ⟨ho', hq⟩ := h.released y hy
      refine ⟨ho', fun r' hq' => ?_⟩
      rcases hmem r' y hq' with ⟨hq', -⟩ | ⟨he, -⟩
      · exact hq r' hq'
      · exact hyx he
  · simp only
    rcases hmem r' y hy with ⟨hy, hyx⟩ | ⟨rfl, rfl⟩
    · rw [Function.update_of_ne hyx]
      have := h.arrived r' y hy
      omega
    · rw [Function.update_self]
      omega
  · -- the old entries keep their order, and the caller comes after all of them
    have hkeep : ∀ r', (s.queues r').Pairwise
        (fun a b => Function.update s.arrived x s.clock a < Function.update s.arrived x s.clock b) := by
      intro r'
      refine (h.ordered r').imp_of_mem (fun {a b} ha' hb' hab => ?_)
      rw [Function.update_of_ne (fun (he : a = x) => hno r' (he ▸ ha')),
        Function.update_of_ne (fun (he : b = x) => hno r' (he ▸ hb'))]
      exact hab
    by_cases hr : r' = r
    · subst hr
      simp only [Function.update_self]
      refine List.pairwise_append.2 ⟨hkeep r', List.pairwise_singleton _ _, fun a ha' b hb => ?_⟩
      rw [List.mem_singleton.1 hb, Function.update_self, Function.update_of_ne (fun (he : a = x) => hno r' (he ▸ ha'))]
      exact h.arrived r' a ha'
    · simp only
      rw [Function.update_of_ne hr]
      exact hkeep r'

theorem Inv.reenter (h : Inv s) (ho : s.owners r = some x) : Inv (s.reenter x r) := by
  have hr := h.owner_has r x ho
  have hres : Function.update s.resources x ((s.resources x).insert r) = s.resources := by
    rw [List.insert_of_mem hr, Function.update_eq_self]
  refine ⟨fun r' y hy => ?_, fun r' y hy => ?_, h.nodup, h.not_owner, h.called, h.active,
    fun r' y hy => List.mem_insert_of_mem (h.registered r' y hy), h.queued, fun y hy => ?_, h.arrived, h.ordered⟩
  · simp only [LockManagerState.reenter, hres]
    exact h.owner_has r' y hy
  · simp only [LockManagerState.reenter, hres] at hy
    exact h.owned r' y hy
  · refine h.released y ?_
    simp only [LockManagerState.reenter] at hy
    by_cases hyx : y = x
    · rw [hyx, Function.update_self] at hy; cases hy
    · rwa [Function.update_of_ne hyx] at hy

/-- **The ways a turn of `acquire` ends**: with the lock, parked, parked after the abort of another transaction, or aborted. -/
theorem contend_cases (h : Inv s) :
    (∃ rest, s.owners r = none ∧ s.queues r = x :: rest ∧ (s.contend handler x r).1 =
      { s with
        queues := Function.update s.queues r (s.queues r).tail
        owners := Function.update s.owners r (some x)
        resources := Function.update s.resources x ((s.resources x).insert r)
        calls := Function.update s.calls x none }) ∨
    (¬ (s.owners r = none ∧ (s.queues r).head? = some x) ∧
      ((s.waitGraph.deadlockVictim = none ∧ (s.contend handler x r).1 = s.park x r) ∨
        ∃ v, s.waitGraph.deadlockVictim = some v ∧ (s.contend handler x r).1 =
          if v = x then (s.leave v (victimState handler)).endCall x else (s.leave v (victimState handler)).park x r)) := by
  unfold contend
  by_cases hg : s.owners r = none ∧ (s.queues r).head? = some x
  · left
    rw [if_pos hg]
    obtain ⟨rest, hq⟩ := List.head?_eq_some_iff.1 hg.2
    exact ⟨rest, hg.1, hq, rfl⟩
  · right
    rw [if_neg hg]
    refine ⟨hg, ?_⟩
    cases hv : s.waitGraph.deadlockVictim with
    | none => exact Or.inl ⟨rfl, rfl⟩
    | some v =>
      refine Or.inr ⟨v, rfl, ?_⟩
      simp only [h.victim handler hv]
      split <;> rfl

theorem victimState_ne : victimState handler ≠ .active := by
  unfold victimState
  split <;> decide

theorem Inv.contend (h : Inv s) (hc : s.calls x = some (r, false)) : Inv (s.contend handler x r).1 := by
  rcases contend_cases handler h (x := x) (r := r) with ⟨rest, ho, hq, he⟩ | ⟨-, ⟨-, he⟩ | ⟨v, -, he⟩⟩
  · rw [he]
    exact h.grant ho hq
  · rw [he]
    exact h.park hc
  · rw [he]
    have hl := h.leave (x := v) (Or.inr (victimState_ne handler))
    split
    · rename_i hvx
      subst hvx
      exact hl.endCall (hl.released v (Function.update_self ..)).2
    · exact hl.park (b := false) (by simp only [LockManagerState.leave, releaseAll, hc, Option.map_some])

theorem Inv.step (h : Inv s) (c : LockCall) : Inv (s.step handler c) := by
  cases c with
  | acquire x r =>
    simp only [LockManagerState.step]
    split
    · exact h
    · rename_i hn
      rw [not_or, not_not, not_not] at hn
      split
      · rename_i ho
        exact h.reenter ho
      · rename_i ho
        exact (h.enter hn.1 hn.2 ho).contend handler (by rw [enter_eq h hn.1]; exact Function.update_self ..)
  | resume x =>
    simp only [LockManagerState.step]
    split
    · rename_i r hc
      split
      · rename_i hs
        exact h.endCall (fun r' hq => hs (h.active r' x hq))
      · exact h.contend handler hc
    · exact h
  | release x =>
    simp only [LockManagerState.step]
    split
    · exact h
    · rename_i hc
      exact h.leave (Or.inl (not_not.1 hc))
  | commit x =>
    simp only [LockManagerState.step]
    split
    · exact h
    · exact h.leave (Or.inr (by decide))
  | rollback x =>
    simp only [LockManagerState.step]
    split
    · exact h
    · exact h.leave (Or.inr (by decide))
  | fail x =>
    simp only [LockManagerState.step]
    split
    · exact h
    · rename_i hn
      rw [not_or, not_not, not_not] at hn
      have hne : ∀ r y, y ∈ s.queues r → y ≠ x := fun r y hy he => not_mem_queues h hn.1 r (he ▸ hy)
      refine ⟨h.owner_has, h.owned, h.nodup, h.not_owner, h.called, fun r y hy => ?_, h.registered, fun r y p hp ha => ?_,
        h.released, h.arrived, h.ordered⟩
      · simp only
        rw [Function.update_of_ne (hne r y hy)]
        exact h.active r y hy
      · simp only at hp ha
        by_cases hyx : y = x
        · rw [hyx, hn.1] at hp; cases hp
        · rw [Function.update_of_ne hyx] at ha
          exact h.queued r y p hp ha

theorem Inv.run : ∀ (calls : List LockCall) {s : LockManagerState}, Inv s → Inv (s.run handler calls)
  | [], _, h => h
  | c :: calls, _, h => Inv.run calls (h.step handler c)

/-! ## First come, first served -/

/-- Who gets a lock in this step had waited for it, or asks for it now, and everyone still waiting arrived later. -/
def FairStep (s : LockManagerState) (c : LockCall) : Prop :=
  ∀ r x, s.owners r ≠ some x → (s.step handler c).owners r = some x →
    (x ∈ s.queues r ∨ c = .acquire x r) ∧
      ∀ y ∈ (s.step handler c).queues r, (s.step handler c).arrived x < (s.step handler c).arrived y

theorem leave_owners {st : TransactionState} {r : LockKey} {y : Nat} (ho : (s.leave x st).owners r = some y) :
    s.owners r = some y := by
  simp only [leave, releaseAll] at ho
  split at ho
  · cases ho
  · exact ho

/-- A turn of `acquire` gives a lock to its caller only, and to the first of the queue. -/
theorem contend_fair (h : Inv s) {r' : LockKey} {y : Nat} (hn : s.owners r' ≠ some y)
    (ho : (s.contend handler x r).1.owners r' = some y) : r' = r ∧ y = x ∧ x ∈ s.queues r ∧
      ∀ z ∈ (s.contend handler x r).1.queues r, (s.contend handler x r).1.arrived x < (s.contend handler x r).1.arrived z := by
  rcases contend_cases handler h (x := x) (r := r) with ⟨rest, -, hq, he⟩ | ⟨-, ⟨-, he⟩ | ⟨v, -, he⟩⟩
  · rw [he] at ho ⊢
    simp only [Function.update_apply] at ho
    split at ho
    · rename_i hr
      cases ho
      refine ⟨hr, rfl, by rw [hq]; exact List.mem_cons_self, fun z hz => ?_⟩
      simp only [Function.update_self, hq, List.tail_cons] at hz
      have hord := h.ordered r
      rw [hq] at hord
      exact (List.pairwise_cons.1 hord).1 z hz
    · exact absurd ho hn
  · rw [he] at ho
    exact absurd ho hn
  · rw [he] at ho
    split at ho
    · exact absurd (leave_owners ho) hn
    · exact absurd (leave_owners ho) hn

theorem Inv.fair (h : Inv s) (c : LockCall) : FairStep handler s c := by
  intro r y hn ho
  have hsame : ∀ {t : LockManagerState}, t.owners r = s.owners r → t.owners r = some y → False :=
    fun ht hy => hn (ht ▸ hy)
  cases c with
  | acquire x r₁ =>
    simp only [LockManagerState.step] at ho ⊢
    split at ho
    · exact absurd ho hn
    · rename_i hg
      rw [if_neg hg]
      rw [not_or, not_not, not_not] at hg
      split at ho
      · exact absurd ho hn
      · rename_i hown
        rw [if_neg hown]
        have hi := h.enter hg.1 hg.2 hown
        obtain ⟨rfl, rfl, -, hz⟩ := contend_fair handler hi (by rw [enter_eq h hg.1]; exact hn) ho
        exact ⟨Or.inr rfl, hz⟩
  | resume x =>
    simp only [LockManagerState.step] at ho ⊢
    cases hc : s.calls x with
    | none => rw [hc] at ho; exact absurd ho hn
    | some call =>
      obtain ⟨r₁, parked⟩ := call
      cases parked with
      | true => rw [hc] at ho; exact absurd ho hn
      | false =>
        rw [hc] at ho
        simp only at ho ⊢
        split at ho
        · exact absurd ho hn
        · rename_i hs
          rw [if_neg hs]
          obtain ⟨rfl, rfl, hq, hz⟩ := contend_fair handler h hn ho
          exact ⟨Or.inl hq, hz⟩
  | release x =>
    simp only [LockManagerState.step] at ho
    split at ho
    · exact absurd ho hn
    · exact absurd (leave_owners ho) hn
  | commit x =>
    simp only [LockManagerState.step] at ho
    split at ho
    · exact absurd ho hn
    · exact absurd (leave_owners ho) hn
  | rollback x =>
    simp only [LockManagerState.step] at ho
    split at ho
    · exact absurd ho hn
    · exact absurd (leave_owners ho) hn
  | fail x =>
    simp only [LockManagerState.step] at ho
    split at ho
    · exact absurd ho hn
    · exact absurd ho hn

/-- **In every reachable state the records of the lock manager agree, and locks are granted in the order of arrival.** -/
theorem lock_manager_consistent (calls : List LockCall) : (new.run handler calls).Consistent ∧
    ∀ c, FairStep handler (new.run handler calls) c :=
  ⟨(Inv.new.run handler calls).consistent, (Inv.new.run handler calls).fair handler⟩

/-! ## Wake-ups -/

/-- No call is parked, without a notification, at the head of the queue for a lock that nobody owns. -/
def NoLostWakeUp (s : LockManagerState) : Prop :=
  ∀ x r, s.calls x = some (r, true) → ¬ (s.owners r = none ∧ (s.queues r).head? = some x)

/-- A turn of `acquire` aborts another transaction, and without that one the lock is free and the caller first: it waits
without a look at this. -/
def overlooks (s : LockManagerState) (xid : Nat) (resource : LockKey) : Bool :=
  !(decide (s.owners resource = none) && decide ((s.queues resource).head? = some xid)) &&
    match s.waitGraph.deadlockVictim with
    | none        => false
    | some victim => decide (victim ≠ xid) && decide (s.owners resource = none ∨ s.owners resource = some victim) &&
        decide (((s.queues resource).erase victim).head? = some xid)

/-- The turn of `acquire` in this step, if there is one, overlooks nothing. -/
def keepsPace (s : LockManagerState) : LockCall → Bool
  | .acquire xid resource =>
    decide (s.calls xid ≠ none ∨ s.state xid ≠ .active ∨ s.owners resource = some xid) ||
      !(s.enter xid resource).overlooks xid resource
  | .resume xid =>
    match s.calls xid with
    | some (resource, false) => decide (s.state xid ≠ .active) || !s.overlooks xid resource
    | _                      => true
  | _ => true

def keepsPaceAlong : LockManagerState → List LockCall → Bool
  | _, []         => true
  | s, c :: calls => s.keepsPace c && keepsPaceAlong (s.step handler c) calls

theorem noLostWakeUp_leave {st : TransactionState} : NoLostWakeUp (s.leave x st) := by
  intro y r hc
  simp only [leave, releaseAll] at hc
  obtain ⟨_, -, he⟩ := Option.map_eq_some_iff.1 hc
  cases he

theorem NoLostWakeUp.endCall (h : NoLostWakeUp s) : NoLostWakeUp (s.endCall x) := by
  intro y r hc
  simp only [LockManagerState.endCall, Function.update_apply] at hc
  split at hc
  · cases hc
  · exact h y r hc

theorem NoLostWakeUp.enter (h : NoLostWakeUp s) (hi : Inv s) (hx : s.calls x = none) : NoLostWakeUp (s.enter x r) := by
  rw [enter_eq hi hx]
  rintro y r' hc ⟨ho, hh⟩
  simp only [Function.update_apply] at hc ho hh
  split at hc
  · cases hc
  · rename_i hyx
    split at hh
    · rename_i hr
      subst hr
      rw [List.head?_append] at hh
      cases hq : (s.queues r').head? with
      | none =>
        rw [hq] at hh
        exact hyx (Option.some.inj hh).symm
      | some z =>
        rw [hq] at hh
        exact h y r' hc ⟨ho, by rw [hq]; exact hh⟩
    · exact h y r' hc ⟨ho, hh⟩

theorem noLostWakeUp_park (h : NoLostWakeUp s) :
    NoLostWakeUp (s.park x r) ↔ ¬ (s.owners r = none ∧ (s.queues r).head? = some x) := by
  refine ⟨fun hp => hp x r (Function.update_self ..), fun hn y r' hc => ?_⟩
  simp only [park, Function.update_apply] at hc ⊢
  split at hc
  · rename_i hyx
    cases hc
    rw [hyx]
    exact hn
  · exact h y r' hc

theorem leave_free (hi : Inv s) {st : TransactionState} {v : Nat} :
    (s.leave v st).owners r = none ↔ s.owners r = none ∨ s.owners r = some v := by
  simp only [leave, releaseAll]
  split
  · rename_i hv
    exact iff_of_true rfl (Or.inr hv.2)
  · rename_i hv
    exact ⟨Or.inl, fun ho => ho.resolve_right (fun ho => hv ⟨hi.owner_has r v ho, ho⟩)⟩

/-- **A turn of `acquire` loses a wake-up exactly when it overlooks that it could go on.** -/
theorem noLostWakeUp_contend (h : NoLostWakeUp s) (hi : Inv s) :
    NoLostWakeUp (s.contend handler x r).1 ↔ s.overlooks x r = false := by
  unfold overlooks
  rcases contend_cases handler hi (x := x) (r := r) with ⟨rest, ho, hq, he⟩ | ⟨hn, hcases⟩
  · rw [he]
    refine iff_of_true ?_ (by simp [ho, hq])
    rintro y r' hc ⟨ho', hh⟩
    simp only [Function.update_apply] at hc ho' hh
    split at hc
    · cases hc
    · split at ho'
      · cases ho'
      · rename_i hr
        rw [if_neg hr] at hh
        exact h y r' hc ⟨ho', hh⟩
  · have hn' : (decide (s.owners r = none) && decide ((s.queues r).head? = some x)) = false := by
      rw [← Bool.decide_and]
      exact decide_eq_false hn
    rw [hn']
    rcases hcases with ⟨hv, he⟩ | ⟨v, hv, he⟩
    · rw [he, hv, noLostWakeUp_park h]
      exact iff_of_true hn rfl
    · rw [he, hv]
      by_cases hvx : v = x
      · rw [if_pos hvx]
        exact iff_of_true noLostWakeUp_leave.endCall (by simp [hvx])
      · rw [if_neg hvx, noLostWakeUp_park noLostWakeUp_leave, leave_free hi]
        simp only [leave, releaseAll, Bool.not_false, Bool.true_and, hvx, ne_eq, not_false_eq_true, decide_true,
          ← Bool.decide_and, decide_eq_false_iff_not]

theorem NoLostWakeUp.step (h : NoLostWakeUp s) (hi : Inv s) (c : LockCall) :
    NoLostWakeUp (s.step handler c) ↔ s.keepsPace c = true := by
  cases c with
  | acquire x r =>
    simp only [LockManagerState.step, keepsPace]
    by_cases hg : s.calls x ≠ none ∨ s.state x ≠ .active
    · rw [if_pos hg]
      exact iff_of_true h (by rw [Bool.or_eq_true, decide_eq_true_eq, ← or_assoc]; exact Or.inl (Or.inl hg))
    · rw [if_neg hg]
      by_cases ho : s.owners r = some x
      · rw [if_pos ho]
        exact iff_of_true h (by rw [Bool.or_eq_true, decide_eq_true_eq]; exact Or.inl (Or.inr (Or.inr ho)))
      · rw [if_neg ho]
        have hnot : ¬ (s.calls x ≠ none ∨ s.state x ≠ .active ∨ s.owners r = some x) := by
          rw [← or_assoc]
          exact fun hor => hor.elim hg ho
        rw [not_or, not_not, not_not] at hg
        rw [noLostWakeUp_contend handler (h.enter hi hg.1) (hi.enter hg.1 hg.2 ho), decide_eq_false hnot, Bool.false_or,
          Bool.not_eq_true']
  | resume x =>
    simp only [LockManagerState.step, keepsPace]
    cases hc : s.calls x with
    | none => exact iff_of_true h rfl
    | some call =>
      obtain ⟨r, parked⟩ := call
      cases parked with
      | true => exact iff_of_true h rfl
      | false =>
        simp only
        by_cases hs : s.state x ≠ .active
        · rw [if_pos hs]
          exact iff_of_true h.endCall (by rw [decide_eq_true hs]; rfl)
        · rw [if_neg hs, decide_eq_false hs, Bool.false_or, Bool.not_eq_true']
          exact noLostWakeUp_contend handler h hi
  | release x =>
    simp only [LockManagerState.step, keepsPace]
    split
    · exact iff_of_true h trivial
    · exact iff_of_true noLostWakeUp_leave trivial
  | commit x =>
    simp only [LockManagerState.step, keepsPace]
    split
    · exact iff_of_true h trivial
    · exact iff_of_true noLostWakeUp_leave trivial
  | rollback x =>
    simp only [LockManagerState.step, keepsPace]
    split
    · exact iff_of_true h trivial
    · exact iff_of_true noLostWakeUp_leave trivial
  | fail x =>
    simp only [LockManagerState.step, keepsPace]
    split
    · exact iff_of_true h trivial
    · exact iff_of_true h trivial

theorem NoLostWakeUp.run : ∀ (calls : List LockCall) {s : LockManagerState}, NoLostWakeUp s → Inv s →
    keepsPaceAlong handler s calls = true → NoLostWakeUp (s.run handler calls)
  | [], _, h, _, _ => h
  | c :: calls, s, h, hi, hk => by
    simp only [keepsPaceAlong, Bool.and_eq_true] at hk
    exact NoLostWakeUp.run calls ((NoLostWakeUp.step handler h hi c).2 hk.1) (hi.step handler c) hk.2

/-- **No wake-up is lost in a run without such a turn, and the first such turn loses one.** -/
theorem no_lost_wake_up (calls : List LockCall) (hk : keepsPaceAlong handler new calls = true) :
    NoLostWakeUp (new.run handler calls) ∧
      ∀ c, NoLostWakeUp ((new.run handler calls).step handler c) ↔ (new.run handler calls).keepsPace c = true := by
  have h := NoLostWakeUp.run handler calls (s := new) (fun x r hc => by cases hc) Inv.new hk
  exact ⟨h, NoLostWakeUp.step handler h (Inv.new.run handler calls)⟩

/-- Two transactions at one row: the second waits, is notified by the commit of the first, and gets the lock. -/
theorem no_lost_wake_up_two : NoLostWakeUp (new.run true [.acquire 2 (.tuple 1 ⟨0, 1⟩), .acquire 3 (.tuple 1 ⟨0, 1⟩),
    .commit 2, .resume 3]) :=
  (no_lost_wake_up true [.acquire 2 (.tuple 1 ⟨0, 1⟩), .acquire 3 (.tuple 1 ⟨0, 1⟩), .commit 2, .resume 3] (by decide)).1

/-- **A lost wake-up**: 3 waits for the row of 2, then 2 asks for the row of 3 and so aborts it; 2 parks at the head of the
queue for a row that nobody owns, the call of 3 raises, and no notification is under way. -/
theorem lost_wake_up : ¬ NoLostWakeUp (new.run true [.acquire 2 (.tuple 1 ⟨0, 1⟩), .acquire 3 (.tuple 1 ⟨0, 2⟩),
    .acquire 3 (.tuple 1 ⟨0, 1⟩), .acquire 2 (.tuple 1 ⟨0, 2⟩), .resume 3]) :=
  fun h => h 2 (.tuple 1 ⟨0, 2⟩) (by decide) (by decide)

end LockManagerState
end MiniPostgres
