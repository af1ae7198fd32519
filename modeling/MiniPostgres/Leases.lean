import MiniPostgres.Types
/-!
# Leases — writers and physical maintenance

`maintenance/coordinator.py` and the statements of `engine.py` that go through it: `_dispatch` takes a writer lease around an
INSERT, UPDATE or DELETE, `_vacuum` takes a maintenance lease around each table, and `_explain` runs the executor of an
`EXPLAIN ANALYZE` with no lease.  Each session is a thread; a call whose thread would wait changes nothing.
-/
namespace MiniPostgres

/-! ## The coordinator -/

/-- `_TableState`. -/
structure MaintenanceState where
  writers            : Nat := 0
  maintenanceActive  : Bool := false
  maintenanceWaiters : Nat := 0
  deriving DecidableEq

structure MaintenanceLease where
  tableId     : Nat
  maintenance : Bool
  released    : Bool := false
  deriving DecidableEq

/-- The states by table; `_state` makes a new one for a table it has not seen. -/
abbrev MaintenanceCoordinator := Nat → MaintenanceState

namespace MaintenanceCoordinator

def new : MaintenanceCoordinator := fun _ => {}

/-- `acquire_writer`; `none` while the thread waits. -/
def acquireWriter (c : MaintenanceCoordinator) (tableId : Nat) : Option (MaintenanceCoordinator × MaintenanceLease) :=
  if (c tableId).maintenanceActive = false ∧ (c tableId).maintenanceWaiters = 0 then
    some (Function.update c tableId { c tableId with writers := (c tableId).writers + 1 }, ⟨tableId, false, false⟩)
  else none

/-- The first half of `acquire_maintenance`: from here on the thread is among the waiters. -/
def requestMaintenance (c : MaintenanceCoordinator) (tableId : Nat) : MaintenanceCoordinator :=
  Function.update c tableId { c tableId with maintenanceWaiters := (c tableId).maintenanceWaiters + 1 }

/-- The `finally` of `acquire_maintenance`. -/
def leaveWaiters (c : MaintenanceCoordinator) (tableId : Nat) : MaintenanceCoordinator :=
  Function.update c tableId { c tableId with maintenanceWaiters := (c tableId).maintenanceWaiters - 1 }

/-- The second half of `acquire_maintenance`; `none` while the thread waits. -/
def acquireMaintenance (c : MaintenanceCoordinator) (tableId : Nat) : Option (MaintenanceCoordinator × MaintenanceLease) :=
  if (c tableId).maintenanceActive = false ∧ (c tableId).writers = 0 then
    some (leaveWaiters (Function.update c tableId { c tableId with maintenanceActive := true }) tableId, ⟨tableId, true, false⟩)
  else none

def releaseLease (c : MaintenanceCoordinator) (tableId : Nat) (maintenance : Bool) : Result MaintenanceCoordinator :=
  if maintenance then
    if (c tableId).maintenanceActive = false then raise .runtimeError "maintenance lease is not active"
    else .ok (Function.update c tableId { c tableId with maintenanceActive := false })
  else
    if (c tableId).writers = 0 then raise .runtimeError "writer lease count underflow"
    else .ok (Function.update c tableId { c tableId with writers := (c tableId).writers - 1 })

end MaintenanceCoordinator

/-- `MaintenanceLease.release`: a released lease is released again without effect. -/
def MaintenanceLease.release (lease : MaintenanceLease) (c : MaintenanceCoordinator) :
    Result (MaintenanceCoordinator × MaintenanceLease) :=
  if lease.released then .ok (c, lease)
  else do
    let c ← c.releaseLease lease.tableId lease.maintenance
    .ok (c, { lease with released := true })

/-! ## Statements -/

inductive Modification
  | insert | update | delete
  deriving DecidableEq

/-- `BoundStatement`, as far as `_dispatch` and the planner look at it. -/
inductive Statement
  | createTable
  | createIndex (tableId : Nat)
  | analyze
  | select
  | modify (kind : Modification) (tableId : Nat)
  /-- The tables of a `VACUUM`: the one named, or all of the catalog. -/
  | vacuum (tables : List Nat)
  | explain (analyze : Bool) (statement : Statement)
  deriving DecidableEq

/-- The table whose rows the executor of the statement's plan modifies: `Planner.logical` looks through an EXPLAIN. -/
def Statement.modifies : Statement → Option Nat
  | .modify _ tableId    => some tableId
  | .explain _ statement => statement.modifies
  | _                    => none

/-- Where a session's thread stands. -/
inductive Running
  | idle
  | acquiringWriter (tableId : Nat)
  /-- In a modification executor, under a writer lease or, in `_explain`, without one. -/
  | modifying (tableId : Nat) (lease : Option MaintenanceLease)
  /-- In `_vacuum`, before the next table. -/
  | vacuuming (tables : List Nat)
  | acquiringMaintenance (tableId : Nat) (tables : List Nat)
  | maintaining (tableId : Nat) (lease : MaintenanceLease) (tables : List Nat)
  deriving DecidableEq

def Statement.dispatch : Statement → Running
  | .modify _ tableId        => .acquiringWriter tableId
  | .vacuum tables           => .vacuuming tables
  | .explain true statement  =>
    match statement.modifies with
    | some tableId => .modifying tableId none
    | none         => .idle
  | _                        => .idle

structure LeaseState where
  coordinator : MaintenanceCoordinator
  sessions    : List Running
  /-- Lease objects whose `with` block is over. -/
  leases      : List MaintenanceLease
  /-- The heap and index changes that modifications have made to each table. -/
  changes     : Nat → Nat

inductive LeaseCall
  | session
  | execute (i : Nat) (statement : Statement)
  /-- The thread goes on: it takes or requests a lease, or moves to the next table. -/
  | advance (i : Nat)
  /-- One heap or index change of a modification executor. -/
  | change (i : Nat)
  /-- The end of the statement's work under the lease, which may have raised. -/
  | finish (i : Nat) (raised : Bool)
  /-- An exception in a wait. -/
  | interrupt (i : Nat)
  | releaseAgain (k : Nat)

namespace LeaseState

def start : LeaseState := ⟨.new, [], [], fun _ => 0⟩

def setSession (s : LeaseState) (i : Nat) (r : Running) : LeaseState := { s with sessions := s.sessions.set i r }

/-- `__exit__` of a lease, and the session goes on with `r`; if the release raises, the statement ends. -/
def exitLease (s : LeaseState) (i : Nat) (lease : MaintenanceLease) (r : Running) : LeaseState :=
  match lease.release s.coordinator with
  | .ok (c, lease) => { s.setSession i r with coordinator := c, leases := s.leases ++ [lease] }
  | .error _       => s.setSession i .idle

def advance (s : LeaseState) (i : Nat) : LeaseState :=
  match s.sessions[i]? with
  | some (.acquiringWriter t) =>
    match s.coordinator.acquireWriter t with
    | some (c, lease) => { s.setSession i (.modifying t (some lease)) with coordinator := c }
    | none            => s
  | some (.vacuuming []) => s.setSession i .idle
  | some (.vacuuming (t :: tables)) =>
    { s.setSession i (.acquiringMaintenance t tables) with coordinator := s.coordinator.requestMaintenance t }
  | some (.acquiringMaintenance t tables) =>
    match s.coordinator.acquireMaintenance t with
    | some (c, lease) => { s.setSession i (.maintaining t lease tables) with coordinator := c }
    | none            => s
  | _ => s

def step (s : LeaseState) : LeaseCall → LeaseState
  | .session => { s with sessions := s.sessions ++ [.idle] }
  | .execute i statement =>
    match s.sessions[i]? with
    | some .idle => s.setSession i statement.dispatch
    | _          => s
  | .advance i => s.advance i
  | .change i =>
    match s.sessions[i]? with
    | some (.modifying t _) => { s with changes := Function.update s.changes t (s.changes t + 1) }
    | _                     => s
  | .finish i raised =>
    match s.sessions[i]? with
    | some (.modifying _ (some lease))      => s.exitLease i lease .idle
    | some (.modifying _ none)              => s.setSession i .idle
    | some (.maintaining _ lease tables) => s.exitLease i lease (if raised then .idle else .vacuuming tables)
    | _ => s
  | .interrupt i =>
    match s.sessions[i]? with
    | some (.acquiringWriter _)        => s.setSession i .idle
    | some (.acquiringMaintenance t _) => { s.setSession i .idle with coordinator := s.coordinator.leaveWaiters t }
    | _ => s
  | .releaseAgain k =>
    match s.leases[k]? with
    | some lease =>
      match lease.release s.coordinator with
      | .ok (c, lease) => { s with coordinator := c, leases := s.leases.set k lease }
      | .error _       => s
    | none => s

def run (s : LeaseState) (calls : List LeaseCall) : LeaseState := calls.foldl step s

/-- A VACUUM of the table holds its maintenance lease. -/
def Maintained (s : LeaseState) (t : Nat) : Prop := ∃ (i : Nat) (lease : MaintenanceLease) (tables : List Nat),
  s.sessions[i]? = some (.maintaining t lease tables)

/-- The call is a change of the table by an executor that holds no lease. -/
def UnleasedChange (s : LeaseState) (c : LeaseCall) (t : Nat) : Prop :=
  ∃ i : Nat, c = .change i ∧ s.sessions[i]? = some (.modifying t none)

end LeaseState

/-! ## The counters -/

def Running.writes (t : Nat) : Running → Bool
  | .modifying u (some _) => u = t
  | _                     => false

def Running.maintains (t : Nat) : Running → Bool
  | .maintaining u _ _ => u = t
  | _                  => false

def Running.waits (t : Nat) : Running → Bool
  | .acquiringMaintenance u _ => u = t
  | _                         => false

/-- The lease of a running statement is the one its table asks for, and not released. -/
def Running.Leased : Running → Prop
  | .modifying t (some lease)  => lease = ⟨t, false, false⟩
  | .maintaining t lease _     => lease = ⟨t, true, false⟩
  | _                          => True

theorem countP_set_add {α : Type} {l : List α} {i : Nat} {old : α} (new : α) (p : α → Bool) (h : l[i]? = some old) :
    (l.set i new).countP p + (p old).toNat = l.countP p + (p new).toNat := by
  obtain ⟨hi, rfl⟩ := List.getElem?_eq_some_iff.1 h
  have hpos : p l[i] = true → 0 < l.countP p := fun hp => List.countP_pos_iff.2 ⟨_, List.getElem_mem hi, hp⟩
  rw [List.countP_set hi]
  cases hold : p l[i] with
  | false => cases p new <;> simp
  | true =>
    have := hpos hold
    cases p new <;> simp <;> omega

namespace LeaseState

/-- The counters of a table are those of the sessions that stand at it. -/
structure Counted (s : LeaseState) (t : Nat) : Prop where
  writers : (s.coordinator t).writers = s.sessions.countP (Running.writes t)
  active  : (s.coordinator t).maintenanceActive.toNat = s.sessions.countP (Running.maintains t)
  waiters : (s.coordinator t).maintenanceWaiters = s.sessions.countP (Running.waits t)
  apart   : (s.coordinator t).maintenanceActive = true → (s.coordinator t).writers = 0

theorem Counted.same {s s' : LeaseState} {t : Nat} (h : s.Counted t) (hc : s'.coordinator = s.coordinator)
    (hs : s'.sessions = s.sessions) : s'.Counted t := by
  obtain ⟨h1, h2, h3, h4⟩ := h
  exact ⟨by rw [hc, hs, h1], by rw [hc, hs, h2], by rw [hc, hs, h3], by rw [hc]; exact h4⟩

structure Inv (s : LeaseState) : Prop where
  counted : ∀ t, s.Counted t
  leased  : ∀ r ∈ s.sessions, r.Leased
  unheld  : ∀ lease ∈ s.leases, lease.released = true

theorem inv_start : Inv start := ⟨fun _ => ⟨rfl, rfl, rfl, fun h => by cases h⟩, by simp [start], by simp [start]⟩

/-- A session that stands at no table moves to where it stands at none, or leaves the counters of its table in step. -/
theorem Inv.moved {s s' : LeaseState} (h : Inv s) {i : Nat} {old new : Running} {t : Nat} {st : MaintenanceState}
    (hi : s.sessions[i]? = some old) (hs : s'.sessions = s.sessions.set i new)
    (hc : s'.coordinator = Function.update s.coordinator t st)
    (hwriters : st.writers + (old.writes t).toNat = (s.coordinator t).writers + (new.writes t).toNat)
    (hactive : st.maintenanceActive.toNat + (old.maintains t).toNat =
      (s.coordinator t).maintenanceActive.toNat + (new.maintains t).toNat)
    (hwaiters : st.maintenanceWaiters + (old.waits t).toNat = (s.coordinator t).maintenanceWaiters + (new.waits t).toNat)
    (hapart : st.maintenanceActive = true → st.writers = 0)
    (hother : ∀ u, u ≠ t → new.writes u = old.writes u ∧ new.maintains u = old.maintains u ∧ new.waits u = old.waits u)
    (hleased : new.Leased) (hl : ∀ lease ∈ s'.leases, lease.released = true) : Inv s' := by
  refine ⟨fun u => ?_, fun r hr => ?_, hl⟩
  · obtain ⟨h1, h2, h3, h4⟩ := h.counted u
    have c1 := countP_set_add new (Running.writes u) hi
    have c2 := countP_set_add new (Running.maintains u) hi
    have c3 := countP_set_add new (Running.waits u) hi
    by_cases hu : u = t
    · subst hu
      refine ⟨?_, ?_, ?_, ?_⟩ <;> rw [hc, Function.update_self]
      · rw [hs]; omega
      · rw [hs]; omega
      · rw [hs]; omega
      · exact hapart
    · obtain ⟨o1, o2, o3⟩ := hother u hu
      rw [o1] at c1
      rw [o2] at c2
      rw [o3] at c3
      refine ⟨?_, ?_, ?_, ?_⟩ <;> rw [hc, Function.update_of_ne hu]
      · rw [hs]; omega
      · rw [hs]; omega
      · rw [hs]; omega
      · exact h4
  · rw [hs] at hr
    rcases List.mem_or_eq_of_mem_set hr with hr | rfl
    · exact h.leased r hr
    · exact hleased

theorem Inv.held {s : LeaseState} (h : Inv s) {i : Nat} {r : Running} (hi : s.sessions[i]? = some r) : r.Leased :=
  h.leased r (List.mem_of_getElem? hi)

theorem Inv.idle {s : LeaseState} (h : Inv s) {i : Nat} {old new : Running} (hi : s.sessions[i]? = some old)
    (hn : ∀ u, new.writes u = old.writes u ∧ new.maintains u = old.maintains u ∧ new.waits u = old.waits u)
    (hl : new.Leased) : Inv (s.setSession i new) := by
  obtain ⟨n1, n2, n3⟩ := hn 0
  exact @Inv.moved s (s.setSession i new) h i old new 0 (s.coordinator 0) hi rfl (by simp [setSession]) (by rw [n1])
    (by rw [n2]) (by rw [n3])
    (h.counted 0).apart (fun u _ => hn u) hl h.unheld

/-- A session that goes on maintains its table: the maintenance flag is set. -/
theorem Inv.maintained {s : LeaseState} (h : Inv s) {t : Nat} (hm : s.Maintained t) :
    (s.coordinator t).maintenanceActive = true := by
  obtain ⟨i, lease, tables, hi⟩ := hm
  have hpos : 0 < s.sessions.countP (Running.maintains t) :=
    List.countP_pos_iff.2 ⟨_, List.mem_of_getElem? hi, by simp [Running.maintains]⟩
  have hactive := (h.counted t).active
  cases ha : (s.coordinator t).maintenanceActive with
  | true => rfl
  | false => rw [ha] at hactive; simp at hactive; omega

theorem Inv.writing {s : LeaseState} (h : Inv s) {i t : Nat} {lease : MaintenanceLease}
    (hi : s.sessions[i]? = some (.modifying t (some lease))) : 0 < (s.coordinator t).writers := by
  rw [(h.counted t).writers]
  exact List.countP_pos_iff.2 ⟨_, List.mem_of_getElem? hi, by simp [Running.writes]⟩

/-- The releases of `with` blocks never raise. -/
theorem Inv.exitWriter {s : LeaseState} (h : Inv s) {i t : Nat} {lease : MaintenanceLease}
    (hi : s.sessions[i]? = some (.modifying t (some lease))) : Inv (s.exitLease i lease .idle) := by
  have hlease : lease = ⟨t, false, false⟩ := h.held hi
  have hpos := h.writing hi
  subst hlease
  have hrel : MaintenanceLease.release ⟨t, false, false⟩ s.coordinator =
      .ok (Function.update s.coordinator t { s.coordinator t with writers := (s.coordinator t).writers - 1 },
        ⟨t, false, true⟩) := by
    simp [MaintenanceLease.release, MaintenanceCoordinator.releaseLease, Nat.ne_of_gt hpos]
    rfl
  unfold exitLease
  rw [hrel]
  refine h.moved hi rfl rfl ?_ ?_ ?_ ?_ (fun u hu => ?_) trivial (fun l hl => ?_)
  · simp [Running.writes]; omega
  · simp [Running.maintains]
  · simp [Running.waits]
  · intro ha
    have := (h.counted t).apart ha
    simp only; omega
  · simp [Running.writes, Running.maintains, Running.waits, Ne.symm hu]
  · rcases List.mem_append.1 hl with hl | hl
    · exact h.unheld l hl
    · rw [List.mem_singleton.1 hl]

theorem Inv.exitMaintenance {s : LeaseState} (h : Inv s) {i t : Nat} {lease : MaintenanceLease} {tables : List Nat}
    (hi : s.sessions[i]? = some (.maintaining t lease tables)) {r : Running} (hr : r = .idle ∨ r = .vacuuming tables) :
    Inv (s.exitLease i lease r) := by
  have hlease : lease = ⟨t, true, false⟩ := h.held hi
  have hact := h.maintained ⟨i, lease, tables, hi⟩
  subst hlease
  have hrel : MaintenanceLease.release ⟨t, true, false⟩ s.coordinator =
      .ok (Function.update s.coordinator t { s.coordinator t with maintenanceActive := false }, ⟨t, true, true⟩) := by
    simp [MaintenanceLease.release, MaintenanceCoordinator.releaseLease, hact]
    rfl
  unfold exitLease
  rw [hrel]
  have hnew : r.Leased ∧ ∀ u, r.writes u = false ∧ r.maintains u = false ∧ r.waits u = false := by
    rcases hr with rfl | rfl <;> exact ⟨trivial, fun u => ⟨rfl, rfl, rfl⟩⟩
  obtain ⟨hleased, hnone⟩ := hnew
  refine h.moved hi rfl rfl ?_ ?_ ?_ ?_ (fun u hu => ?_) hleased (fun l hl => ?_)
  · rw [(hnone t).1]; rfl
  · rw [(hnone t).2.1]; simp [Running.maintains, hact]
  · rw [(hnone t).2.2]; rfl
  · intro ha; cases ha
  · rw [(hnone u).1, (hnone u).2.1, (hnone u).2.2]
    simp [Running.writes, Running.maintains, Running.waits, Ne.symm hu]
  · rcases List.mem_append.1 hl with hl | hl
    · exact h.unheld l hl
    · rw [List.mem_singleton.1 hl]

theorem inv_advance {s : LeaseState} (h : Inv s) (i : Nat) : Inv (s.advance i) := by
  unfold advance
  split
  · rename_i t hi
    unfold MaintenanceCoordinator.acquireWriter
    split
    · rename_i c lease hacq
      split at hacq
      · rename_i hfree
        cases hacq
        refine h.moved hi rfl rfl ?_ ?_ ?_ ?_ (fun u hu => ?_) rfl h.unheld
        · simp [Running.writes]
        · simp [Running.maintains]
        · simp [Running.waits]
        · intro ha
          rw [hfree.1] at ha
          cases ha
        · simp [Running.writes, Running.maintains, Running.waits, Ne.symm hu]
      · cases hacq
    · exact h
  · rename_i hi
    exact h.idle hi (fun u => ⟨rfl, rfl, rfl⟩) trivial
  · rename_i t tables hi
    refine h.moved hi rfl rfl ?_ ?_ ?_ ?_ (fun u hu => ?_) trivial h.unheld
    · simp [Running.writes]
    · simp [Running.maintains]
    · simp [Running.waits]
    · exact (h.counted t).apart
    · simp [Running.writes, Running.maintains, Running.waits, Ne.symm hu]
  · rename_i t tables hi
    unfold MaintenanceCoordinator.acquireMaintenance
    split
    · rename_i c lease hacq
      split at hacq
      · rename_i hfree
        cases hacq
        have hpos : 0 < (s.coordinator t).maintenanceWaiters := by
          rw [(h.counted t).waiters]
          exact List.countP_pos_iff.2 ⟨_, List.mem_of_getElem? hi, by simp [Running.waits]⟩
        refine h.moved hi rfl (Function.update_idem ..) ?_ ?_ ?_ ?_ (fun u hu => ?_) rfl h.unheld
        · simp [Running.writes]
        · simp [Running.maintains, hfree.1]
        · simp [Running.waits]; omega
        · intro _
          simpa using hfree.2
        · simp [Running.writes, Running.maintains, Running.waits, Ne.symm hu]
      · cases hacq
    · exact h
  · exact h

theorem inv_step {s : LeaseState} (h : Inv s) (c : LeaseCall) : Inv (s.step c) := by
  cases c with
  | session =>
    refine ⟨fun t => ?_, fun r hr => ?_, h.unheld⟩
    · obtain ⟨h1, h2, h3, h4⟩ := h.counted t
      refine ⟨?_, ?_, ?_, h4⟩ <;> simp only [step, List.countP_append]
      · rw [h1]; rfl
      · rw [h2]; rfl
      · rw [h3]; rfl
    · rcases List.mem_append.1 hr with hr | hr
      · exact h.leased r hr
      · rw [List.mem_singleton.1 hr]; trivial
  | execute i statement =>
    simp only [step]
    split
    · rename_i hi
      refine h.idle hi (fun u => ?_) ?_
      · unfold Statement.dispatch
        split
        · exact ⟨rfl, rfl, rfl⟩
        · exact ⟨rfl, rfl, rfl⟩
        · split <;> exact ⟨rfl, rfl, rfl⟩
        · exact ⟨rfl, rfl, rfl⟩
      · unfold Statement.dispatch
        split
        · trivial
        · trivial
        · split <;> trivial
        · trivial
    · exact h
  | advance i => exact inv_advance h i
  | change i =>
    simp only [step]
    split
    · exact ⟨fun t => (h.counted t).same rfl rfl, h.leased, h.unheld⟩
    · exact h
  | finish i raised =>
    simp only [step]
    split
    · rename_i hi
      exact h.exitWriter hi
    · rename_i hi
      exact h.idle hi (fun u => ⟨rfl, rfl, rfl⟩) trivial
    · rename_i hi
      refine h.exitMaintenance hi ?_
      cases raised
      · exact Or.inr rfl
      · exact Or.inl rfl
    · exact h
  | interrupt i =>
    simp only [step]
    split
    · rename_i hi
      exact h.idle hi (fun u => ⟨rfl, rfl, rfl⟩) trivial
    · rename_i t tables hi
      have hpos : 0 < (s.coordinator t).maintenanceWaiters := by
        rw [(h.counted t).waiters]
        exact List.countP_pos_iff.2 ⟨_, List.mem_of_getElem? hi, by simp [Running.waits]⟩
      refine h.moved hi rfl rfl ?_ ?_ ?_ ?_ (fun u hu => ?_) trivial h.unheld
      · simp [Running.writes]
      · simp [Running.maintains]
      · simp [Running.waits]; omega
      · exact (h.counted t).apart
      · simp [Running.writes, Running.maintains, Running.waits, Ne.symm hu]
    · exact h
  | releaseAgain k =>
    simp only [step]
    split
    · rename_i lease hk
      have hover := h.unheld lease (List.mem_of_getElem? hk)
      simp only [MaintenanceLease.release, hover, if_true]
      refine ⟨fun t => (h.counted t).same rfl rfl, h.leased, fun l hl => ?_⟩
      rcases List.mem_or_eq_of_mem_set hl with hl | rfl
      · exact h.unheld l hl
      · exact hover
    · exact h

theorem inv_run : ∀ (calls : List LeaseCall) {s : LeaseState}, Inv s → Inv (s.run calls)
  | [], _, h         => h
  | c :: calls, _, h => inv_run calls (inv_step h c)

/-- **A modification under a lease and a VACUUM of its table are apart.** -/
theorem Inv.leased_apart {s : LeaseState} (h : Inv s) {i t : Nat} {lease : MaintenanceLease}
    (hi : s.sessions[i]? = some (.modifying t (some lease))) : ¬ s.Maintained t := by
  intro hm
  have hpos := h.writing hi
  have hzero := (h.counted t).apart (h.maintained hm)
  omega

theorem changes_advance (s : LeaseState) (i : Nat) : (s.advance i).changes = s.changes := by
  unfold advance
  split
  · split <;> rfl
  · rfl
  · rfl
  · split <;> rfl
  · rfl

theorem changes_exitLease (s : LeaseState) (i : Nat) (lease : MaintenanceLease) (r : Running) :
    (s.exitLease i lease r).changes = s.changes := by
  unfold exitLease
  split <;> rfl

theorem changes_step {s : LeaseState} {c : LeaseCall} {t : Nat} (h : (s.step c).changes t ≠ s.changes t) :
    ∃ (i : Nat) (lease : Option MaintenanceLease), c = .change i ∧ s.sessions[i]? = some (.modifying t lease) := by
  cases c with
  | session => exact absurd rfl h
  | execute i statement =>
    simp only [step] at h
    split at h <;> exact absurd rfl h
  | advance i => exact absurd (congrFun (changes_advance s i) t) h
  | change i =>
    simp only [step] at h
    split at h
    · rename_i u lease hi
      by_cases hu : t = u
      · exact ⟨i, lease, rfl, by rw [hu]; exact hi⟩
      · exact absurd (Function.update_of_ne hu ..) h
    · exact absurd rfl h
  | finish i raised =>
    simp only [step] at h
    split at h
    · exact absurd (congrFun (changes_exitLease ..) t) h
    · exact absurd rfl h
    · exact absurd (congrFun (changes_exitLease ..) t) h
    · exact absurd rfl h
  | interrupt i =>
    simp only [step] at h
    split at h <;> exact absurd rfl h
  | releaseAgain k =>
    simp only [step] at h
    split at h
    · split at h <;> exact absurd rfl h
    · exact absurd rfl h

/-- **While a VACUUM of a table holds its lease no modification changes the table, exactly when no EXPLAIN ANALYZE of one
does.** -/
theorem vacuum_excludes_writers_iff (calls : List LeaseCall) :
    (∀ p c q, calls = p ++ c :: q → ∀ t, (start.run p).Maintained t →
      ((start.run p).step c).changes t = (start.run p).changes t) ↔
    ∀ p c q, calls = p ++ c :: q → ∀ t, (start.run p).UnleasedChange c t → ¬ (start.run p).Maintained t := by
  constructor
  · rintro h p c q hcalls t ⟨i, rfl, hi⟩ hm
    have hsame := h p _ q hcalls t hm
    simp only [step, hi, Function.update_self] at hsame
    omega
  · intro h p c q hcalls t hm
    by_contra hne
    obtain ⟨i, lease, rfl, hi⟩ := changes_step hne
    cases lease with
    | none => exact h p _ q hcalls t ⟨i, rfl, hi⟩ hm
    | some lease => exact (inv_run p inv_start).leased_apart hi hm

/-- A VACUUM of table 1 takes its lease, then another session runs EXPLAIN ANALYZE of an INSERT into it. -/
def explainDuringVacuum : List LeaseCall :=
  [.session, .session, .execute 0 (.vacuum [1]), .advance 0, .advance 0, .execute 1 (.explain true (.modify .insert 1))]

theorem explain_changes_under_vacuum :
    (start.run explainDuringVacuum).sessions[0]? = some (.maintaining 1 ⟨1, true, false⟩ []) ∧
    ((start.run explainDuringVacuum).step (.change 1)).changes 1 ≠ (start.run explainDuringVacuum).changes 1 := by
  decide +kernel

end LeaseState
end MiniPostgres
