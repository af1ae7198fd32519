import MiniPostgres.VacuumReturns
/-!
# VacuumRun — a vacuum among running statements

The threads of a database around one table: transactions, the statements that run in them with their snapshots, writer
leases, and one vacuum at a time in its own steps — the horizon, the lease request, the lease, then the two loops one
scanned version at a time.  A call whose thread would wait, or whose guard fails, changes nothing.

A statement reads the status table when it looks at a version.  So does the vacuum, and it may reclaim later than it looked:
`classify` notes the statuses it will classify with, `advance` handles the next version with them.
-/
namespace MiniPostgres

/-- Where the vacuum stands. -/
inductive VacuumPhase
  | idle
  /-- The horizon is computed, the lease not requested. -/
  | computed (horizon : Nat)
  /-- Inside `acquire_maintenance`. -/
  | waiting (horizon : Nat)
  | pruning (horizon : Nat) (versions todo : List (TID × TupleVersion)) (continuations : List TID) (seen : StatusTable)
      (p : Pruning)
  | sweeping (horizon : Nat) (todo : List (TID × TupleVersion)) (processed : List TID) (seen : StatusTable)
      (w : Sweeping)

def VacuumPhase.horizon : VacuumPhase → Nat
  | .idle              => 0
  | .computed h        => h
  | .waiting h         => h
  | .pruning h ..      => h
  | .sweeping h ..     => h

structure VacuumState where
  heap    : HeapState
  indexes : List IndexBinding
  /-- The snapshot of the statement that runs in each transaction. -/
  running : Nat → Option Snapshot
  /-- The transactions whose statement holds a writer lease. -/
  writers : List Nat
  vacuum  : VacuumPhase

def HeapCall.writer : HeapCall → Option Nat
  | .manager _            => none
  | .insertVersion x _    => some x
  | .replaceVersion x _ _ => some x
  | .deleteVersion x _    => some x
  | .replaceLive x _ _    => some x
  | .deleteLive x _       => some x

inductive VacuumCall
  | manager (c : TransactionManager.Call)
  | statement (xid : Nat)
  | endStatement (xid : Nat)
  | acquireWriter (xid : Nat)
  | releaseWriter (xid : Nat)
  /-- A version write of a running statement, under a lease, or without one as `EXPLAIN ANALYZE` makes it. -/
  | write (leased : Bool) (c : HeapCall)
  | indexes (bs : List IndexBinding)
  | computeHorizon
  | requestLease
  | acquireMaintenance
  | classify
  | advance

namespace VacuumState

def start (r : Recovered) (schema : Schema) : VacuumState := ⟨HeapState.start r schema, [], fun _ => none, [], .idle⟩

def statuses (s : VacuumState) : StatusTable := s.heap.manager.statuses

def setManager (s : VacuumState) (m : TransactionManager) : VacuumState := { s with heap := { s.heap with manager := m } }

def setTable (s : VacuumState) (t : HeapTable) : VacuumState := { s with heap := { s.heap with table := t } }

/-- A transaction ends between its statements, and takes snapshots through `statement`. -/
def allows (s : VacuumState) : TransactionManager.Call → Bool
  | .commit x            => (s.running x).isNone
  | .abort x             => (s.running x).isNone
  | .statementSnapshot _ => false
  | _                    => true

/-- The next version of the loop the vacuum is in; a vacuum that raises gives its lease back. -/
def advance (s : VacuumState) : VacuumState :=
  match s.vacuum with
  | .pruning h versions [] _ seen p =>
    { s with vacuum := .sweeping h versions p.processed seen ⟨s.heap.table, s.indexes, p.pruned, 0, p.bytes⟩ }
  | .pruning h versions (item :: todo) conts seen p =>
    match pruneStep s.indexes conts h seen { p with heap := s.heap.table } item with
    | .ok p'   => { s.setTable p'.heap with vacuum := .pruning h versions todo conts seen p' }
    | .error _ => { s with vacuum := .idle }
  | .sweeping _ [] _ _ _ => { s with vacuum := .idle }
  | .sweeping h (item :: todo) processed seen w =>
    match sweepStep processed h seen { w with heap := s.heap.table, indexes := s.indexes } item with
    | .ok w'   => { s.setTable w'.heap with indexes := w'.indexes, vacuum := .sweeping h todo processed seen w' }
    | .error _ => { s with vacuum := .idle }
  | _ => s

def step (s : VacuumState) : VacuumCall → VacuumState
  | .manager c =>
    if s.allows c then
      match s.heap.manager.call c with
      | .ok m    => s.setManager m
      | .error _ => s
    else s
  | .statement x =>
    if (s.running x).isNone then
      match s.heap.manager.statementSnapshot x with
      | .ok (m, sn) => { s.setManager m with running := Function.update s.running x (some sn) }
      | .error _    => s
    else s
  | .endStatement x => { s with running := Function.update s.running x none }
  | .acquireWriter x =>
    match s.vacuum with
    | .idle       => { s with writers := x :: s.writers }
    | .computed _ => { s with writers := x :: s.writers }
    | _           => s
  | .releaseWriter x => { s with writers := s.writers.erase x }
  | .write leased c =>
    match c.writer with
    | none   => s
    | some x =>
      if (s.running x).isSome ∧ (leased = true → x ∈ s.writers) then { s with heap := s.heap.step c } else s
  | .indexes bs => { s with indexes := bs }
  | .computeHorizon =>
    match s.vacuum with
    | .idle =>
      { s with vacuum := .computed (cleanupHorizon s.heap.manager.activeTransactions s.heap.manager.nextXid) }
    | _     => s
  | .requestLease =>
    match s.vacuum with
    | .computed h => { s with vacuum := .waiting h }
    | _           => s
  | .acquireMaintenance =>
    match s.vacuum with
    | .waiting h =>
      if s.writers = [] then
        let versions := s.heap.table.scanVersions
        { s with vacuum := .pruning h versions versions s.heap.table.continuations s.statuses ⟨s.heap.table, [], 0, 0⟩ }
      else s
    | _ => s
  | .classify =>
    match s.vacuum with
    | .pruning h versions todo conts _ p => { s with vacuum := .pruning h versions todo conts s.statuses p }
    | .sweeping h todo processed _ w     => { s with vacuum := .sweeping h todo processed s.statuses w }
    | _                                  => s
  | .advance => s.advance

def run (s : VacuumState) (calls : List VacuumCall) : VacuumState := calls.foldl step s

/-- **The snapshots in use**: of a running statement, or retained by an active transaction. -/
def InUse (s : VacuumState) (o : Nat) (sn : Snapshot) : Prop :=
  s.running o = some sn ∨
    (o ∈ s.heap.manager.active ∧ ∃ t, s.heap.manager.transactions o = some t ∧ t.repeatableSnapshot = some sn)

/-- **The horizon covers the snapshots in use**: none of them counts as unfinished a committed XID below the horizon that
deleted a stored version. -/
def Covers (s : VacuumState) : Prop :=
  ∀ o sn, s.InUse o sn → ∀ a v, s.heap.table.physicalVersion a = some v → s.statuses v.xmax = some .committed →
    v.xmax < s.vacuum.horizon → v.xmax < sn.xmax ∧ v.xmax ∉ sn.activeXids

end VacuumState

/-! ## What the vacuum still knows of a scanned version -/

/-- Every outcome of `seen` stands in `st`. -/
def Grown (seen st : StatusTable) : Prop := ∀ x o, seen x = some o → st x = some o

theorem classifyVersion_grown {seen st : StatusTable} (hg : Grown seen st) {v : TupleVersion} {h : Nat}
    (hd : classifyVersion v h seen = .dead) : classifyVersion v h st = .dead := by
  have hget : ∀ x o, o ≠ .inProgress → seen.get x = o → st.get x = o := by
    intro x o hne hx
    unfold StatusTable.get at hx ⊢
    cases hs : seen x with
    | none => rw [hs] at hx; exact absurd hx.symm hne
    | some o' => rw [hs] at hx; rw [hg x o' hs]; exact hx
  have hcreator : ∀ x o, o ≠ .inProgress → seen.creator x = o → st.creator x = o := by
    intro x o hne hx
    unfold StatusTable.creator at hx ⊢
    split
    · rename_i hsys
      rw [if_pos hsys] at hx
      exact hx
    · rename_i hsys
      rw [if_neg hsys] at hx
      exact hget x o hne hx
  unfold classifyVersion at hd ⊢
  split at hd
  · rename_i hc
    rw [if_pos ⟨hc.1, hcreator _ _ (by simp) hc.2⟩]
  · split at hd
    · rename_i hc
      obtain ⟨h0, h1, h2, h3, h4⟩ := hc
      split
      · rfl
      · rw [if_pos ⟨h0, h1, h2, hcreator _ _ (by simp) h3, hget _ _ (by simp) h4⟩]
    · cases hd

/-- The slot of a scanned version still holds it; its deleter changed only if it had none, or one that aborted. -/
def Edition (s : HeapState) (q : TID × TupleVersion) : Prop :=
  ∃ v, s.table.physicalVersion q.1 = some v ∧ v.xmin = q.2.xmin ∧
    (v.xmax = q.2.xmax ∨ q.2.xmax = 0 ∨ s.manager.statuses q.2.xmax = some .aborted)

theorem edition_stepped {live : Prop} {s s' : HeapState} (hi : TransactionManager.Inv s.manager)
    (hs : HeapStepped live s s') {q : TID × TupleVersion} (he : Edition s q) : Edition s' q := by
  obtain ⟨v, hv, hmin, hmax⟩ := he
  have hne : s.table.physicalVersion q.1 ≠ none := by rw [hv]; simp
  -- a version that may be written over has no deleter, or one that aborted
  have hover : ∀ {old : TupleVersion}, s.table.physicalVersion q.1 = some old →
      HeapTable.writable old s.manager.statuses = true → q.2.xmax = 0 ∨ s.manager.statuses q.2.xmax = some .aborted := by
    intro old hold hw
    rw [hv] at hold
    cases hold
    simp only [HeapTable.writable, decide_eq_true_eq] at hw
    rcases hmax with heq | hdone
    · rw [← heq]
      exact hw.imp_right get_eq_aborted.1
    · exact hdone
  cases hs with
  | same => exact ⟨v, hv, hmin, hmax⟩
  | manager m hm =>
    refine ⟨v, hv, hmin, hmax.imp_right (fun h => h.imp_right (fun hab => ?_))⟩
    rw [TransactionManager.status_later hi (by rw [hab]; simp) (.single hm), hab]
  | inserted x hx values table tid hins _ =>
    exact ⟨v, by rw [hins.keeps hne, hv], hmin, hmax⟩
  | replaced x hx values tid new old mid table hold hw _ hins hrew _ _ =>
    have hq : q.1 ≠ new := hins.ne hne
    by_cases hqt : q.1 = tid
    · subst hqt
      have hmin' := hv
      rw [hold] at hmin'
      cases hmin'
      refine ⟨⟨v.xmin, x, some new, v.values⟩, ?_, hmin, Or.inr (hover hold hw)⟩
      rw [hrew.versions, Function.update_self]
    · refine ⟨v, ?_, hmin, hmax⟩
      rw [hrew.versions, Function.update_of_ne hqt, hins.keeps hne, hv]
  | deleted x hx tid old table hold hw _ hrew _ =>
    by_cases hqt : q.1 = tid
    · subst hqt
      have hmin' := hv
      rw [hold] at hmin'
      cases hmin'
      refine ⟨⟨v.xmin, x, v.nextTid, v.values⟩, ?_, hmin, Or.inr (hover hold hw)⟩
      rw [hrew.versions, Function.update_self]
    · exact ⟨v, by rw [hrew.versions, Function.update_of_ne hqt, hv], hmin, hmax⟩

theorem edition_dead {s : HeapState} {q : TID × TupleVersion} {h : Nat}
    (hd : classifyVersion q.2 h s.manager.statuses = .dead) {v : TupleVersion} (hmin : v.xmin = q.2.xmin)
    (hmax : v.xmax = q.2.xmax ∨ q.2.xmax = 0 ∨ s.manager.statuses q.2.xmax = some .aborted) :
    classifyVersion v h s.manager.statuses = .dead := by
  unfold classifyVersion at hd ⊢
  rw [hmin]
  split at hd
  · rename_i hc
    rw [if_pos hc]
  · rename_i hc
    split at hd
    · rename_i hc'
      have hcom := TransactionManager.get_eq_committed.1 hc'.2.2.2.2
      rcases hmax with heq | h0 | hab
      · rw [heq, if_neg hc, if_pos hc']
      · exact absurd h0 hc'.1
      · rw [hab] at hcom; cases hcom
    · cases hd

/-! ## What one version of a loop can reclaim -/

/-- **One scanned version of the first loop**: the chains it walks are noted, other slots stay, and what goes is dead. -/
theorem pruneStep_frame {schema : Schema} {origin : TID → Nat} {n h : Nat} {st : StatusTable}
    {indexes : List IndexBinding} {conts : List TID} {p p' : Pruning} {root : TID × TupleVersion}
    (ho : KeepsOrder schema origin n p.heap) (hs : pruneStep indexes conts h st p root = .ok p') :
    (∀ a ∈ p.processed, a ∈ p'.processed) ∧
    (∀ a, a ∉ p'.processed → p'.heap.physicalVersion a = p.heap.physicalVersion a) ∧
    ∀ a v, p.heap.physicalVersion a = some v → p'.heap.physicalVersion a = none → classifyVersion v h st = .dead := by
  obtain ⟨sel, -, hs⟩ := bind_eq_ok.1 hs
  cases sel with
  | false =>
    cases hs
    exact ⟨fun _ h => h, fun _ _ => rfl, fun a v hv hn => by rw [hv] at hn; cases hn⟩
  | true =>
    obtain ⟨chain, hchain, hs⟩ := bind_eq_ok.1 hs
    obtain ⟨⟨heap, counts⟩, hprune, he⟩ := bind_eq_ok.1 hs
    cases he
    have hcomp := (HeapTable.versionChain_eq_ok hchain).1
    have hnd := hcomp.path.nodup ho.2.ranked
    cases hcomp with
    | cons _ rv l hrv hl =>
      simp only [HeapTable.pruneChain, hrv] at hprune
      have hlook := (HeapTable.pruneLoop_eq_ok l _ hl hnd hprune).1
      refine ⟨fun a ha => List.mem_append_right _ ha, fun a ha => ?_, fun a v hv hn => ?_⟩
      · simp only [List.map_cons, List.mem_append, List.mem_cons, not_or] at ha
        rw [hlook]
        exact HeapTable.prunedLook_other l _ _ rv ha.1.1 ha.1.2
      · rw [hlook] at hn
        obtain ⟨-, w, hw, hdead⟩ := mem_removableOf (HeapTable.prunedLook_none l _ _ rv hn (by rw [hv]; simp))
        have := hl.path.look_of_mem hw
        rw [hv] at this
        cases this
        exact hdead

/-! ## What every call keeps -/

/-- The vacuum's notes agree with the heap: a scanned version not yet handled is on a chain it walked, or still stored. -/
def VacuumPhase.Tracks (s : HeapState) : VacuumPhase → Prop
  | .pruning _ versions _ _ seen p => Grown seen s.manager.statuses ∧ (versions.map Prod.fst).Nodup ∧
      ∀ q ∈ versions, q.1 ∈ p.processed ∨ Edition s q
  | .sweeping _ todo processed seen _ => Grown seen s.manager.statuses ∧ (todo.map Prod.fst).Nodup ∧
      ∀ q ∈ todo, q.1 ∈ processed ∨ Edition s q
  | _ => True

structure VacuumInv (s : VacuumState) : Prop where
  manager : TransactionManager.Inv s.heap.manager
  ordered : s.heap.ordered
  running : ∀ o sn, s.running o = some sn → o ∈ s.heap.manager.active
  tracks  : s.vacuum.Tracks s.heap

theorem grown_stepped {live : Prop} {s s' : HeapState} (hi : TransactionManager.Inv s.manager)
    (hs : HeapStepped live s s') {seen : StatusTable} (hg : Grown seen s.manager.statuses) :
    Grown seen s'.manager.statuses := by
  intro x o hx
  have hst := hg x o hx
  rw [TransactionManager.status_later hi (by rw [hst]; simp) (manager_later (.single hs)), hst]

theorem tracks_stepped {live : Prop} {s s' : HeapState} (hi : TransactionManager.Inv s.manager)
    (hs : HeapStepped live s s') {phase : VacuumPhase} (h : phase.Tracks s) : phase.Tracks s' := by
  cases phase with
  | idle | computed _ | waiting _ => trivial
  | pruning h versions todo conts seen p =>
    obtain ⟨hg, hnd, hq⟩ := h
    exact ⟨grown_stepped hi hs hg, hnd, fun q hm => (hq q hm).imp_right (edition_stepped hi hs)⟩
  | sweeping h todo processed seen w =>
    obtain ⟨hg, hnd, hq⟩ := h
    exact ⟨grown_stepped hi hs hg, hnd, fun q hm => (hq q hm).imp_right (edition_stepped hi hs)⟩

namespace HeapState

theorem replaceVersion_manager {s s' : HeapState} {x : Nat} {tid : TID} {values : Values} {r : Option TID}
    (h : s.replaceVersion x tid values = .ok (s', r)) : s'.manager = s.manager := by
  obtain ⟨u, -, h⟩ := bind_eq_ok.1 h
  obtain ⟨⟨table, r'⟩, -, h⟩ := bind_eq_ok.1 h
  cases r' with
  | none => cases h; rfl
  | some new => cases h; rfl

theorem deleteVersion_manager {s s' : HeapState} {x : Nat} {tid : TID} {b : Bool}
    (h : s.deleteVersion x tid = .ok (s', b)) : s'.manager = s.manager := by
  obtain ⟨u, -, h⟩ := bind_eq_ok.1 h
  obtain ⟨⟨table, b'⟩, -, h⟩ := bind_eq_ok.1 h
  cases b' with
  | false => cases h; rfl
  | true => cases h; rfl

theorem step_manager (s : HeapState) {c : HeapCall} {x : Nat} (hc : c.writer = some x) :
    (s.step c).manager = s.manager := by
  unfold step
  split
  · rename_i s' hs
    cases c with
    | manager c => cases hc
    | insertVersion y v =>
      obtain ⟨⟨s₁, tid⟩, hr, he⟩ := bind_eq_ok.1 hs
      cases he
      obtain ⟨u, -, hr⟩ := bind_eq_ok.1 hr
      obtain ⟨⟨table, tid'⟩, -, he⟩ := bind_eq_ok.1 hr
      cases he
      rfl
    | replaceVersion y a v =>
      obtain ⟨⟨s₁, r⟩, hr, he⟩ := bind_eq_ok.1 hs
      cases he
      exact replaceVersion_manager hr
    | deleteVersion y a =>
      obtain ⟨⟨s₁, r⟩, hr, he⟩ := bind_eq_ok.1 hs
      cases he
      exact deleteVersion_manager hr
    | replaceLive y a v =>
      obtain ⟨⟨s₁, r⟩, hr, he⟩ := bind_eq_ok.1 hs
      cases he
      obtain ⟨live, -, hr⟩ := bind_eq_ok.1 hr
      cases live with
      | none => cases hr; rfl
      | some q => exact replaceVersion_manager hr
    | deleteLive y a =>
      obtain ⟨⟨s₁, r⟩, hr, he⟩ := bind_eq_ok.1 hs
      cases he
      obtain ⟨live, -, hr⟩ := bind_eq_ok.1 hr
      cases live with
      | none => cases hr; rfl
      | some q => exact deleteVersion_manager hr
  · rfl

end HeapState

namespace VacuumState

theorem vacuumInv_start (r : Recovered) (schema : Schema) : VacuumInv (start r schema) :=
  ⟨TransactionManager.inv_start r, TableState.ordered_start r schema, fun o sn h => (by cases h), trivial⟩

theorem vacuumInv_heap {s : VacuumState} (h : VacuumInv s) {heap : HeapState}
    (hs : HeapStepped False s.heap heap) {indexes : List IndexBinding} {running : Nat → Option Snapshot}
    {writers : List Nat} (hrun : ∀ o sn, running o = some sn → o ∈ heap.manager.active) :
    VacuumInv ⟨heap, indexes, running, writers, s.vacuum⟩ :=
  ⟨TransactionManager.inv_later h.manager (manager_later (.single hs)), ordered_stepped h.manager h.ordered hs, hrun,
    tracks_stepped h.manager hs h.tracks⟩

theorem vacuumInv_phase {s : VacuumState} (h : VacuumInv s) {indexes : List IndexBinding} {writers : List Nat}
    {phase : VacuumPhase} (ht : phase.Tracks s.heap) : VacuumInv ⟨s.heap, indexes, s.running, writers, phase⟩ :=
  ⟨h.manager, h.ordered, h.running, ht⟩

theorem vacuumInv_advance {s : VacuumState} (h : VacuumInv s) : VacuumInv s.advance := by
  unfold advance
  have ht := h.tracks
  split
  · rename_i hp
    rw [hp] at ht
    exact vacuumInv_phase h ht
  · rename_i hz versions item todo conts seen p hp
    rw [hp] at ht
    obtain ⟨hg, hnd, hq⟩ := ht
    split
    · rename_i p' hs
      have ho : KeepsOrder s.heap.table.schema s.heap.origin s.heap.log.length s.heap.table := ⟨rfl, h.ordered⟩
      obtain ⟨hsub, hsame, -⟩ := pruneStep_frame (p := { p with heap := s.heap.table }) ho hs
      obtain ⟨hschema, hord⟩ := pruneStep_keepsOrder (p := { p with heap := s.heap.table }) ho hs
      refine ⟨h.manager, ?_, h.running, hg, hnd, fun q hm => ?_⟩
      · unfold HeapState.ordered
        simp only [setTable, hschema]
        exact hord
      · by_cases hpq : q.1 ∈ p'.processed
        · exact Or.inl hpq
        · obtain ⟨v, hv, hrest⟩ := (hq q hm).resolve_left (fun hin => hpq (hsub q.1 hin))
          exact Or.inr ⟨v, by rw [setTable, hsame q.1 hpq]; exact hv, hrest⟩
    · exact vacuumInv_phase h trivial
  · exact vacuumInv_phase h trivial
  · rename_i hz item todo processed seen w hp
    rw [hp] at ht
    obtain ⟨hg, hnd, hq⟩ := ht
    rw [List.map_cons, List.nodup_cons] at hnd
    split
    · rename_i w' hs
      have ho : KeepsOrder s.heap.table.schema s.heap.origin s.heap.log.length s.heap.table := ⟨rfl, h.ordered⟩
      obtain ⟨hschema, hord⟩ :=
        sweepStep_keepsOrder (s := { w with heap := s.heap.table, indexes := s.indexes }) ho hs
      refine ⟨h.manager, ?_, h.running, hg, hnd.2, fun q hm => ?_⟩
      · unfold HeapState.ordered
        simp only [setTable, hschema]
        exact hord
      · refine (hq q (List.mem_cons_of_mem _ hm)).imp_right (fun ⟨v, hv, hrest⟩ => ⟨v, ?_, hrest⟩)
        have hne : q.1 ≠ item.1 := fun he => hnd.1 (he ▸ List.mem_map.2 ⟨q, hm, rfl⟩)
        rcases sweepStep_cases hs with ⟨rfl, -⟩ | ⟨-, -, -, hlook, -, -⟩
        · exact hv
        · rw [setTable, hlook, Function.update_of_ne hne]
          exact hv
    · exact vacuumInv_phase h trivial
  · exact h

/-- **Every call keeps the invariant.** -/
theorem vacuumInv_step {s : VacuumState} (h : VacuumInv s) (c : VacuumCall) : VacuumInv (s.step c) := by
  cases c with
  | manager c =>
    simp only [step]
    split
    · rename_i hall
      split
      · rename_i m hm
        refine vacuumInv_heap h (.manager m (TransactionManager.stepped_of_call hm)) (fun o sn ho => ?_)
        refine active_of_call h.manager hm (h.running o sn ho) ⟨?_, ?_⟩
        · rintro rfl
          simp [allows, ho] at hall
        · rintro rfl
          simp [allows, ho] at hall
      · exact h
    · exact h
  | statement x =>
    simp only [step]
    split
    · split
      · rename_i m sn hm
        have hc : s.heap.manager.call (.statementSnapshot x) = .ok m := by
          simp [TransactionManager.call, hm, bind, Except.bind]
        refine vacuumInv_heap h (.manager m (TransactionManager.stepped_of_call hc)) (fun o sn' ho => ?_)
        refine active_of_call h.manager hc ?_ ⟨by simp, by simp⟩
        by_cases hox : o = x
        · subst hox
          obtain ⟨t, ht, hst, -⟩ := TransactionManager.statementSnapshot_eq_ok hm
          exact (h.manager.active o).2 ⟨t, ht, Or.inl hst⟩
        · rw [Function.update_of_ne hox] at ho
          exact h.running o sn' ho
      · exact h
    · exact h
  | endStatement x =>
    refine vacuumInv_heap h .same (fun o sn ho => ?_)
    by_cases hox : o = x
    · subst hox
      rw [Function.update_self] at ho
      cases ho
    · rw [Function.update_of_ne hox] at ho
      exact h.running o sn ho
  | acquireWriter x =>
    simp only [step]
    split
    · exact vacuumInv_phase h h.tracks
    · exact vacuumInv_phase h h.tracks
    · exact h
  | releaseWriter x => exact vacuumInv_phase h h.tracks
  | write leased c =>
    simp only [step]
    split
    · exact h
    · split
      · have hs : HeapStepped False s.heap (s.heap.step c) := by
          unfold HeapState.step
          split
          · rename_i s' hc
            exact HeapState.call_stepped h.manager h.ordered.writers False.elim hc
          · exact .same
        rename_i x hx _
        refine vacuumInv_heap h hs (fun o sn ho => ?_)
        rw [HeapState.step_manager s.heap hx]
        exact h.running o sn ho
      · exact h
  | indexes bs => exact vacuumInv_phase h h.tracks
  | computeHorizon =>
    simp only [step]
    split
    · exact vacuumInv_phase h trivial
    · exact h
  | requestLease =>
    simp only [step]
    split
    · exact vacuumInv_phase h trivial
    · exact h
  | acquireMaintenance =>
    simp only [step]
    split
    · split
      · refine vacuumInv_phase h ⟨fun x o hx => hx, s.heap.table.scanVersions_nodup, fun q hq => Or.inr ?_⟩
        exact ⟨q.2, HeapTable.mem_scanVersions.1 hq, rfl, Or.inl rfl⟩
      · exact h
    · exact h
  | classify =>
    have ht := h.tracks
    simp only [step]
    split
    · rename_i hp
      rw [hp] at ht
      exact vacuumInv_phase h ⟨fun x o hx => hx, ht.2⟩
    · rename_i hp
      rw [hp] at ht
      exact vacuumInv_phase h ⟨fun x o hx => hx, ht.2⟩
    · exact h
  | advance => exact vacuumInv_advance h

theorem vacuumInv_run : ∀ (calls : List VacuumCall) {s : VacuumState}, VacuumInv s → VacuumInv (s.run calls)
  | [], _, h => h
  | c :: calls, _, h => vacuumInv_run calls (vacuumInv_step h c)

/-! ## What a vacuum reclaims -/

/-- **Whatever the next version of a loop reclaims is dead now**, under the horizon and the outcomes of this moment. -/
theorem advance_reclaims_dead {s : VacuumState} (h : VacuumInv s) {a : TID} {v : TupleVersion}
    (ha : s.heap.table.physicalVersion a = some v) (hgone : s.advance.heap.table.physicalVersion a = none) :
    classifyVersion v s.vacuum.horizon s.statuses = .dead := by
  have ht := h.tracks
  have hsame : ∀ {phase : VacuumPhase}, ({ s with vacuum := phase } : VacuumState).heap.table.physicalVersion a ≠ none := by
    intro phase
    simp [ha]
  unfold advance at hgone
  split at hgone
  · exact absurd hgone hsame
  · rename_i hz versions item todo conts seen p hp
    rw [hp] at ht
    split at hgone
    · rename_i p' hs
      have ho : KeepsOrder s.heap.table.schema s.heap.origin s.heap.log.length s.heap.table := ⟨rfl, h.ordered⟩
      have hdead := (pruneStep_frame (p := { p with heap := s.heap.table }) ho hs).2.2 a v ha hgone
      rw [hp]
      exact classifyVersion_grown ht.1 hdead
    · exact absurd hgone hsame
  · exact absurd hgone hsame
  · rename_i hz item todo processed seen w hp
    rw [hp] at ht
    split at hgone
    · rename_i w' hs
      rcases sweepStep_cases hs with ⟨rfl, -⟩ | ⟨hnp, -, hdead, hlook, -, -⟩
      · rw [setTable, ha] at hgone
        cases hgone
      · -- only the slot of the item went, and it holds an edition of the scanned version
        have hai : a = item.1 := by
          by_contra hne
          rw [setTable, hlook, Function.update_of_ne hne, ha] at hgone
          cases hgone
        obtain ⟨u, hu, hmin, hmax⟩ := (ht.2.2 item List.mem_cons_self).resolve_left hnp
        rw [← hai, ha] at hu
        cases hu
        rw [hp]
        exact edition_dead (s := s.heap) (classifyVersion_grown ht.1 hdead) hmin hmax
    · exact absurd hgone hsame
  · rw [ha] at hgone
    cases hgone

theorem inUse_active {s : VacuumState} (h : VacuumInv s) {o : Nat} {sn : Snapshot} (hu : s.InUse o sn) :
    o ∈ s.heap.manager.active := by
  rcases hu with hr | ⟨ho, -⟩
  · exact h.running o sn hr
  · exact ho

/-- **A vacuum reclaims no version that a snapshot in use sees**, in every state of every run in which its horizon covers
the snapshots in use. -/
theorem vacuum_respects_snapshots (r : Recovered) (schema : Schema) (calls : List VacuumCall)
    (hc : ((start r schema).run calls).Covers) (a : TID) (v : TupleVersion)
    (ha : ((start r schema).run calls).heap.table.physicalVersion a = some v)
    (hgone : (((start r schema).run calls).step .advance).heap.table.physicalVersion a = none) (o : Nat) (sn : Snapshot)
    (hu : ((start r schema).run calls).InUse o sn) :
    isVisible v sn o ((start r schema).run calls).statuses = false := by
  have h := vacuumInv_run calls (vacuumInv_start r schema)
  generalize (start r schema).run calls = s at h hc ha hgone hu
  have hdead := advance_reclaims_dead h ha hgone
  have hact := inUse_active h hu
  refine TransactionManager.dead_not_visible h.manager hdead (h.manager.active_lt hact).1
    (h.manager.undecided o hact) (fun hlt hcom => ?_) .refl
  exact hc o sn hu a v ha hcom hlt

/-- XID 2 inserts a row and commits; XIDs 3 and 4 begin. -/
def committedRow : List VacuumCall :=
  [.manager (.begin .readCommitted), .statement 2, .acquireWriter 2, .write true (.insertVersion 2 [.int 5]),
    .releaseWriter 2, .endStatement 2, .manager (.commit 2), .manager (.begin .readCommitted),
    .manager (.begin .readCommitted)]

/-- XID 3 deletes the row and commits. -/
def rowDeleted : List VacuumCall :=
  [.statement 3, .acquireWriter 3, .write true (.deleteLive 3 ⟨0, 0⟩), .releaseWriter 3, .endStatement 3,
    .manager (.commit 3)]

/-- A vacuum as XID 5, up to the version it will reclaim. -/
def vacuumToRow : List VacuumCall :=
  [.manager (.begin .readCommitted), .statement 5, .computeHorizon, .requestLease, .acquireMaintenance, .advance, .advance]

/-- The statement of XID 4 begins after the deletion committed: the vacuum reclaims the row, and no one sees it. -/
theorem vacuum_respects_snapshots_example :
    let s := (start .new HeapState.oneColumn).run (committedRow ++ rowDeleted ++ [.statement 4] ++ vacuumToRow)
    (s.step .advance).heap.table.physicalVersion ⟨0, 0⟩ = none ∧
      isVisible ⟨2, 3, none, [.int 5]⟩ ⟨5, [], by decide⟩ 4 s.statuses = false := by
  intro s
  have hlook : s.heap.table.physicalVersion ⟨0, 0⟩ = some ⟨2, 3, none, [.int 5]⟩ := by decide +kernel
  have hgone : (s.step .advance).heap.table.physicalVersion ⟨0, 0⟩ = none := by decide +kernel
  have hinv : VacuumInv s := vacuumInv_run _ (vacuumInv_start _ _)
  have hactive : s.heap.manager.active = [4, 5] := by decide +kernel
  have hhorizon : s.vacuum.horizon = 4 := by decide +kernel
  have h4 : s.running 4 = some ⟨5, [], by decide⟩ := by decide +kernel
  have h5 : s.running 5 = some ⟨6, [4], by decide⟩ := by decide +kernel
  have hnone : ∀ x ∈ [4, 5], (s.heap.manager.transactions x).bind Transaction.repeatableSnapshot = none := by
    decide +kernel
  have hcovers : s.Covers := by
    intro o sn hu b v _ _ hlt
    rw [hhorizon] at hlt
    have ho := inUse_active hinv hu
    rw [hactive] at ho
    rcases hu with hr | ⟨-, t, ht, hsn⟩
    · rcases List.mem_cons.1 ho with rfl | ho
      · rw [h4] at hr
        cases hr
        exact ⟨by simp only; omega, by simp⟩
      · rw [List.mem_singleton.1 ho, h5] at hr
        cases hr
        exact ⟨by simp only; omega, by simp only [List.mem_singleton]; omega⟩
    · have := hnone o ho
      rw [ht, Option.bind_some, hsn] at this
      cases this
  exact ⟨hgone, vacuum_respects_snapshots .new HeapState.oneColumn _ hcovers _ _ hlook hgone 4 _ (Or.inl h4)⟩

/-- **A statement that was running when the deletion committed still sees the row the vacuum reclaims.** -/
theorem vacuum_reclaims_visible_row :
    ¬ ∀ (r : Recovered) (schema : Schema) (calls : List VacuumCall) (a : TID) (v : TupleVersion),
      ((start r schema).run calls).heap.table.physicalVersion a = some v →
      (((start r schema).run calls).step .advance).heap.table.physicalVersion a = none → ∀ o sn,
      ((start r schema).run calls).InUse o sn → isVisible v sn o ((start r schema).run calls).statuses = false := by
  intro h
  have hfalse := h .new HeapState.oneColumn (committedRow ++ [.statement 4] ++ rowDeleted ++ vacuumToRow) ⟨0, 0⟩
    ⟨2, 3, none, [.int 5]⟩ (by decide +kernel) (by decide +kernel) 4 ⟨5, [3], by decide⟩ (Or.inl (by decide +kernel))
  exact absurd hfalse (by decide +kernel)

end VacuumState
end MiniPostgres
