import MiniPostgres.Chains
import MiniPostgres.Visibility
/-!
# HeapRun — transactions over one heap table

The heap, the manager and a record of the run: the history of version writes and, for each slot, the write its version
comes from.  The record is never read by the program.  A call that raises, and a write that the heap refuses, change
nothing.  Every write is made for a usable transaction: its statement took a snapshot first, which requires one.

`HeapStepped` says once what a call can do; `HeapInv` is what every call keeps.
-/
namespace MiniPostgres

open History (Write WF Serial getElem?_concat lt_of_getElem?)

structure HeapState where
  table   : HeapTable
  manager : TransactionManager
  log     : Log
  origin  : TID → Nat

inductive HeapCall
  | manager (c : TransactionManager.Call)
  | insertVersion (xid : Nat) (values : Values)
  | replaceVersion (xid : Nat) (tid : TID) (values : Values)
  | deleteVersion (xid : Nat) (tid : TID)
  /-- Replacement through the globally live version of the row of `tid`, as `replace_mvcc` does it. -/
  | replaceLive (xid : Nat) (tid : TID) (values : Values)
  | deleteLive (xid : Nat) (tid : TID)
  deriving DecidableEq

/-- The calls that write a version only as the globally live one of its row. -/
def HeapCall.throughLive : HeapCall → Bool
  | .replaceVersion .. => false
  | .deleteVersion ..  => false
  | _                  => true

namespace HeapState

def start (r : Recovered) (schema : Schema) : HeapState :=
  ⟨HeapTable.create schema, TransactionManager.start r, [], fun _ => 0⟩

def rowOf (s : HeapState) (tid : TID) : Nat := MiniPostgres.rowOf s.log s.origin tid

/-- The caller's transaction is usable. -/
def requireUsable (s : HeapState) (xid : Nat) : Result Unit := do
  let t ← s.manager.object xid
  t.requireUsable

def insertVersion (s : HeapState) (xid : Nat) (values : Values) : Result (HeapState × TID) := do
  s.requireUsable xid
  let (table, tid) ← s.table.insertVersion xid values none
  .ok ({ s with
    table := table
    log := s.log ++ [⟨xid, s.log.length, none, some values⟩]
    origin := Function.update s.origin tid s.log.length }, tid)

def replaceVersion (s : HeapState) (xid : Nat) (tid : TID) (values : Values) : Result (HeapState × Option TID) := do
  s.requireUsable xid
  let (table, replacement) ← s.table.replaceVersion tid xid s.manager.statuses values
  match replacement with
  | none     => .ok (s, none)
  | some new => .ok ({ s with
      table := table
      log := s.log ++ [⟨xid, s.rowOf tid, some (s.origin tid), some values⟩]
      origin := Function.update s.origin new s.log.length }, some new)

def deleteVersion (s : HeapState) (xid : Nat) (tid : TID) : Result (HeapState × Bool) := do
  s.requireUsable xid
  let (table, deleted) ← s.table.deleteVersion tid xid s.manager.statuses
  if deleted then
    .ok ({ s with table := table, log := s.log ++ [⟨xid, s.rowOf tid, some (s.origin tid), none⟩] }, true)
  else .ok (s, false)

def replaceLive (s : HeapState) (xid : Nat) (tid : TID) (values : Values) : Result (HeapState × Option TID) := do
  let live ← s.table.resolveGloballyLive tid xid s.manager.statuses
  match live with
  | none        => .ok (s, none)
  | some (a, _) => s.replaceVersion xid a values

def deleteLive (s : HeapState) (xid : Nat) (tid : TID) : Result (HeapState × Bool) := do
  let live ← s.table.resolveGloballyLive tid xid s.manager.statuses
  match live with
  | none        => .ok (s, false)
  | some (a, _) => s.deleteVersion xid a

def call (s : HeapState) : HeapCall → Result HeapState
  | .manager c            => do let m ← s.manager.call c; .ok { s with manager := m }
  | .insertVersion x v    => do let r ← s.insertVersion x v; .ok r.1
  | .replaceVersion x a v => do let r ← s.replaceVersion x a v; .ok r.1
  | .deleteVersion x a    => do let r ← s.deleteVersion x a; .ok r.1
  | .replaceLive x a v    => do let r ← s.replaceLive x a v; .ok r.1
  | .deleteLive x a       => do let r ← s.deleteLive x a; .ok r.1

def step (s : HeapState) (c : HeapCall) : HeapState :=
  match s.call c with
  | .ok s'   => s'
  | .error _ => s

def run (s : HeapState) (calls : List HeapCall) : HeapState := calls.foldl step s

end HeapState

/-! ## What one call can do -/

/-- `x` may write over `old`: its creator is `x` or committed. -/
def LiveFor (m : TransactionManager) (x : Nat) (old : TupleVersion) : Prop :=
  old.xmin = x ∨ m.statuses old.xmin = some .committed

/-- **Every effect of a call.**  With `live`, a version is written over only when it is live for the writer. -/
inductive HeapStepped (live : Prop) (s : HeapState) : HeapState → Prop
  | same : HeapStepped live s s
  | manager (m : TransactionManager) (h : TransactionManager.Stepped s.manager m) :
      HeapStepped live s { s with manager := m }
  | inserted (x : Nat) (hx : x ∈ s.manager.active) (values : Values) (table : HeapTable) (tid : TID)
      (h : HeapTable.Inserted s.table table tid ⟨x, 0, none, values⟩)
      (he : HeapTable.Encodes s.table.schema ⟨x, 0, none, values⟩) :
      HeapStepped live s { s with
        table := table
        log := s.log ++ [⟨x, s.log.length, none, some values⟩]
        origin := Function.update s.origin tid s.log.length }
  | replaced (x : Nat) (hx : x ∈ s.manager.active) (values : Values) (tid new : TID) (old : TupleVersion)
      (mid table : HeapTable) (hold : s.table.physicalVersion tid = some old)
      (hw : HeapTable.writable old s.manager.statuses = true) (hlive : live → LiveFor s.manager x old)
      (hi : HeapTable.Inserted s.table mid new ⟨x, 0, none, values⟩)
      (hr : HeapTable.Rewritten mid table tid (some ⟨old.xmin, x, some new, old.values⟩))
      (he : HeapTable.Encodes s.table.schema ⟨x, 0, none, values⟩)
      (he' : HeapTable.Encodes s.table.schema ⟨old.xmin, x, some new, old.values⟩) :
      HeapStepped live s { s with
        table := table
        log := s.log ++ [⟨x, s.rowOf tid, some (s.origin tid), some values⟩]
        origin := Function.update s.origin new s.log.length }
  | deleted (x : Nat) (hx : x ∈ s.manager.active) (tid : TID) (old : TupleVersion) (table : HeapTable)
      (hold : s.table.physicalVersion tid = some old) (hw : HeapTable.writable old s.manager.statuses = true)
      (hlive : live → LiveFor s.manager x old)
      (hr : HeapTable.Rewritten s.table table tid (some ⟨old.xmin, x, old.nextTid, old.values⟩))
      (he : HeapTable.Encodes s.table.schema ⟨old.xmin, x, old.nextTid, old.values⟩) :
      HeapStepped live s { s with
        table := table
        log := s.log ++ [⟨x, s.rowOf tid, some (s.origin tid), none⟩] }

namespace HeapState

theorem requireUsable_eq_ok {s : HeapState} (hi : TransactionManager.Inv s.manager) {x : Nat} {u : Unit}
    (h : s.requireUsable x = .ok u) : x ∈ s.manager.active := by
  obtain ⟨t, ht, h⟩ := bind_eq_ok.1 h
  exact (hi.active x).2 ⟨t, TransactionManager.object_eq_ok ht, Or.inl (TransactionManager.requireUsable_eq_ok h)⟩

theorem insertVersion_stepped {live : Prop} {s s' : HeapState} {x : Nat} {values : Values} {tid : TID}
    (hi : TransactionManager.Inv s.manager) (h : s.insertVersion x values = .ok (s', tid)) : HeapStepped live s s' := by
  obtain ⟨u, hu, h⟩ := bind_eq_ok.1 h
  obtain ⟨⟨table, tid'⟩, ht, he⟩ := bind_eq_ok.1 h
  cases he
  exact .inserted x (requireUsable_eq_ok hi hu) values table tid (HeapTable.insertVersion_eq_ok ht).1
    (HeapTable.insertVersion_eq_ok ht).2

theorem replaceVersion_stepped {live : Prop} {s s' : HeapState} {x : Nat} {tid : TID} {values : Values}
    {r : Option TID} (hi : TransactionManager.Inv s.manager)
    (hlive : live → ∀ old, s.table.physicalVersion tid = some old → LiveFor s.manager x old)
    (h : s.replaceVersion x tid values = .ok (s', r)) : HeapStepped live s s' := by
  obtain ⟨u, hu, h⟩ := bind_eq_ok.1 h
  obtain ⟨⟨table, r'⟩, ht, h⟩ := bind_eq_ok.1 h
  rcases HeapTable.replaceVersion_eq_ok ht with ⟨rfl, -⟩ | ⟨old, new, rfl, hold, hw, mid, ⟨hins, he⟩, hrew, he'⟩
  · cases h; exact .same
  · cases h
    exact .replaced x (requireUsable_eq_ok hi hu) values tid new old mid table hold hw (fun hl => hlive hl old hold)
      hins hrew he (hins.schema ▸ he')

theorem deleteVersion_stepped {live : Prop} {s s' : HeapState} {x : Nat} {tid : TID} {b : Bool}
    (hi : TransactionManager.Inv s.manager)
    (hlive : live → ∀ old, s.table.physicalVersion tid = some old → LiveFor s.manager x old)
    (h : s.deleteVersion x tid = .ok (s', b)) : HeapStepped live s s' := by
  obtain ⟨u, hu, h⟩ := bind_eq_ok.1 h
  obtain ⟨⟨table, b'⟩, ht, h⟩ := bind_eq_ok.1 h
  rcases HeapTable.deleteVersion_eq_ok ht with ⟨rfl, -⟩ | ⟨old, rfl, hold, hw, hrew, he⟩
  · cases h; exact .same
  · cases h
    exact .deleted x (requireUsable_eq_ok hi hu) tid old table hold hw (fun hl => hlive hl old hold) hrew he

end HeapState

/-! ## What every call keeps -/

/-- A version whose deleter committed. -/
def Retired (statuses : StatusTable) (v : TupleVersion) : Prop := statuses v.xmax = some .committed

/-- Each write over a version was made by its creator, or after its creator committed. -/
def LiveTargets (statuses : StatusTable) (log : Log) : Prop :=
  ∀ (j : Nat) (w : Write Nat Values) (i : Nat) (u : Write Nat Values), log[j]? = some w → w.target = some i →
    log[i]? = some u → u.writer = w.writer ∨ statuses u.writer = some .committed

/-- **The invariant of heap and history.** -/
structure HeapInv (s : HeapState) : Prop where
  manager : TransactionManager.Inv s.manager
  wf      : WF s.log
  writers : ∀ w ∈ s.log, ∃ t, s.manager.transactions w.writer = some t
  serial  : Serial (fun x => s.manager.statuses x = some .aborted) s.log
  mirror  : Mirror (Retired s.manager.statuses) s.table.physicalVersion s.log s.origin

theorem HeapInv.writer_pos {s : HeapState} (h : HeapInv s) {j : Nat} {w : Write Nat Values} (hw : s.log[j]? = some w) :
    2 ≤ w.writer ∧ w.writer < s.manager.nextXid := by
  obtain ⟨t, ht⟩ := h.writers w (List.mem_of_getElem? hw)
  exact (h.manager.object _ t ht).2

theorem HeapInv.xmin_pos {s : HeapState} (h : HeapInv s) {a : TID} {v : TupleVersion}
    (hv : s.table.physicalVersion a = some v) : 2 ≤ v.xmin ∧ v.xmin < s.manager.nextXid := by
  obtain ⟨w, hw, hx, -⟩ := (h.mirror.carries a v hv).made
  exact hx ▸ h.writer_pos hw

theorem transactions_stepped {m m' : TransactionManager} (hs : TransactionManager.Stepped m m') {x : Nat}
    (hx : ∃ t, m.transactions x = some t) : ∃ t, m'.transactions x = some t := by
  cases hs with
  | same => exact hx
  | began i =>
    simp only [TransactionManager.begin, TransactionManager.put, Function.update_apply]
    split
    · exact ⟨_, rfl⟩
    · exact hx
  | edited y t t' _ _ _ _ _ | committed y t _ _ | aborted y t _ _ =>
    simp only [TransactionManager.ended, TransactionManager.put, Function.update_apply]
    split
    · exact ⟨_, rfl⟩
    · exact hx

theorem writers_concat {m : TransactionManager} {log : Log} {w : Write Nat Values} (hi : TransactionManager.Inv m)
    (h : ∀ u ∈ log, ∃ t, m.transactions u.writer = some t) (hx : w.writer ∈ m.active) :
    ∀ u ∈ log ++ [w], ∃ t, m.transactions u.writer = some t := by
  intro u hu
  rcases List.mem_append.1 hu with hu | hu
  · exact h u hu
  · rw [List.mem_singleton.1 hu]
    obtain ⟨t, ht, -⟩ := (hi.active w.writer).1 hx
    exact ⟨t, ht⟩

/-- A version that may be written over has no deleter, or one that aborted; so the writes over it before are out. -/
theorem Carries.serial_of_writable {st : StatusTable} {log : Log} {i : Nat} {old : TupleVersion}
    (hs : Serial (fun x => st x = some .aborted) log) (h : Carries log i old)
    (hw : HeapTable.writable old st = true) (j : Nat) (u : Write Nat Values) (hu : log[j]? = some u)
    (ht : u.target = some i) : st u.writer = some .aborted := by
  by_cases h0 : old.xmax = 0
  · exact absurd ht (h.kept h0 j u hu)
  · obtain ⟨k, w, hl, hx⟩ := h.deleted h0
    have hab : st w.writer = some .aborted := by
      have hw' : st.get old.xmax = .aborted := by simpa [HeapTable.writable, h0] using hw
      rw [hx]
      unfold StatusTable.get at hw'
      cases hst : st old.xmax with
      | none => rw [hst] at hw'; cases hw'
      | some y => rw [hst] at hw'; exact congrArg some hw'
    rcases Nat.lt_or_ge j k with hlt | hge
    · exact hs j k u w i hlt hu hl.get ht hl.target
    · obtain rfl : j = k := Nat.le_antisymm (hl.last j u hu ht) hge
      have hg := hl.get
      rw [hu] at hg
      cases hg
      exact hab

theorem not_retired_of_writable {st : StatusTable} {old : TupleVersion} (h0 : st 0 = none)
    (hw : HeapTable.writable old st = true) : ¬ Retired st old := by
  intro hr
  simp only [HeapTable.writable, decide_eq_true_eq] at hw
  rcases hw with hz | hab
  · rw [Retired, hz, h0] at hr; cases hr
  · simp [StatusTable.get, Retired] at hab hr
    rw [hr] at hab; cases hab

theorem TransactionManager.Inv.status_zero {m : TransactionManager} (h : TransactionManager.Inv m) :
    m.statuses 0 = none := by
  by_contra hne
  have := (h.known 0 hne).1; omega

theorem heapInv_start (r : Recovered) (schema : Schema) : HeapInv (HeapState.start r schema) where
  manager := TransactionManager.inv_start r
  wf := .nil
  writers := by simp [HeapState.start]
  serial := by intro j k w u i _ hw; simp [HeapState.start] at hw
  mirror := by
    have hnone : ∀ a, (HeapState.start r schema).table.physicalVersion a = none := fun a => by
      simp [HeapState.start, HeapTable.create, HeapTable.physicalVersion]
    constructor <;> intros <;> simp_all

theorem HeapInv.origin_write {s : HeapState} (h : HeapInv s) {a : TID} {v : TupleVersion}
    (hv : s.table.physicalVersion a = some v) :
    ∃ w, s.log[s.origin a]? = some w ∧ w.writer = v.xmin ∧ w.value = some v.values ∧ s.rowOf a = w.row := by
  obtain ⟨w, hw, hx, hval⟩ := (h.mirror.carries a v hv).made
  exact ⟨w, hw, hx, hval, rowOf_eq hw⟩

/-- **Every call keeps the invariant.** -/
theorem heapInv_stepped {live : Prop} {s s' : HeapState} (h : HeapInv s) (hs : HeapStepped live s s') : HeapInv s' := by
  cases hs with
  | same => exact h
  | manager m hm =>
    have hkeep : ∀ x st, s.manager.statuses x = some st → m.statuses x = some st := fun x st hx => by
      rw [TransactionManager.status_later h.manager (by rw [hx]; simp) (.single hm), hx]
    exact ⟨TransactionManager.inv_stepped h.manager hm, h.wf,
      fun w hw => transactions_stepped hm (h.writers w hw),
      h.serial.mono (fun x => hkeep x _), h.mirror.loosen (fun v => hkeep _ _)⟩
  | inserted x hx values table tid hins _ =>
    refine ⟨h.manager, h.wf.concat_start x values, writers_concat h.manager h.writers hx,
      h.serial.concat (fun j u i ht => by cases ht), ?_⟩
    simp only [hins.versions]
    exact h.mirror.insert (w := ⟨x, s.log.length, none, some values⟩) h.wf hins.fresh rfl rfl
  | replaced x hx values tid new old mid table hold hw _ hins hrew _ _ =>
    obtain ⟨w, hw', -, hval, hrow⟩ := h.origin_write hold
    have hx2 := (h.manager.active_lt hx).1
    refine ⟨h.manager, ?_, writers_concat h.manager h.writers hx, h.serial.concat (fun j u i ht hu htu => ?_), ?_⟩
    · rw [hrow]
      exact h.wf.concat_write hw' (by rw [hval]; simp) x _
    · cases ht
      exact (h.mirror.carries tid old hold).serial_of_writable h.serial hw j u hu htu
    · simp only [hrew.versions, hins.versions]
      exact h.mirror.replace (w := ⟨x, s.rowOf tid, some (s.origin tid), some values⟩) h.wf hold hins.fresh rfl rfl
        (Nat.ne_of_gt (show 0 < x by omega))
  | deleted x hx tid old table hold hw _ hrew _ =>
    obtain ⟨w, hw', -, hval, hrow⟩ := h.origin_write hold
    have hx2 := (h.manager.active_lt hx).1
    refine ⟨h.manager, ?_, writers_concat h.manager h.writers hx, h.serial.concat (fun j u i ht hu htu => ?_), ?_⟩
    · rw [hrow]
      exact h.wf.concat_write hw' (by rw [hval]; simp) x _
    · cases ht
      exact (h.mirror.carries tid old hold).serial_of_writable h.serial hw j u hu htu
    · simp only [hrew.versions]
      exact h.mirror.delete (w := ⟨x, s.rowOf tid, some (s.origin tid), none⟩) hold
        (not_retired_of_writable h.manager.status_zero hw) rfl rfl (Nat.ne_of_gt (show 0 < x by omega))

theorem LiveTargets.concat {st : StatusTable} {log : Log} {w : Write Nat Values} (h : LiveTargets st log)
    (hwf : WF (log ++ [w]))
    (hw : ∀ i u, w.target = some i → log[i]? = some u → u.writer = w.writer ∨ st u.writer = some .committed) :
    LiveTargets st (log ++ [w]) := by
  intro j u i y hj ht hi
  have hij := (hwf.writes j u i hj ht).1
  have hiy : log[i]? = some y := by
    rcases getElem?_concat.1 hi with hi' | ⟨rfl, -⟩
    · exact hi'
    · have := lt_of_getElem? hj
      rw [List.length_append, List.length_singleton] at this
      omega
  rcases getElem?_concat.1 hj with hj | ⟨-, rfl⟩
  · exact h j u i y hj ht hiy
  · exact hw i y ht hiy

/-- **Writes through live versions stay live-targeted.** -/
theorem liveTargets_stepped {s s' : HeapState} (h : HeapInv s) (hl : LiveTargets s.manager.statuses s.log)
    (hs : HeapStepped True s s') : LiveTargets s'.manager.statuses s'.log := by
  have hwf := (heapInv_stepped h hs).wf
  have hlive : ∀ {tid : TID} {old : TupleVersion} {x i : Nat} {u : Write Nat Values},
      s.table.physicalVersion tid = some old → LiveFor s.manager x old → s.origin tid = i → s.log[i]? = some u →
      u.writer = x ∨ s.manager.statuses u.writer = some .committed := by
    rintro tid old x i u hold hlf rfl hu
    obtain ⟨w, hw, hx, -⟩ := h.origin_write hold
    rw [hw] at hu
    cases hu
    rw [hx]
    exact hlf
  cases hs with
  | same => exact hl
  | manager m hm =>
    intro j w i u hw ht hu
    refine (hl j w i u hw ht hu).imp_right (fun hc => ?_)
    rw [TransactionManager.status_later h.manager (by rw [hc]; simp) (.single hm), hc]
  | inserted x hx values table tid hins _ => exact hl.concat hwf (fun i u ht => by cases ht)
  | replaced x hx values tid new old mid table hold hw hlf hins hrew he he' =>
    exact hl.concat hwf (fun i u ht hu => hlive hold (hlf trivial) (Option.some.inj ht) hu)
  | deleted x hx tid old table hold hw hlf hrew he =>
    exact hl.concat hwf (fun i u ht hu => hlive hold (hlf trivial) (Option.some.inj ht) hu)

/-! ## Runs -/

/-- `s'` comes after `s`. -/
abbrev HeapLater (live : Prop) (s s' : HeapState) : Prop := Relation.ReflTransGen (HeapStepped live) s s'

theorem heapInv_later {live : Prop} {s s' : HeapState} (h : HeapInv s) (hl : HeapLater live s s') : HeapInv s' := by
  induction hl with
  | refl => exact h
  | tail _ hs ih => exact heapInv_stepped ih hs

theorem liveTargets_later {s s' : HeapState} (h : HeapInv s) (ht : LiveTargets s.manager.statuses s.log)
    (hl : HeapLater True s s') : LiveTargets s'.manager.statuses s'.log := by
  induction hl with
  | refl => exact ht
  | tail hl hs ih => exact liveTargets_stepped (heapInv_later h hl) ih hs

theorem manager_later {live : Prop} {s s' : HeapState} (hl : HeapLater live s s') :
    TransactionManager.Later s.manager s'.manager := by
  induction hl with
  | refl => exact .refl
  | tail _ hs ih =>
    cases hs with
    | manager m hm => exact ih.tail hm
    | same | inserted | replaced | deleted => exact ih

/-- **A settled transaction writes no more**: every write of a run's continuation is by a transaction that was not. -/
theorem log_later {live : Prop} {s s' : HeapState} (h : HeapInv s) (hl : HeapLater live s s') :
    ∃ more, s'.log = s.log ++ more ∧ ∀ w ∈ more, ¬ s.manager.Settled w.writer := by
  induction hl with
  | refl => exact ⟨[], by simp⟩
  | @tail s₁ s₂ hl hs ih =>
    obtain ⟨more, hlog, hmore⟩ := ih
    have hact : ∀ x ∈ s₁.manager.active, ¬ s.manager.Settled x := fun x hx hset =>
      (TransactionManager.settled_later h.manager hset (manager_later hl)).1.2 hx
    have hnew : ∀ (w : Write Nat Values), w.writer ∈ s₁.manager.active → ∃ more, s₁.log ++ [w] = s.log ++ more ∧
        ∀ u ∈ more, ¬ s.manager.Settled u.writer := fun w hw => by
      refine ⟨more ++ [w], by rw [hlog, List.append_assoc], fun u hu => ?_⟩
      rcases List.mem_append.1 hu with hu | hu
      · exact hmore u hu
      · rw [List.mem_singleton.1 hu]; exact hact _ hw
    cases hs with
    | same => exact ⟨more, hlog, hmore⟩
    | manager m hm => exact ⟨more, hlog, hmore⟩
    | inserted x hx values table tid hins _ => exact hnew _ hx
    | replaced x hx values tid new old mid table hold hw hlf hins hrew he he' => exact hnew _ hx
    | deleted x hx tid old table hold hw hlf hrew he => exact hnew _ hx

theorem HeapStepped.weaken {live live' : Prop} {s s' : HeapState} (hll : live' → live) (h : HeapStepped live s s') :
    HeapStepped live' s s' := by
  cases h with
  | same => exact .same
  | manager m hm => exact .manager m hm
  | inserted x hx values table tid hins he => exact .inserted x hx values table tid hins he
  | replaced x hx values tid new old mid table hold hw hlf hins hrew he he' =>
    exact .replaced x hx values tid new old mid table hold hw (fun hl => hlf (hll hl)) hins hrew he he'
  | deleted x hx tid old table hold hw hlf hrew he =>
    exact .deleted x hx tid old table hold hw (fun hl => hlf (hll hl)) hrew he

/-- A call writes over no version, or over one that is live for the writer. -/
def HeapCall.liveWrite (s : HeapState) : HeapCall → Prop
  | .replaceVersion x a _ => ∀ old, s.table.physicalVersion a = some old → LiveFor s.manager x old
  | .deleteVersion x a    => ∀ old, s.table.physicalVersion a = some old → LiveFor s.manager x old
  | _                     => True

namespace HeapState

theorem liveFor_of_resolved {s : HeapState} (hx : ∀ a v, s.table.physicalVersion a = some v → 2 ≤ v.xmin) {tid a : TID}
    {x : Nat} {values : Values} (hr : s.table.resolveGloballyLive tid x s.manager.statuses = .ok (some (a, values))) :
    ∀ old, s.table.physicalVersion a = some old → LiveFor s.manager x old := by
  intro old hold
  obtain ⟨v, hv, hlive, -⟩ := HeapTable.resolveGloballyLive_eq_some hr
  rw [hold] at hv
  cases hv
  simp only [HeapTable.globallyLive, decide_eq_true_eq] at hlive
  rcases hlive.1 with hsys | hown | hc
  · have := hx a old hold
    rw [hsys] at this
    exact absurd this (by decide)
  · exact Or.inl hown
  · exact Or.inr (TransactionManager.get_eq_committed.1 hc)

theorem replaceLive_stepped {s s' : HeapState} {x : Nat} {tid : TID} {values : Values} {r : Option TID}
    (hi : TransactionManager.Inv s.manager) (hx : ∀ a v, s.table.physicalVersion a = some v → 2 ≤ v.xmin)
    (hr : s.replaceLive x tid values = .ok (s', r)) : HeapStepped True s s' := by
  obtain ⟨live, hl, hr⟩ := bind_eq_ok.1 hr
  cases live with
  | none => cases hr; exact .same
  | some q =>
    obtain ⟨a, old⟩ := q
    exact replaceVersion_stepped hi (fun _ => liveFor_of_resolved hx hl) hr

theorem deleteLive_stepped {s s' : HeapState} {x : Nat} {tid : TID} {b : Bool} (hi : TransactionManager.Inv s.manager)
    (hx : ∀ a v, s.table.physicalVersion a = some v → 2 ≤ v.xmin) (hr : s.deleteLive x tid = .ok (s', b)) :
    HeapStepped True s s' := by
  obtain ⟨live, hl, hr⟩ := bind_eq_ok.1 hr
  cases live with
  | none => cases hr; exact .same
  | some q =>
    obtain ⟨a, old⟩ := q
    exact deleteVersion_stepped hi (fun _ => liveFor_of_resolved hx hl) hr

theorem call_stepped {live : Prop} {s s' : HeapState} (hi : TransactionManager.Inv s.manager)
    (hx : ∀ a v, s.table.physicalVersion a = some v → 2 ≤ v.xmin) {c : HeapCall} (hlive : live → c.liveWrite s)
    (hc : s.call c = .ok s') : HeapStepped live s s' := by
  cases c with
  | manager c =>
    obtain ⟨m, hm, he⟩ := bind_eq_ok.1 hc
    cases he
    exact .manager m (TransactionManager.stepped_of_call hm)
  | insertVersion x v =>
    obtain ⟨⟨s₁, tid⟩, hr, he⟩ := bind_eq_ok.1 hc
    cases he
    exact insertVersion_stepped hi hr
  | replaceVersion x a v =>
    obtain ⟨⟨s₁, r⟩, hr, he⟩ := bind_eq_ok.1 hc
    cases he
    exact replaceVersion_stepped hi hlive hr
  | deleteVersion x a =>
    obtain ⟨⟨s₁, r⟩, hr, he⟩ := bind_eq_ok.1 hc
    cases he
    exact deleteVersion_stepped hi hlive hr
  | replaceLive x a v =>
    obtain ⟨⟨s₁, r⟩, hr, he⟩ := bind_eq_ok.1 hc
    cases he
    exact HeapStepped.weaken (fun _ => trivial) (replaceLive_stepped hi hx hr)
  | deleteLive x a =>
    obtain ⟨⟨s₁, r⟩, hr, he⟩ := bind_eq_ok.1 hc
    cases he
    exact HeapStepped.weaken (fun _ => trivial) (deleteLive_stepped hi hx hr)

theorem step_stepped {s : HeapState} (h : HeapInv s) {c : HeapCall} (hc : c.throughLive = true) :
    HeapStepped True s (s.step c) := by
  unfold step
  split
  · rename_i s' hs
    refine call_stepped h.manager (fun a v hv => (h.xmin_pos hv).1) (fun _ => ?_) hs
    cases c with
    | manager | insertVersion | replaceLive | deleteLive => trivial
    | replaceVersion | deleteVersion => cases hc
  · exact .same

theorem later_run : ∀ (calls : List HeapCall) {s : HeapState}, HeapInv s → (∀ c ∈ calls, c.throughLive = true) →
    HeapLater True s (s.run calls)
  | [], _, _, _ => .refl
  | c :: calls, s, h, hl => by
    have hs := step_stepped h (hl c List.mem_cons_self)
    exact .head hs (later_run calls (heapInv_stepped h hs) (fun c' hc' => hl c' (List.mem_cons_of_mem _ hc')))

end HeapState
end MiniPostgres
