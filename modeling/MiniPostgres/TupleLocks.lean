import MiniPostgres.Locks
import MiniPostgres.Rows
/-!
# TupleLocks — the tuple lock protects the row

A row write names its lock by the root of the row's chain.  While every open writer of a row owns the lock of the row's root
(`held`), a row write that obtained the lock meets no other open writer, and the version it resolved stays the live one until
it writes.  A vacuum that reclaims the root of a locked row breaks the name: `reclaimed_root_breaks_lock`.  One that keeps
the roots that name a lock keeps the invariant, also between two turns of a row write.
-/
namespace MiniPostgres

open History (Write getElem?_concat)

theorem HeapInv.live_back {s : HeapState} (hi : HeapInv s) (hl : LiveTargets s.manager.statuses s.log) {x : Nat} {a c : TID}
    (h : Linked.Reach s.table.physicalVersion TupleVersion.nextTid a c) {v w : TupleVersion}
    (ha : s.table.physicalVersion a = some v) (hc : s.table.physicalVersion c = some w) (hw : LiveFor s.manager x w) :
    LiveFor s.manager x v := by
  -- along a chain of replacements the writers are live, from the last one back
  have hsuccs : ∀ {gone : Nat → Prop} {i j : Nat}, Succs s.log gone i j → ∀ {y z : Write Nat Values}, s.log[i]? = some y →
      s.log[j]? = some z → s.Live x z.writer → s.Live x y.writer := by
    intro gone i j hs
    induction hs with
    | one hr =>
      intro y z hy hz hlive
      have hg := hr.get
      rw [hz] at hg
      cases hg
      rcases hl _ _ _ y hz hr.target hy with he | he
      · rw [he]; exact hlive
      · exact Or.inr he
    | step hr _ _ ih =>
      intro y z hy hz hlive
      have hk := ih hr.get hz hlive
      rcases hl _ _ _ y hr.get hr.target hy with he | he
      · rw [he]; exact hk
      · exact Or.inr he
  induction h generalizing w with
  | refl =>
    rw [ha] at hc
    cases hc
    exact hw
  | tail _ hlink ih =>
    obtain ⟨u, hu, hn⟩ := hi.mirror.link_iff.1 hlink
    obtain ⟨y, hy, hxy, -⟩ := hi.origin_write hu
    obtain ⟨z, hz, hxz, -⟩ := hi.origin_write hc
    refine ih hu ?_
    have := hsuccs (hi.mirror.named _ u _ hu hn).2 hy hz (by rw [hxz]; exact hw)
    rw [hxy] at this
    exact this

/-! ## The invariant -/

/-- **A row write under way**: its transaction is open, its lock is named by the row's root, and once it has the lock the
version it resolved is the live one. -/
structure TaskInv (s : WriterState) (x : Nat) (k : RowTask) : Prop where
  active : x ∈ s.active
  root   : RowRoot s.heap x k.stage.root
  row    : s.heap.rowOf k.stage.root = k.row
  locked : k.stage.locked = true → s.locks.owners k.stage.root = some x
  live   : ∀ live, k.stage.live = some live →
    s.heap.table.resolved (fun v => HeapTable.globallyLive v x s.statuses) k.stage.root = live

/-- **Every open writer over a version of a row owns the lock of the row's root.** -/
structure WriterInv (s : WriterState) : Prop where
  heap    : HeapInv s.heap
  targets : LiveTargets s.statuses s.heap.log
  marked  : Marked s.heap
  held    : ∀ (j : Nat) (w : Write Nat Values), s.heap.log[j]? = some w → w.target ≠ none → w.writer ∈ s.active →
    ∃ r, RowRoot s.heap w.writer r ∧ s.heap.rowOf r = w.row ∧ s.locks.owners r = some w.writer
  tasks   : ∀ x k, s.tasks x = some k → TaskInv s x k

theorem WriteStage.locked_of_live {st : WriteStage} {live : Option (TID × Values)} (h : st.live = some live) :
    st.locked = true := by
  cases st with
  | locking r => cases h
  | resolving r | checking r l | writing r a v => rfl

/-- **A row write that has its lock meets no other open writer of the row.** -/
theorem WriterInv.quiet {s : WriterState} (h : WriterInv s) {x : Nat} {k : RowTask} (hk : s.tasks x = some k)
    (hl : k.stage.locked = true) : Quiet s.heap x (s.heap.rowOf k.stage.root) := by
  intro j w hw hrow
  have ht := h.tasks x k hk
  by_contra hcon
  rw [not_or, not_not] at hcon
  obtain ⟨hne, hact⟩ := hcon
  cases htg : w.target with
  | none =>
    -- the row was started by a transaction that is live for `x`
    obtain ⟨-, v, hv, hlv⟩ := ht.root
    obtain ⟨u, hu, hlu⟩ := h.heap.row_start h.targets hv hlv
    have hj : j = s.heap.rowOf k.stage.root := (h.heap.wf.starts j w hw htg).1.symm.trans hrow
    rw [← hj, hw] at hu
    cases hu
    rcases hlu with he | hc
    · exact hne he
    · rw [h.heap.manager.undecided _ hact] at hc; cases hc
  | some i =>
    obtain ⟨r, hr, hrr, ho⟩ := h.held j w hw (by rw [htg]; simp) hact
    have hroot := hr.unique h.heap h.targets hact ht.active ht.root (hrr.trans hrow)
    rw [hroot, ht.locked hl] at ho
    exact hne (Option.some.inj ho).symm

/-! ## What one call can do -/

/-- A row write that a call started: of a usable transaction, for a version visible under its snapshot (a REPEATABLE READ
transaction's retained one), with the root of that version as the name of its lock. -/
structure Started (s : WriterState) (x : Nat) (k : RowTask) : Prop where
  usable  : ∃ t, s.heap.manager.transactions x = some t ∧ t.state = .active ∧
    (t.isolation = .repeatableRead → t.repeatableSnapshot = some k.snapshot)
  visible : ∃ v, s.look k.tid = some v ∧ isVisible v k.snapshot x s.statuses = true
  row     : k.row = s.heap.rowOf k.tid
  stage   : ∃ root, s.heap.table.rootTid k.tid = .ok root ∧ k.stage = .locking root

/-- **The stage after a turn** of the row write `k` of `x` that goes on. -/
inductive Turned (s s' : WriterState) (x : Nat) (k : RowTask) : WriteStage → Prop
  | waits (root : TID) (hk : k.stage = .locking root) : Turned s s' x k (.locking root)
  | locks (root : TID) (hk : k.stage = .locking root) (ho : s'.locks.owners root = some x) :
      Turned s s' x k (.resolving root)
  | resolves (root : TID) (live : Option (TID × Values)) (hk : k.stage = .resolving root)
      (hl : s.heap.table.resolveGloballyLive root x s.statuses = .ok live) : Turned s s' x k (.checking root live)
  | checks (root a : TID) (old : Values) (t : Transaction) (hk : k.stage = .checking root (some (a, old)))
      (ht : s.heap.manager.transactions x = some t)
      (hc : s.table.checkRepeatableReadWriteConflict root t k.snapshot (some (a, old)) = .ok ()) :
      Turned s s' x k (.writing root a old)

/-- **Every effect of a call that is not a vacuum.**  A write over a version is the last turn of a row write, over the version
it resolved; an owner that stays open keeps its locks; a row write under way was so before, has just started, or took a turn. -/
structure Moved (s s' : WriterState) : Prop where
  stepped : HeapStepped True s.heap s'.heap
  manager : s'.heap.manager = s.heap.manager ∨ ∃ c, s.heap.manager.call c = .ok s'.heap.manager
  wrote   : ∀ w : Write Nat Values, s'.heap.log = s.heap.log ++ [w] → w.target ≠ none → ∃ k root a old,
    s.tasks w.writer = some k ∧ k.stage = .writing root a old ∧ w.target = some (s.heap.origin a) ∧
      w.row = s.heap.rowOf a ∧ s'.tasks w.writer = none
  owners  : ∀ r y, s.locks.owners r = some y → y ∈ s'.active → s'.locks.owners r = some y
  tasks   : ∀ y k', s'.tasks y = some k' → y ∈ s'.active ∧ (s.tasks y = some k' ∨ (s'.heap = s.heap ∧ (Started s y k' ∨
    ∃ k stage, s.tasks y = some k ∧ Turned s s' y k stage ∧ k' = { k with stage := stage })))

theorem HeapState.replaceVersion_log {s s' : HeapState} {x : Nat} {tid : TID} {values : Values} {r : Option TID}
    (h : s.replaceVersion x tid values = .ok (s', r)) :
    s' = s ∨ (s'.manager = s.manager ∧ s'.log = s.log ++ [⟨x, s.rowOf tid, some (s.origin tid), some values⟩]) := by
  obtain ⟨u, -, h⟩ := bind_eq_ok.1 h
  obtain ⟨⟨table, r'⟩, -, h⟩ := bind_eq_ok.1 h
  cases r' with
  | none => cases h; exact Or.inl rfl
  | some new => cases h; exact Or.inr ⟨rfl, rfl⟩

theorem HeapState.deleteVersion_log {s s' : HeapState} {x : Nat} {tid : TID} {b : Bool}
    (h : s.deleteVersion x tid = .ok (s', b)) :
    s' = s ∨ (s'.manager = s.manager ∧ s'.log = s.log ++ [⟨x, s.rowOf tid, some (s.origin tid), none⟩]) := by
  obtain ⟨u, -, h⟩ := bind_eq_ok.1 h
  obtain ⟨⟨table, b'⟩, -, h⟩ := bind_eq_ok.1 h
  cases b' with
  | false => cases h; exact Or.inl rfl
  | true => cases h; exact Or.inr ⟨rfl, rfl⟩

theorem TableState.insertMvcc_log {s s' : TableState} {x : Nat} {values : Values} {tid : TID}
    (h : s.insertMvcc x values = .ok (s', tid)) :
    s'.heap.manager = s.heap.manager ∧
      ∃ validated, s'.heap.log = s.heap.log ++ [⟨x, s.heap.log.length, none, some validated⟩] := by
  obtain ⟨validated, -, h⟩ := bind_eq_ok.1 h
  obtain ⟨keys, -, h⟩ := bind_eq_ok.1 h
  obtain ⟨u, -, h⟩ := bind_eq_ok.1 h
  obtain ⟨⟨heap, tid'⟩, hins, he⟩ := bind_eq_ok.1 h
  cases he
  obtain ⟨u, -, hins⟩ := bind_eq_ok.1 hins
  obtain ⟨⟨table, tid''⟩, -, he⟩ := bind_eq_ok.1 hins
  cases he
  exact ⟨rfl, validated, rfl⟩

theorem TableState.replaceChecked_heap {s s' : TableState} {x : Nat} {a : TID} {old values : Values} {r : Option TID}
    (h : s.replaceChecked x a old values = .ok (s', r)) :
    (s' = s ∧ r = none) ∨ ∃ validated new, r = some new ∧ s.heap.replaceVersion x a validated = .ok (s'.heap, some new) := by
  obtain ⟨validated, -, h⟩ := bind_eq_ok.1 h
  obtain ⟨oldKeys, -, h⟩ := bind_eq_ok.1 h
  obtain ⟨newKeys, -, h⟩ := bind_eq_ok.1 h
  obtain ⟨u, -, h⟩ := bind_eq_ok.1 h
  obtain ⟨⟨heap, replacement⟩, hr, h⟩ := bind_eq_ok.1 h
  cases replacement with
  | none => cases h; exact Or.inl ⟨rfl, rfl⟩
  | some new =>
    simp only at h
    split at h
    · cases h; exact Or.inr ⟨validated, new, rfl, hr⟩
    · cases h; exact Or.inr ⟨validated, new, rfl, hr⟩

section Calls

variable {s : WriterState}

theorem Moved.of_log {s' : WriterState} (hs : HeapStepped True s.heap s'.heap)
    (hman : s'.heap.manager = s.heap.manager ∨ ∃ c, s.heap.manager.call c = .ok s'.heap.manager)
    (hlog : s'.heap.log = s.heap.log)
    (howners : ∀ r y, s.locks.owners r = some y → y ∈ s'.active → s'.locks.owners r = some y)
    (htasks : ∀ y k', s'.tasks y = some k' → y ∈ s'.active ∧ (s.tasks y = some k' ∨ (s'.heap = s.heap ∧ (Started s y k' ∨
      ∃ k stage, s.tasks y = some k ∧ Turned s s' y k stage ∧ k' = { k with stage := stage })))) : Moved s s' :=
  ⟨hs, hman, fun w he => absurd he (by rw [hlog]; simp), howners, htasks⟩

theorem moved_same (h : WriterInv s) : Moved s s :=
  .of_log .same (Or.inl rfl) rfl (fun _ _ ho _ => ho) (fun y k hk => ⟨(h.tasks y k hk).active, Or.inl hk⟩)

/-- Only row writes end: the heap, the locks and the other row writes are as they were. -/
theorem moved_dropTask (h : WriterInv s) (x : Nat) : Moved s { s with tasks := Function.update s.tasks x none } := by
  refine .of_log .same (Or.inl rfl) rfl (fun _ _ ho _ => ho) (fun y k hk => ?_)
  simp only [Function.update_apply] at hk
  split at hk
  · cases hk
  · exact ⟨(h.tasks y k hk).active, Or.inl hk⟩

theorem moved_managed (h : WriterInv s) {c : TransactionManager.Call} {m : TransactionManager}
    (hm : s.heap.manager.call c = .ok m) (hc : ∀ y, c ≠ .commit y ∧ c ≠ .abort y) : Moved s (s.setManager m) :=
  .of_log (.manager m (TransactionManager.stepped_of_call hm)) (Or.inr ⟨_, hm⟩) rfl (fun _ _ ho _ => ho)
    (fun y k hk => ⟨active_of_call h.heap.manager hm (h.tasks y k hk).active (hc y), Or.inl hk⟩)

theorem moved_ended (h : WriterInv s) {x : Nat} {c : TransactionManager.Call} {m : TransactionManager}
    (hm : s.heap.manager.call c = .ok m) (hx : x ∉ m.active) (hkeep : ∀ y ∈ s.active, y ≠ x → y ∈ m.active) :
    Moved s { s.setManager m with locks := s.locks.releaseAll x, tasks := Function.update s.tasks x none } := by
  refine .of_log (.manager m (TransactionManager.stepped_of_call hm)) (Or.inr ⟨_, hm⟩) rfl
    (fun r y ho hy => ?_) (fun y k hk => ?_)
  · refine LockManager.releaseAll_owners.2 ⟨ho, ?_⟩
    rintro rfl
    exact hx hy
  · simp only [Function.update_apply] at hk
    split at hk
    · cases hk
    · rename_i hyx
      exact ⟨hkeep y (h.tasks y k hk).active hyx, Or.inl hk⟩

theorem not_active_ended {m m' : TransactionManager} (hi : TransactionManager.Inv m) {x : Nat} {t : Transaction}
    {state : TransactionState} {status : TransactionStatus} (ht : m.transactions x = some t)
    (he : m' = m.ended { t with state := state } status) : x ∉ m'.active := by
  subst he
  simp [TransactionManager.ended, (hi.object x t ht).1]

theorem moved_managerCall (h : WriterInv s) (c : TransactionManager.Call) : Moved s (s.managerCall c) := by
  unfold WriterState.managerCall
  split
  · exact moved_same h
  · rename_i m hm
    have hkeep : ∀ x, (∀ y, y ≠ x → c ≠ .commit y ∧ c ≠ .abort y) → ∀ y ∈ s.active, y ≠ x → y ∈ m.active :=
      fun x hx y hy hyx => active_of_call h.heap.manager hm hy (hx y hyx)
    cases c with
    | begin i => exact moved_managed h hm (fun y => ⟨by simp, by simp⟩)
    | statementSnapshot x => exact moved_managed h hm (fun y => ⟨by simp, by simp⟩)
    | markFailed x => exact moved_managed h hm (fun y => ⟨by simp, by simp⟩)
    | commit x =>
      obtain ⟨t, ht, -, he⟩ := TransactionManager.commit_eq_ok hm
      refine moved_ended h hm (not_active_ended h.heap.manager ht he)
        (hkeep x (fun y hyx => ⟨?_, by simp⟩))
      simpa using hyx.symm
    | abort x =>
      obtain ⟨t, ht, -, he⟩ := TransactionManager.abort_eq_ok hm
      refine moved_ended h hm (not_active_ended h.heap.manager ht he)
        (hkeep x (fun y hyx => ⟨by simp, ?_⟩))
      simpa using hyx.symm

theorem moved_failTask (h : WriterInv s) (x : Nat) : Moved s (s.failTask x) := by
  unfold WriterState.failTask
  split
  · rename_i m hm
    refine .of_log (.manager m (TransactionManager.stepped_of_call hm)) (Or.inr ⟨_, hm⟩) rfl
      (fun _ _ ho _ => ho) (fun y k hk => ?_)
    simp only [Function.update_apply] at hk
    split at hk
    · cases hk
    · exact ⟨active_of_call h.heap.manager hm (h.tasks y k hk).active ⟨by simp, by simp⟩, Or.inl hk⟩
  · exact moved_dropTask h x

theorem moved_insert (h : WriterInv s) {x : Nat} {values : Values} {table : TableState} {tid : TID}
    (hins : s.table.insertMvcc x values = .ok (table, tid)) : Moved s { s with table := table } := by
  obtain ⟨hman, validated, hlog⟩ := TableState.insertMvcc_log hins
  refine ⟨TableState.insertMvcc_stepped h.heap.manager hins, Or.inl hman, fun w he ht => ?_, fun _ _ ho _ => ho,
    fun y k hk => ⟨?_, Or.inl hk⟩⟩
  · cases List.append_cancel_left (hlog.symm.trans he)
    exact absurd rfl ht
  · show y ∈ table.heap.manager.active
    rw [hman]
    exact (h.tasks y k hk).active

theorem moved_createIndex (h : WriterInv s) {md : IndexMetadata} {d : List DataType} {table : TableState}
    (hc : s.table.createIndex md d = .ok table) : Moved s { s with table := table } := by
  obtain ⟨rows, -, hc⟩ := bind_eq_ok.1 hc
  obtain ⟨tree, -, he⟩ := bind_eq_ok.1 hc
  cases he
  exact .of_log .same (Or.inl rfl) rfl (fun _ _ ho _ => ho) (fun y k hk => ⟨(h.tasks y k hk).active, Or.inl hk⟩)

theorem moved_startWrite (h : WriterInv s) {leased : Bool} {x : Nat} {w : RowWrite} {tid : TID} {sn : Snapshot}
    {recheck : Values → Bool} {s' : WriterState} (hw : s.startWrite leased x w tid sn recheck = .ok s') : Moved s s' := by
  obtain ⟨t, ht, hw⟩ := bind_eq_ok.1 hw
  obtain ⟨u, hu, hw⟩ := bind_eq_ok.1 hw
  have hobj := TransactionManager.object_eq_ok ht
  have hactive := TransactionManager.requireUsable_eq_ok hu
  split at hw
  · exact absurd hw raise_ne_ok
  · rename_i hsn
    split at hw
    · exact absurd hw raise_ne_ok
    · rename_i v hv
      split at hw
      · rename_i hvis
        obtain ⟨root, hroot, he⟩ := bind_eq_ok.1 hw
        cases he
        refine .of_log .same (Or.inl rfl) rfl (fun _ _ ho _ => ho) (fun y k hk => ?_)
        simp only [Function.update_apply] at hk
        split at hk
        · rename_i hyx
          subst hyx
          cases hk
          refine ⟨(h.heap.manager.active y).2 ⟨t, hobj, Or.inl hactive⟩, Or.inr ⟨rfl, Or.inl ?_⟩⟩
          refine ⟨⟨t, hobj, hactive, fun hi => ?_⟩, ⟨v, hv, hvis⟩, rfl, ⟨root, hroot, rfl⟩⟩
          by_contra hne
          exact hsn ⟨hi, hne⟩
        · exact ⟨(h.tasks y k hk).active, Or.inl hk⟩
      · exact absurd hw raise_ne_ok

theorem moved_stage (h : WriterInv s) {x : Nat} {k : RowTask} (hk : s.tasks x = some k) {locks : LockManager}
    {stage : WriteStage} (howners : ∀ r y, s.locks.owners r = some y → locks.owners r = some y)
    (hturn : Turned s (WriterState.setTask { s with locks := locks } x k (some stage)) x k stage) :
    Moved s (WriterState.setTask { s with locks := locks } x k (some stage)) := by
  refine .of_log .same (Or.inl rfl) rfl (fun r y ho _ => howners r y ho) (fun y k' hk' => ?_)
  simp only [WriterState.setTask, Function.update_apply, Option.map_some] at hk'
  split at hk'
  · rename_i hyx
    subst hyx
    cases hk'
    exact ⟨(h.tasks y k hk).active, Or.inr ⟨rfl, Or.inr ⟨k, stage, hk, hturn, rfl⟩⟩⟩
  · exact ⟨(h.tasks y k' hk').active, Or.inl hk'⟩

theorem moved_wrote (h : WriterInv s) {x : Nat} {k : RowTask} (hk : s.tasks x = some k) {root a : TID} {old : Values}
    (hst : k.stage = .writing root a old) {table : TableState} (hs : HeapStepped True s.heap table.heap)
    (hlog : table.heap = s.heap ∨ (table.heap.manager = s.heap.manager ∧
      ∃ value, table.heap.log = s.heap.log ++ [⟨x, s.heap.rowOf a, some (s.heap.origin a), value⟩])) :
    Moved s (WriterState.setTask { s with table := table } x k none) := by
  have hman : table.heap.manager = s.heap.manager := by
    rcases hlog with he | ⟨hm, -⟩
    · rw [he]
    · exact hm
  refine ⟨hs, Or.inl hman, fun w he htw => ?_, fun _ _ ho _ => ho, fun y k' hk' => ?_⟩
  · have hlog' : ∃ value, table.heap.log = s.heap.log ++ [⟨x, s.heap.rowOf a, some (s.heap.origin a), value⟩] := by
      rcases hlog with heq | ⟨-, hl⟩
      · exact absurd he (by simp [WriterState.setTask, WriterState.heap, heq])
      · exact hl
    obtain ⟨value, hlog'⟩ := hlog'
    cases List.append_cancel_left (hlog'.symm.trans he)
    exact ⟨k, root, a, old, hk, hst, rfl, rfl, by simp [WriterState.setTask]⟩
  · simp only [WriterState.setTask, Function.update_apply, Option.map_none] at hk'
    split at hk'
    · cases hk'
    · refine ⟨?_, Or.inl hk'⟩
      show y ∈ table.heap.manager.active
      rw [hman]
      exact (h.tasks y k' hk').active

theorem TaskInv.liveFor (h : WriterInv s) {x : Nat} {k : RowTask} (ht : TaskInv s x k) {root a : TID} {old : Values}
    (hst : k.stage = .writing root a old) : ∀ v, s.look a = some v → LiveFor s.heap.manager x v := by
  intro v hv
  have hres := ht.live (some (a, old)) (by rw [hst]; rfl)
  obtain ⟨u, hu, -, hp, -⟩ := (ht.root.resolved_live h.heap h.targets ht.active).1 hres
  obtain rfl : u = v := by
    have := hu.symm.trans hv
    cases this
    rfl
  exact ((h.heap.globallyLive_iff hu).1 hp).1

theorem moved_turn (h : WriterInv s) {x : Nat} {k : RowTask} (hk : s.tasks x = some k) {s' : WriterState}
    {stage : Option WriteStage} (hturn : s.turn x k = .ok (s', stage)) : Moved s (s'.setTask x k stage) := by
  unfold WriterState.turn at hturn
  cases hst : k.stage with
  | locking root =>
    rw [hst] at hturn
    obtain ⟨u, -, hturn⟩ := bind_eq_ok.1 hturn
    have hacq := LockManager.acquire_owners s.locks x root
    generalize s.locks.acquire x root = q at hacq hturn
    obtain ⟨locks, granted⟩ := q
    cases hturn
    rcases hacq with ⟨he, hgot⟩ | ⟨hfree, he, hgot⟩
    · simp only at he hgot
      cases granted with
      | false => exact moved_stage h hk (fun r y ho => by rw [he]; exact ho) (.waits root hst)
      | true =>
        refine moved_stage h hk (fun r y ho => by rw [he]; exact ho) (.locks root hst ?_)
        show locks.owners root = some x
        rw [he]
        exact hgot rfl
    · simp only at he hgot
      subst hgot
      refine moved_stage h hk (fun r y ho => ?_) (.locks root hst ?_)
      · rw [he, Function.update_of_ne]
        · exact ho
        · rintro rfl
          rw [hfree] at ho
          cases ho
      · show locks.owners root = some x
        rw [he]
        exact Function.update_self _ _ _
  | resolving root =>
    rw [hst] at hturn
    obtain ⟨live, hlive, hturn⟩ := bind_eq_ok.1 hturn
    cases hturn
    exact moved_stage h hk (fun _ _ ho => ho) (.resolves root live hst hlive)
  | checking root live =>
    rw [hst] at hturn
    obtain ⟨t, ht, hturn⟩ := bind_eq_ok.1 hturn
    obtain ⟨u, hu, hturn⟩ := bind_eq_ok.1 hturn
    cases live with
    | none =>
      cases hwr : k.write with
      | update values => rw [hwr] at hturn; exact absurd hturn raise_ne_ok
      | delete =>
        rw [hwr] at hturn
        cases hturn
        exact moved_dropTask h x
    | some q =>
      obtain ⟨a, old⟩ := q
      simp only at hturn
      split at hturn
      · cases hturn
        exact moved_dropTask h x
      · cases hturn
        exact moved_stage h hk (fun _ _ ho => ho) (.checks root a old t hst (TransactionManager.object_eq_ok ht) hu)
  | writing root a old =>
    rw [hst] at hturn
    have hlive := (h.tasks x k hk).liveFor h hst
    cases hwr : k.write with
    | update values =>
      rw [hwr] at hturn
      obtain ⟨⟨table, replacement⟩, hr, hturn⟩ := bind_eq_ok.1 hturn
      rcases TableState.replaceChecked_heap hr with ⟨rfl, rfl⟩ | ⟨validated, new, rfl, hrep⟩
      · exact absurd hturn raise_ne_ok
      · cases hturn
        refine moved_wrote h hk hst (HeapState.replaceVersion_stepped h.heap.manager (fun _ => hlive) hrep) ?_
        exact (HeapState.replaceVersion_log hrep).imp_right (fun hl => ⟨hl.1, _, hl.2⟩)
    | delete =>
      rw [hwr] at hturn
      obtain ⟨⟨heap, b⟩, hr, hturn⟩ := bind_eq_ok.1 hturn
      cases hturn
      refine moved_wrote h hk hst (HeapState.deleteVersion_stepped h.heap.manager (fun _ => hlive) hr) ?_
      exact (HeapState.deleteVersion_log hr).imp_right (fun hl => ⟨hl.1, _, hl.2⟩)

/-- **A call that is not a vacuum has one of these effects.** -/
theorem step_moved (h : WriterInv s) {c : WriterCall} (hc : ∀ horizon, c ≠ .vacuum horizon) : Moved s (s.step c) := by
  cases c with
  | manager c =>
    cases c with
    | commit x =>
      simp only [WriterState.step]
      split
      · exact moved_same h
      · exact moved_managerCall h _
    | begin i => exact moved_managerCall h (.begin i)
    | statementSnapshot x => exact moved_managerCall h (.statementSnapshot x)
    | abort x => exact moved_managerCall h (.abort x)
    | markFailed x => exact moved_managerCall h (.markFailed x)
  | insert x values =>
    simp only [WriterState.step]
    split
    · rename_i table tid hins
      exact moved_insert h hins
    · exact moved_same h
  | createIndex md d =>
    simp only [WriterState.step]
    split
    · rename_i table hcr
      exact moved_createIndex h hcr
    · exact moved_same h
  | write leased x w tid sn recheck =>
    simp only [WriterState.step]
    split
    · rename_i s' _ hw
      exact moved_startWrite h hw
    · exact moved_same h
  | turn x =>
    simp only [WriterState.step]
    split
    · exact moved_same h
    · rename_i k hk
      split
      · rename_i s' stage hturn
        exact moved_turn h hk hturn
      · exact moved_failTask h x
  | vacuum horizon => exact absurd rfl (hc horizon)

end Calls

/-! ## What such a call keeps -/

section Keeps

variable {s s' : WriterState}

theorem TaskInv.row_of_writing (h : WriterInv s) {x : Nat} {k : RowTask} (ht : TaskInv s x k) {root a : TID} {old : Values}
    (hst : k.stage = .writing root a old) : s.heap.rowOf a = s.heap.rowOf k.stage.root := by
  obtain ⟨v, -, hrow, -⟩ := (ht.root.resolved_live h.heap h.targets ht.active).1
    (ht.live (some (a, old)) (by rw [hst]; rfl))
  exact hrow

theorem RowRoot.resolveGloballyLive {h : HeapState} (hi : HeapInv h) {x : Nat} {r : TID} (hr : RowRoot h x r)
    (y : Nat) (st : StatusTable) :
    h.table.resolveGloballyLive r y st = .ok (h.table.resolved (fun v => HeapTable.globallyLive v y st) r) := by
  obtain ⟨hmem, v, hv, -⟩ := hr
  obtain ⟨r', hr', hmem', hreach⟩ := HeapTable.rootTid_ok hi.mirror hi.wf (a := r) (by rw [hv]; simp)
  obtain rfl := HeapTable.root_unique hi.mirror hi.wf hmem' hmem hreach .refl
  rw [HeapTable.resolveGloballyLive, hr']
  exact HeapTable.resolveGloballyLiveFromRoot_ok hi.mirror hi.wf r' y st

theorem Started.taskInv (h : WriterInv s) {x : Nat} {k : RowTask} (hk : Started s x k) : TaskInv s x k := by
  obtain ⟨t, ht, hact, -⟩ := hk.usable
  obtain ⟨v, hv, hvis⟩ := hk.visible
  obtain ⟨root, hroot, hst⟩ := hk.stage
  have hlv : LiveFor s.heap.manager x v := creator_of_visible (h.heap.xmin_pos hv).1 hvis
  obtain ⟨r, hr, hmem, hreach⟩ := HeapTable.rootTid_ok h.heap.mirror h.heap.wf (a := k.tid) (by
    show s.look k.tid ≠ none
    rw [hv]; simp)
  obtain rfl : r = root := by
    rw [hroot] at hr
    exact (Except.ok.inj hr).symm
  obtain ⟨⟨vr, hvr⟩, -⟩ := HeapTable.mem_roots.1 hmem
  refine ⟨(h.heap.manager.active x).2 ⟨t, ht, Or.inl hact⟩, ?_, ?_, fun hl => ?_, fun l hl => ?_⟩
  · rw [hst]
    exact ⟨hmem, vr, hvr, h.heap.live_back h.targets hreach hvr hv hlv⟩
  · rw [hst, hk.row]
    exact (h.heap.mirror.row_of_reach h.heap.wf (by rw [hvr]; simp) hreach).2.symm
  · rw [hst] at hl; cases hl
  · rw [hst] at hl; cases hl

theorem Turned.taskInv (h : WriterInv s) (hheap : s'.heap = s.heap)
    (howners : ∀ r y, s.locks.owners r = some y → y ∈ s'.active → s'.locks.owners r = some y) {x : Nat} {k : RowTask}
    {stage : WriteStage} (ht : TaskInv s x k) (hturn : Turned s s' x k stage) : TaskInv s' x { k with stage := stage } := by
  have hact : x ∈ s'.active := by
    show x ∈ s'.heap.manager.active
    rw [hheap]
    exact ht.active
  have hroot : stage.root = k.stage.root := by
    cases hturn with
    | waits root hk => rw [hk]
    | locks root hk ho => rw [hk]; rfl
    | resolves root live hk hl => rw [hk]; rfl
    | checks root a old t hk ht hc => rw [hk]; rfl
  have hlive : ∀ live, stage.live = some live →
      s.heap.table.resolved (fun v => HeapTable.globallyLive v x s.statuses) stage.root = live := by
    intro live hl
    cases hturn with
    | waits root hk => cases hl
    | locks root hk ho => cases hl
    | resolves root live' hk hres =>
      cases hl
      have hrr := ht.root
      rw [hk] at hrr
      have hres' : s.heap.table.resolveGloballyLive root x s.statuses = _ := hrr.resolveGloballyLive h.heap x s.statuses
      rw [hres', Except.ok.injEq] at hres
      exact hres
    | checks root a old t hk _ _ =>
      cases hl
      have := ht.live (some (a, old)) (by rw [hk]; rfl)
      rw [hk] at this
      exact this
  have hlocked : stage.locked = true → s'.locks.owners stage.root = some x := by
    intro hl
    cases hturn with
    | waits root hk => cases hl
    | locks root hk ho => exact ho
    | resolves root live' hk hres => exact hroot ▸ howners _ _ (ht.locked (by rw [hk]; rfl)) hact
    | checks root a old t hk _ _ => exact hroot ▸ howners _ _ (ht.locked (by rw [hk]; rfl)) hact
  refine ⟨hact, ?_, ?_, hlocked, fun live hl => ?_⟩
  · show RowRoot s'.heap x stage.root
    rw [hheap, hroot]
    exact ht.root
  · show s'.heap.rowOf stage.root = k.row
    rw [hheap, hroot]
    exact ht.row
  · show s'.heap.table.resolved (fun v => HeapTable.globallyLive v x s'.heap.manager.statuses) stage.root = live
    rw [hheap]
    exact hlive live hl

/-- **A row write under way keeps its invariant over the calls of others.** -/
theorem Moved.taskInv (h : WriterInv s) (hm : Moved s s') {y : Nat} {k : RowTask} (hk : s.tasks y = some k)
    (hk' : s'.tasks y = some k) (ha : y ∈ s'.active) : TaskInv s' y k := by
  have hti := h.tasks y k hk
  have hs := hm.stepped
  have hrowOf : s'.heap.rowOf k.stage.root = s.heap.rowOf k.stage.root := by
    obtain ⟨-, u, hu, -⟩ := hti.root
    exact hs.rowOf_stays h.heap hu
  refine ⟨ha, hti.root.stays h.heap hs, hrowOf.trans hti.row, fun hl => hm.owners _ _ (hti.locked hl) ha,
    fun live hlive => ?_⟩
  · have hlocked := WriteStage.locked_of_live hlive
    rw [← hti.live live hlive]
    refine hti.root.resolved_stays h.heap h.targets hti.active (h.quiet hk hlocked) hs ha
      (hs.untouched h.heap (fun w he hrow => ?_))
    by_cases ht : w.target = none
    · -- a new row
      have hwlog : s'.heap.log[s.heap.log.length]? = some w := by
        rw [he]; exact getElem?_concat.2 (Or.inr ⟨rfl, rfl⟩)
      obtain ⟨-, u, hu, -⟩ := hti.root
      obtain ⟨z, hz, -, -, hrz⟩ := h.heap.origin_write hu
      have h1 := ((heapInv_stepped h.heap hs).wf.starts _ w hwlog ht).1
      have h2 := h.heap.wf.row_le _ z hz
      have h3 := History.lt_of_getElem? hz
      omega
    · -- a write of the row would come from a row write that has the same lock
      obtain ⟨k', root', a, old, hk'', hst, -, hrow', hnone⟩ := hm.wrote w he ht
      have hti' := h.tasks w.writer k' hk''
      have hroot := hti'.root.unique h.heap h.targets hti'.active hti.active hti.root
        ((hti'.row_of_writing h hst).symm.trans (hrow'.symm.trans hrow))
      have ho := hti'.locked (by rw [hst]; rfl)
      rw [hroot, hti.locked hlocked] at ho
      rw [← Option.some.inj ho, hk'] at hnone
      cases hnone

/-- **A call that is not a vacuum keeps the invariant.** -/
theorem Moved.writerInv (h : WriterInv s) (hm : Moved s s') : WriterInv s' := by
  have hs := hm.stepped
  have hrowOf : ∀ {y : Nat} {r : TID}, RowRoot s.heap y r → s'.heap.rowOf r = s.heap.rowOf r := by
    rintro y r ⟨-, v, hv, -⟩
    exact hs.rowOf_stays h.heap hv
  refine ⟨heapInv_stepped h.heap hs, liveTargets_stepped h.heap h.targets hs, marked_stepped h.heap hs h.marked,
    fun j w hw ht ha => ?_, fun y k' hk' => ?_⟩
  · have hold : s.heap.log[j]? = some w → ∃ r, RowRoot s'.heap w.writer r ∧ s'.heap.rowOf r = w.row ∧
        s'.locks.owners r = some w.writer := by
      intro hw'
      obtain ⟨r, hr, hrow, ho⟩ := h.held j w hw' ht (hs.active_before h.heap ha (h.heap.writer_pos hw').2)
      exact ⟨r, hr.stays h.heap hs, (hrowOf hr).trans hrow, hm.owners r _ ho ha⟩
    rcases hs.log_cases with he | ⟨u, he, -⟩
    · rw [he] at hw
      exact hold hw
    · rw [he] at hw
      rcases getElem?_concat.1 hw with hw' | ⟨-, rfl⟩
      · exact hold hw'
      · obtain ⟨k, root, a, old, hk, hst, -, hrow, -⟩ := hm.wrote w he ht
        have hti := h.tasks w.writer k hk
        exact ⟨k.stage.root, hti.root.stays h.heap hs,
          (hrowOf hti.root).trans ((hti.row_of_writing h hst).symm.trans hrow.symm),
          hm.owners _ _ (hti.locked (by rw [hst]; rfl)) ha⟩
  · obtain ⟨ha, hk | ⟨hheap, hstart | ⟨k, stage, hk, hturn, rfl⟩⟩⟩ := hm.tasks y k' hk'
    · exact hm.taskInv h hk hk' ha
    · have hti := hstart.taskInv h
      refine ⟨ha, hheap ▸ hti.root, hheap ▸ hti.row, fun hl => hm.owners _ _ (hti.locked hl) ha, fun live hl => ?_⟩
      · show s'.heap.table.resolved (fun v => HeapTable.globallyLive v y s'.heap.manager.statuses) k'.stage.root = live
        rw [hheap]
        exact hti.live live hl
    · exact hturn.taskInv h hheap hm.owners (h.tasks y k hk)

end Keeps

/-! ## Vacuums -/

/-- **The root names a lock in use**: a version on its chain carries the XID of an open transaction, or a row write under way
named its lock by it. -/
def WriterState.NamesLock (s : WriterState) (r : TID) : Prop :=
  (∃ a u, Linked.Reach s.look TupleVersion.nextTid r a ∧ s.look a = some u ∧ u.xmax ∈ s.active) ∨
    ∃ x k, s.tasks x = some k ∧ k.stage.root = r

/-- A vacuum that waits for a writer lease, or that returns, leaves no link behind, and keeps every root that names a lock in
use: the root is not dead, its chain is pruned, or it is held back. -/
def WriterCall.lockSafe (s : WriterState) : WriterCall → Prop
  | .vacuum horizon => s.leased = true ∨ ((TableCall.vacuum horizon).chainSafe s.table ∧
      ∀ r v, r ∈ s.heap.table.roots → s.look r = some v → s.NamesLock r →
        classifyVersion v horizon s.statuses = .keep ∨ OnPruned s.table.table r ∨
          heldBack s.heap.table s.table.indexes v = .ok true)
  | _ => True

def WriterState.vacuumed (s : WriterState) (t : IndexedTable) : WriterState :=
  { s with table := ⟨{ s.heap with table := t.heap }, t.indexes⟩ }

section Vacuumed

variable {s : WriterState} {horizon : Nat} {t' : IndexedTable} {res : VacuumResult}

theorem vacuumed_stored (h : WriterInv s) (hv : s.table.table.vacuum horizon s.statuses = .ok (t', res)) {a : TID}
    (ha : t'.heap.physicalVersion a ≠ none) : s.look a ≠ none :=
  vacuum_stored (show Mirror (Retired s.statuses) s.table.table.heap.physicalVersion s.heap.log s.heap.origin from
    h.heap.mirror) h.heap.wf hv ha

theorem vacuumed_body (h : WriterInv s) (hi' : HeapInv (s.vacuumed t').heap) {a : TID} {v v' : TupleVersion}
    (ha : s.look a = some v) (ha' : t'.heap.physicalVersion a = some v') : SameBody v v' :=
  (h.heap.mirror.carries _ _ ha).sameBody (hi'.mirror.carries _ _ ha')

theorem vacuumed_keeps (h : WriterInv s) (hv : s.table.table.vacuum horizon s.statuses = .ok (t', res))
    (hi' : HeapInv (s.vacuumed t').heap) {a : TID} {v : TupleVersion} (ha : s.look a = some v)
    (hkeep : classifyVersion v horizon s.statuses = .keep) :
    ∃ v', t'.heap.physicalVersion a = some v' ∧ SameBody v v' := by
  have h0 : Mirror (Retired s.statuses) s.table.table.heap.physicalVersion s.heap.log s.heap.origin := h.heap.mirror
  obtain ⟨v', hv'⟩ := Option.ne_none_iff_exists'.1 (vacuum_kept h0 h.heap.wf hv ha hkeep)
  exact ⟨v', hv', vacuumed_body h hi' ha hv'⟩

theorem RowRoot.vacuumed (h : WriterInv s) (hv : s.table.table.vacuum horizon s.statuses = .ok (t', res))
    (hi' : HeapInv (s.vacuumed t').heap) {x : Nat} {r : TID} (hr : RowRoot s.heap x r)
    (hkeep : ∀ v, s.look r = some v → classifyVersion v horizon s.statuses = .keep ∨ OnPruned s.table.table r ∨
      heldBack s.heap.table s.table.indexes v = .ok true) : RowRoot (s.vacuumed t').heap x r := by
  obtain ⟨hmem, v, hrv, hlv⟩ := hr
  have h0 : Mirror (Retired s.statuses) s.table.table.heap.physicalVersion s.heap.log s.heap.origin := h.heap.mirror
  obtain ⟨v', hv'⟩ := Option.ne_none_iff_exists'.1 (vacuum_root_stored h0 h.heap.wf hv hmem hrv (hkeep v hrv))
  refine ⟨HeapTable.mem_roots.2 ⟨⟨v', hv'⟩, fun b z hb => ?_⟩, v', hv', ?_⟩
  · exact h0.unnamed_stays hi'.mirror h.heap.wf (fun _ => vacuumed_stored h hv) (HeapTable.mem_roots.1 hmem).2 hb
  · show v'.xmin = x ∨ s.statuses v'.xmin = some .committed
    rw [(vacuumed_body h hi' hrv hv').1]
    exact hlv

theorem keep_of_live (h : WriterInv s) {x : Nat} (hx : x ∈ s.active) {a : TID} {v : TupleVersion} (ha : s.look a = some v)
    (hp : HeapTable.globallyLive v x s.statuses = true) : classifyVersion v horizon s.statuses = .keep := by
  refine VersionDisposition.eq_keep (fun hdead => ?_)
  obtain ⟨hlive, hnot⟩ := (h.heap.globallyLive_iff ha).1 hp
  rcases classifyVersion_dead hdead with ⟨-, hab⟩ | ⟨-, -, hc⟩
  · exact LiveFor.unaborted h.heap hx hlive hab
  · refine hnot ⟨fun h0 => ?_, Or.inr hc⟩
    have hzero : s.statuses 0 = none := h.heap.manager.status_zero
    rw [h0, hzero] at hc
    cases hc

/-- **A row write under way keeps its invariant over a vacuum that keeps its root**: the live version of the row stays. -/
theorem TaskInv.vacuumed (h : WriterInv s) (hv : s.table.table.vacuum horizon s.statuses = .ok (t', res))
    (hi' : HeapInv (s.vacuumed t').heap) {x : Nat} {k : RowTask} (hk : TaskInv s x k)
    (hkeep : ∀ v, s.look k.stage.root = some v → classifyVersion v horizon s.statuses = .keep ∨
      OnPruned s.table.table k.stage.root ∨ heldBack s.heap.table s.table.indexes v = .ok true) :
    TaskInv (s.vacuumed t') x k := by
  have hroot := hk.root.vacuumed h hv hi' hkeep
  have hlive : ∀ {a : TID} {v v' : TupleVersion}, s.look a = some v → t'.heap.physicalVersion a = some v' →
      HeapTable.globallyLive v' x s.statuses = HeapTable.globallyLive v x s.statuses := by
    intro a v v' ha ha'
    obtain ⟨hmin, hmax, -⟩ := vacuumed_body h hi' ha ha'
    rw [HeapTable.globallyLive, HeapTable.globallyLive, hmin, hmax]
  have hafter : ∀ {a : TID} {values : Values}, (s.vacuumed t').heap.table.resolved
      (fun v => HeapTable.globallyLive v x s.statuses) k.stage.root = some (a, values) ↔ _ :=
    hroot.resolved_live hi' h.targets hk.active
  refine ⟨hk.active, hroot, hk.row, hk.locked, fun live hst => ?_⟩
  have hbefore := hk.live live hst
  cases live with
  | some q =>
    obtain ⟨a, old⟩ := q
    obtain ⟨v, ha, hrow, hp, hvals⟩ := (hk.root.resolved_live h.heap h.targets hk.active).1 hbefore
    obtain ⟨v', ha', hbody⟩ := vacuumed_keeps h hv hi' ha (keep_of_live h hk.active ha hp)
    exact hafter.2 ⟨v', ha', hrow, (hlive ha ha').trans hp, hbody.2.2.trans hvals⟩
  | none =>
    refine Option.eq_none_iff_forall_ne_some.2 (fun q hq => ?_)
    obtain ⟨v', ha', hrow, hp, hvals⟩ := hafter.1 hq
    obtain ⟨v, ha⟩ := Option.ne_none_iff_exists'.1 (vacuumed_stored h hv (show t'.heap.physicalVersion q.1 ≠ none by
      have ha'' : t'.heap.physicalVersion q.1 = some v' := ha'
      rw [ha'']; simp))
    have hfound := (hk.root.resolved_live h.heap h.targets hk.active).2
      ⟨v, ha, hrow, (hlive ha ha').symm.trans hp, (vacuumed_body h hi' ha ha').2.2.symm.trans hvals⟩
    cases hfound.symm.trans hbefore

end Vacuumed

/-- **Such a vacuum keeps the invariant.** -/
theorem writerInv_vacuum {s : WriterState} (h : WriterInv s) {horizon : Nat} (hsafe : (WriterCall.vacuum horizon).lockSafe s) :
    WriterInv (s.step (.vacuum horizon)) := by
  by_cases hl : s.leased = true
  · rw [WriterState.step, if_pos hl]
    exact h
  rw [WriterState.step, if_neg hl]
  obtain ⟨hchain, hroots⟩ := hsafe.resolve_left hl
  have hi' : HeapInv (s.table.step (.vacuum horizon)).heap := TableState.heapInv_step h.heap hchain
  obtain ⟨⟨⟨t', res⟩, hv⟩, -⟩ := hchain
  have hstep : s.table.step (.vacuum horizon) = ⟨{ s.heap with table := t'.heap }, t'.indexes⟩ := by
    rw [TableState.step_vacuum, vacuumEffect_of_ok hv]
    rfl
  rw [hstep] at hi' ⊢
  refine ⟨hi', h.targets, fun j w i hw ht ha => ?_, fun j w hw ht ha => ?_, fun x k hk => ?_⟩
  · -- a version that an open transaction wrote over is not dead
    obtain ⟨a, v, hav, ho, hx⟩ := h.marked j w i hw ht ha
    have hkeep : classifyVersion v horizon s.statuses = .keep := by
      refine VersionDisposition.eq_keep (fun hdead => ?_)
      obtain ⟨u, hu, hxu, -⟩ := h.heap.origin_write hav
      rw [ho] at hu
      have hlive : LiveFor s.heap.manager w.writer v := by
        have := h.targets j w i u hw ht hu
        rw [hxu] at this
        exact this
      rcases classifyVersion_dead hdead with ⟨-, hab⟩ | ⟨-, -, hc⟩
      · exact hlive.unaborted h.heap ha hab
      · have hnone : s.statuses w.writer = none := h.heap.manager.undecided _ ha
        rw [hx, hnone] at hc
        cases hc
    obtain ⟨v', hv', hbody⟩ := vacuumed_keeps h hv hi' hav hkeep
    exact ⟨a, v', hv', ho, hbody.2.1.trans hx⟩
  · obtain ⟨r, hr, hrow, ho⟩ := h.held j w hw ht ha
    obtain ⟨i, hi⟩ := Option.ne_none_iff_exists'.1 ht
    obtain ⟨a, u, hau, hoa, hxu⟩ := h.marked j w i hw hi ha
    have hua : u.xmax ∈ s.active := by rw [hxu]; exact ha
    -- the version written over is on the root's chain
    have hreach : Linked.Reach s.look TupleVersion.nextTid r a := by
      obtain ⟨y, hy, hxy, -, hry⟩ := h.heap.origin_write hau
      rw [hoa] at hy
      have hlive : LiveFor s.heap.manager w.writer u := by
        have := h.targets j w i y hw hi hy
        rw [hxy] at this
        exact this
      obtain ⟨-, y', hy', -, hrw⟩ := h.heap.wf.writes j w i hw hi
      rw [hy] at hy'
      cases hy'
      exact hr.reach h.heap h.targets ha hau hlive (hry.trans (hrw.trans hrow.symm))
    exact ⟨r, hr.vacuumed h hv hi' (fun v hrv => hroots r v hr.1 hrv (Or.inl ⟨a, u, hreach, hau, hua⟩)), hrow, ho⟩
  · have htask := h.tasks x k hk
    exact htask.vacuumed h hv hi' (fun v hrv => hroots _ v htask.root.1 hrv (Or.inr ⟨x, k, hk, rfl⟩))

/-! ## Runs -/

namespace WriterState

theorem writerInv_start (r : Recovered) (schema : Schema) : WriterInv (start r schema) := by
  refine ⟨heapInv_start r schema, fun j w i u hw => ?_, fun j w i hw => ?_, fun j w hw => ?_, fun x k hk => by cases hk⟩
  all_goals simp [start, TableState.start, HeapState.start, heap] at hw

/-- **Every call keeps the invariant**, a vacuum when it is safe. -/
theorem writerInv_step {s : WriterState} (h : WriterInv s) {c : WriterCall} (hc : c.lockSafe s) : WriterInv (s.step c) := by
  by_cases hv : ∀ horizon, c ≠ .vacuum horizon
  · exact (step_moved h hv).writerInv h
  · obtain ⟨horizon, rfl⟩ := not_forall_not.1 hv
    exact writerInv_vacuum h hc

theorem writerInv_run : ∀ (calls : List WriterCall) {s : WriterState}, WriterInv s → Along WriterCall.lockSafe s calls →
    WriterInv (s.run calls)
  | [], _, h, _ => h
  | _ :: calls, _, h, ⟨hc, hrest⟩ => writerInv_run calls (writerInv_step h hc) hrest

theorem lockSafe_of_no_vacuum {s : WriterState} {c : WriterCall} (hc : ∀ horizon, c ≠ .vacuum horizon) : c.lockSafe s := by
  cases c with
  | vacuum horizon => exact absurd rfl (hc horizon)
  | manager | insert | createIndex | write | turn => trivial

theorem along_of_no_vacuum : ∀ (calls : List WriterCall) {s : WriterState}, (∀ c ∈ calls, ∀ horizon, c ≠ .vacuum horizon) →
    Along WriterCall.lockSafe s calls
  | [], _, _ => trivial
  | c :: calls, _, h => ⟨lockSafe_of_no_vacuum (h c (List.mem_cons_self ..)),
      along_of_no_vacuum calls (fun d hd => h d (List.mem_cons_of_mem _ hd))⟩

theorem writable_of_live {s : HeapState} (hi : HeapInv s) {x row : Nat} (hq : Quiet s x row) {a : TID} {v : TupleVersion}
    (hv : s.table.physicalVersion a = some v) (hrow : s.rowOf a = row)
    (hp : HeapTable.globallyLive v x s.manager.statuses = true) : HeapTable.writable v s.manager.statuses = true := by
  have hlive := ((hi.globallyLive_iff hv).1 hp).2
  simp only [HeapTable.writable, decide_eq_true_eq]
  by_cases h0 : v.xmax = 0
  · exact Or.inl h0
  · refine Or.inr (get_eq_aborted.2 ?_)
    have hnl : ¬ s.Live x v.xmax := fun hl => hlive ⟨h0, hl⟩
    obtain ⟨j, u, hl, hxu⟩ := (hi.mirror.carries a v hv).deleted h0
    obtain ⟨t, ht⟩ := hi.writers u (List.mem_of_getElem? hl.get)
    rw [hxu] at ht
    have hna : v.xmax ∉ s.manager.active := ((hrow ▸ hq : Quiet s x (s.rowOf a)).settled hi hv rfl).2.resolve_left
      (fun he => hnl (Or.inl he)) |>.2
    cases hst : t.state with
    | active => exact absurd ((hi.manager.active _).2 ⟨t, ht, Or.inl hst⟩) hna
    | failed => exact absurd ((hi.manager.active _).2 ⟨t, ht, Or.inr hst⟩) hna
    | committed => exact absurd (Or.inr (hi.manager.committed _ t ht hst)) hnl
    | aborted => exact hi.manager.aborted _ t ht hst

theorem replaceVersion_not_refused {s s' : HeapState} {x : Nat} {a : TID} {v : TupleVersion} {values : Values}
    {r : Option TID} (hv : s.table.physicalVersion a = some v) (hw : HeapTable.writable v s.manager.statuses = true)
    (h : s.replaceVersion x a values = .ok (s', r)) : r ≠ none := by
  obtain ⟨u, -, h⟩ := bind_eq_ok.1 h
  obtain ⟨⟨table, r'⟩, hr, h⟩ := bind_eq_ok.1 h
  simp only [HeapTable.replaceVersion, hv, hw, if_true] at hr
  obtain ⟨⟨t₁, new⟩, -, hr⟩ := bind_eq_ok.1 hr
  obtain ⟨t₂, -, he⟩ := bind_eq_ok.1 hr
  cases he
  cases h
  simp

theorem deleteVersion_not_refused {s s' : HeapState} {x : Nat} {a : TID} {v : TupleVersion} {b : Bool}
    (hv : s.table.physicalVersion a = some v) (hw : HeapTable.writable v s.manager.statuses = true)
    (h : s.deleteVersion x a = .ok (s', b)) : b = true := by
  obtain ⟨u, -, h⟩ := bind_eq_ok.1 h
  obtain ⟨⟨table, b'⟩, hr, h⟩ := bind_eq_ok.1 h
  simp only [HeapTable.deleteVersion, hv, hw, if_true] at hr
  obtain ⟨t₁, -, he⟩ := bind_eq_ok.1 hr
  cases he
  cases h
  rfl

/-- What the tuple lock of a row write is for.  `root_tid` of every version of the row that is live for the transaction is
the lock's name; no version of the row carries the XID of another open transaction as its deleter; the heap does not refuse
the write of the version it resolved; and when it resolved none, every version of the row that is live for it was deleted by
itself or by a committed transaction. -/
structure Protected (s : WriterState) (x : Nat) (k : RowTask) : Prop where
  name    : ∀ a v, s.look a = some v → s.heap.rowOf a = k.row → s.heap.Live x v.xmin →
    s.heap.table.rootTid a = .ok k.stage.root
  owner   : s.locks.owners k.stage.root = some x
  alone   : ∀ a v, s.look a = some v → s.heap.rowOf a = k.row → v.xmax ≠ x → v.xmax ∉ s.active
  written : ∀ root a old, k.stage = .writing root a old →
    (∀ values s' r, s.heap.replaceVersion x a values = .ok (s', r) → r ≠ none) ∧
      ∀ s' b, s.heap.deleteVersion x a = .ok (s', b) → b = true
  missing : ∀ root, k.stage = .checking root none → ∀ a v, s.look a = some v → s.heap.rowOf a = k.row →
    s.heap.Live x v.xmin → s.heap.Live x v.xmax

def committedRow : List WriterCall :=
  [.manager (.begin .readCommitted), .insert 2 [.int 5], .manager (.commit 2)]

/-- The turns of a row write that waits for nobody. -/
def rowUpdate (x : Nat) (tid : TID) (sn : Snapshot) (value : Int) : List WriterCall :=
  [.write true x (.update [.int value]) tid sn (fun _ => true), .turn x, .turn x, .turn x, .turn x]

/-- Two committed rows, and the second one deleted. -/
def deletedBeside : List WriterCall :=
  [.manager (.begin .readCommitted), .insert 2 [.int 5], .insert 2 [.int 7], .manager (.commit 2),
    .manager (.begin .readCommitted), .write true 3 .delete ⟨0, 1⟩ (.of 4 []) (fun _ => true), .turn 3, .turn 3, .turn 3,
    .turn 3, .manager (.commit 3)]

/-- The update of an `EXPLAIN ANALYZE` in transaction 4 gets the lock of the first row. -/
def explainedUpdate : List WriterCall :=
  [.manager (.begin .readCommitted), .write false 4 (.update [.int 6]) ⟨0, 0⟩ (.of 5 []) (fun _ => true), .turn 4,
    .manager (.begin .readCommitted)]

/-- Transaction 3 updates the row and commits; 4 updates it and stays open, with the lock of the first version; a vacuum, in
transaction 5, reclaims that version; and 6 updates the row. -/
def rootReclaimed : List WriterCall :=
  committedRow ++ [.manager (.begin .readCommitted)] ++ rowUpdate 3 ⟨0, 0⟩ (.of 4 []) 6 ++
    [.manager (.commit 3), .manager (.begin .readCommitted)] ++ rowUpdate 4 ⟨0, 1⟩ (.of 5 []) 7 ++
    [.manager (.begin .readCommitted), .vacuum 4, .manager (.commit 5), .manager (.begin .readCommitted),
      .write true 6 (.update [.int 8]) ⟨0, 1⟩ (.of 7 [4]) (fun _ => true), .turn 6, .turn 6, .turn 6]

/-- The vacuum of that run has the horizon of its transactions. -/
example : (((start .new HeapState.oneColumn).run (rootReclaimed.take 17)).heap.manager.activeTransactions.map
      Transaction.xid,
        cleanupHorizon ((start .new HeapState.oneColumn).run (rootReclaimed.take 17)).heap.manager.activeTransactions
        ((start .new HeapState.oneColumn).run (rootReclaimed.take 17)).heap.manager.nextXid) = ([4, 5], 4) := by
  decide +kernel

end WriterState
end MiniPostgres
