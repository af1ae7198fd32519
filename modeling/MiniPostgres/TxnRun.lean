import MiniPostgres.Txn
/-!
# TxnRun — runs of the transaction manager

A run is any list of manager calls; a call that raises leaves the manager as it was.  `Stepped` says once what a call
can do, `Later` is any number of calls, and `Inv` is what every run keeps.  The other state machines of the development
embed the manager, and move it by `Stepped` too.
-/
namespace MiniPostgres
namespace TransactionManager

inductive Call
  | begin (isolation : IsolationLevel)
  | statementSnapshot (xid : Nat)
  | commit (xid : Nat)
  | abort (xid : Nat)
  | markFailed (xid : Nat)
  deriving DecidableEq

def call (m : TransactionManager) : Call → Result TransactionManager
  | .begin i             => .ok (m.begin i).1
  | .statementSnapshot x => do let r ← m.statementSnapshot x; .ok r.1
  | .commit x            => m.commit x
  | .abort x             => m.abort x
  | .markFailed x        => m.markFailed x

/-- One call; a raising call changes nothing. -/
def step (m : TransactionManager) (c : Call) : TransactionManager :=
  match m.call c with
  | .ok m'   => m'
  | .error _ => m

def run (m : TransactionManager) (calls : List Call) : TransactionManager := calls.foldl step m

theorem run_append (m : TransactionManager) (p q : List Call) : m.run (p ++ q) = (m.run p).run q :=
  List.foldl_append

theorem run_cons (m : TransactionManager) (c : Call) (q : List Call) : m.run (c :: q) = (m.step c).run q := rfl

/-! ## What one call can do -/

/-- The manager after `t`, ended with `status`, left `_active`. -/
def ended (m : TransactionManager) (t : Transaction) (status : TransactionStatus) : TransactionManager :=
  { m.put t with statuses := Function.update m.statuses t.xid (some status), active := m.active.filter (· ≠ t.xid) }

/-- **Every effect of a call**: nothing, a new transaction, an edited open transaction, a committed or an aborted one. -/
inductive Stepped (m : TransactionManager) : TransactionManager → Prop
  | same : Stepped m m
  | began (i : IsolationLevel) : Stepped m (m.begin i).1
  | edited (x : Nat) (t t' : Transaction) (ht : m.transactions x = some t) (hx : t'.xid = t.xid)
      (ho : t.state = .active) (ho' : t'.state = .active ∨ t'.state = .failed)
      (hs : t'.repeatableSnapshot = t.repeatableSnapshot ∨
        ∃ s, m.freshSnapshot x = .ok s ∧ t'.repeatableSnapshot = some s) : Stepped m (m.put t')
  | committed (x : Nat) (t : Transaction) (ht : m.transactions x = some t) (ho : t.state = .active) :
      Stepped m (m.ended { t with state := .committed } .committed)
  | aborted (x : Nat) (t : Transaction) (ht : m.transactions x = some t) (ho : t.state ≠ .committed) :
      Stepped m (m.ended { t with state := .aborted } .aborted)

theorem object_eq_ok {m : TransactionManager} {x : Nat} {t : Transaction} (h : m.object x = .ok t) :
    m.transactions x = some t := by
  unfold object at h
  split at h
  · rename_i t' ht; cases h; exact ht
  · exact absurd h raise_ne_ok

theorem requireUsable_eq_ok {t : Transaction} {u : Unit} (h : t.requireUsable = .ok u) : t.state = .active := by
  unfold Transaction.requireUsable at h
  split at h
  · exact absurd h raise_ne_ok
  · rename_i hs; exact not_not.1 hs

theorem set_eq_ok {t t' : StatusTable} {x : Nat} {s : TransactionStatus} (h : t.set x s = .ok t') :
    t' = Function.update t x (some s) := by
  unfold StatusTable.set at h
  split at h
  · exact absurd h raise_ne_ok
  · cases h; rfl

theorem finish_eq_ok {m m' : TransactionManager} {t : Transaction} {s : TransactionStatus}
    (h : m.finish t s = .ok m') : m' = m.ended t s := by
  obtain ⟨st, hst, he⟩ := bind_eq_ok.1 h
  cases he
  rw [set_eq_ok hst]
  rfl

/-- **What a returning `statement_snapshot` did.** -/
theorem statementSnapshot_eq_ok {m m' : TransactionManager} {x : Nat} {s : Snapshot}
    (h : m.statementSnapshot x = .ok (m', s)) :
    ∃ t, m.transactions x = some t ∧ t.state = .active ∧
      ((t.isolation = .repeatableRead ∧ t.repeatableSnapshot = some s ∧ m' = m) ∨
       (t.isolation = .repeatableRead ∧ t.repeatableSnapshot = none ∧ m.freshSnapshot x = .ok s ∧
         m' = m.put { t with repeatableSnapshot := some s }) ∨
       (t.isolation = .readCommitted ∧ m.freshSnapshot x = .ok s ∧ m' = m)) := by
  obtain ⟨t, ht, h⟩ := bind_eq_ok.1 h
  obtain ⟨u, hu, h⟩ := bind_eq_ok.1 h
  refine ⟨t, object_eq_ok ht, requireUsable_eq_ok hu, ?_⟩
  split at h
  · rename_i s' hi hs
    cases h
    exact Or.inl ⟨hi, hs, rfl⟩
  · rename_i hi hs
    obtain ⟨s', hs', he⟩ := bind_eq_ok.1 h
    cases he
    exact Or.inr (Or.inl ⟨hi, hs, hs', rfl⟩)
  · rename_i hi
    obtain ⟨s', hs', he⟩ := bind_eq_ok.1 h
    cases he
    exact Or.inr (Or.inr ⟨hi, hs', rfl⟩)

theorem commit_eq_ok {m m' : TransactionManager} {x : Nat} (h : m.commit x = .ok m') :
    ∃ t, m.transactions x = some t ∧ t.state = .active ∧ m' = m.ended { t with state := .committed } .committed := by
  obtain ⟨t, ht, h⟩ := bind_eq_ok.1 h
  obtain ⟨t', ht', h⟩ := bind_eq_ok.1 h
  unfold Transaction.markCommitted at ht'
  split at ht'
  · exact absurd ht' raise_ne_ok
  · rename_i hs
    cases ht'
    exact ⟨t, object_eq_ok ht, not_not.1 hs, finish_eq_ok h⟩

theorem abort_eq_ok {m m' : TransactionManager} {x : Nat} (h : m.abort x = .ok m') :
    ∃ t, m.transactions x = some t ∧ t.state ≠ .committed ∧ m' = m.ended { t with state := .aborted } .aborted := by
  obtain ⟨t, ht, h⟩ := bind_eq_ok.1 h
  obtain ⟨t', ht', h⟩ := bind_eq_ok.1 h
  refine ⟨t, object_eq_ok ht, ?_⟩
  split at ht'
  · unfold Transaction.markAborted at ht'
    split at ht'
    · exact absurd ht' raise_ne_ok
    · rename_i hs
      cases ht'
      exact ⟨hs, finish_eq_ok h⟩
  · rename_i hs
    cases ht'
    have ha : t.state = .aborted := not_not.1 hs
    refine ⟨by rw [ha]; decide, ?_⟩
    rw [finish_eq_ok h, ← ha]

theorem markFailed_eq_ok {m m' : TransactionManager} {x : Nat} (h : m.markFailed x = .ok m') :
    ∃ t, m.transactions x = some t ∧ t.state = .active ∧ m' = m.put { t with state := .failed } := by
  obtain ⟨t, ht, h⟩ := bind_eq_ok.1 h
  obtain ⟨t', ht', h⟩ := bind_eq_ok.1 h
  obtain ⟨u, hu, he⟩ := bind_eq_ok.1 ht'
  cases he
  cases h
  exact ⟨t, object_eq_ok ht, requireUsable_eq_ok hu, rfl⟩

theorem stepped_of_call {m m' : TransactionManager} {c : Call} (h : m.call c = .ok m') : Stepped m m' := by
  cases c with
  | begin i => cases h; exact .began i
  | statementSnapshot x =>
    obtain ⟨⟨m₁, s⟩, hs, he⟩ := bind_eq_ok.1 h
    cases he
    obtain ⟨t, ht, ho, ⟨-, -, rfl⟩ | ⟨-, -, hf, rfl⟩ | ⟨-, -, rfl⟩⟩ := statementSnapshot_eq_ok hs
    · exact .same
    · exact .edited x t _ ht rfl ho (Or.inl ho) (Or.inr ⟨s, hf, rfl⟩)
    · exact .same
  | commit x =>
    obtain ⟨t, ht, ho, rfl⟩ := commit_eq_ok h
    exact .committed x t ht ho
  | abort x =>
    obtain ⟨t, ht, ho, rfl⟩ := abort_eq_ok h
    exact .aborted x t ht ho
  | markFailed x =>
    obtain ⟨t, ht, ho, rfl⟩ := markFailed_eq_ok h
    exact .edited x t _ ht rfl ho (Or.inr rfl) (Or.inl rfl)

theorem step_stepped (m : TransactionManager) (c : Call) : Stepped m (m.step c) := by
  unfold step
  split
  · rename_i m' h; exact stepped_of_call h
  · exact .same

/-- `m'` comes after `m`, by any number of calls. -/
abbrev Later (m m' : TransactionManager) : Prop := Relation.ReflTransGen Stepped m m'

theorem later_run : ∀ (calls : List Call) (m : TransactionManager), Later m (m.run calls)
  | [], _ => .refl
  | c :: calls, m => .head (step_stepped m c) (later_run calls (m.step c))

/-! ## What every run keeps -/

/-- A transaction that `commit` or `abort` has not ended. -/
def isOpen (t : Transaction) : Prop := t.state = .active ∨ t.state = .failed

/-- **The manager's invariant.**  `retained` is the part the snapshots need: a transaction that is open now, and had its
XID when the snapshot was taken, is in the snapshot's active set. -/
structure Inv (m : TransactionManager) : Prop where
  two_le    : 2 ≤ m.nextXid
  known     : ∀ x, m.statuses x ≠ none → 2 ≤ x ∧ x < m.nextXid
  object    : ∀ x t, m.transactions x = some t → t.xid = x ∧ 2 ≤ x ∧ x < m.nextXid
  active    : ∀ x, x ∈ m.active ↔ ∃ t, m.transactions x = some t ∧ isOpen t
  undecided : ∀ x ∈ m.active, m.statuses x = none
  aborted   : ∀ x t, m.transactions x = some t → t.state = .aborted → m.statuses x = some .aborted
  committed : ∀ x t, m.transactions x = some t → t.state = .committed → m.statuses x = some .committed
  retained  : ∀ x t s, m.transactions x = some t → t.repeatableSnapshot = some s →
    s.xmax ≤ m.nextXid ∧ x ∉ s.activeXids ∧ ∀ y ∈ m.active, y ≠ x → y < s.xmax → y ∈ s.activeXids

theorem inv_start (r : Recovered) : Inv (start r) where
  two_le := r.two_le
  known := r.known
  object x t h := by cases h
  active x := by simp [start]
  undecided x h := by cases h
  aborted x t h := by cases h
  committed x t h := by cases h
  retained x t s h := by cases h

theorem freshSnapshot_eq_ok {m : TransactionManager} {x : Nat} {s : Snapshot} (h : m.freshSnapshot x = .ok s) :
    s.xmax = m.nextXid ∧ s.activeXids = m.active.filter (· ≠ x) := by
  unfold freshSnapshot Snapshot.create at h
  split at h
  · cases h; exact ⟨rfl, rfl⟩
  · exact absurd h raise_ne_ok

theorem Inv.active_lt {m : TransactionManager} (h : Inv m) {x : Nat} (hx : x ∈ m.active) : 2 ≤ x ∧ x < m.nextXid := by
  obtain ⟨t, ht, -⟩ := (h.active x).1 hx
  exact (h.object x t ht).2

theorem inv_begin {m : TransactionManager} (h : Inv m) (i : IsolationLevel) : Inv (m.begin i).1 := by
  have htwo := h.two_le
  refine ⟨?_, ?_, ?_, ?_, ?_, ?_, ?_, ?_⟩
  · simp only [begin, put]; omega
  · intro x hx
    have := h.known x hx
    simp only [begin, put]; omega
  · intro x t ht
    simp only [begin, put, Function.update_apply] at ht ⊢
    split at ht
    · rename_i hxn
      cases ht
      exact ⟨hxn.symm, by omega, by omega⟩
    · have := h.object x t ht; omega
  · intro x
    simp only [begin, put, Function.update_apply, List.mem_append, List.mem_singleton]
    by_cases hxn : x = m.nextXid
    · simp [hxn, isOpen]
    · simp [hxn, h.active x]
  · intro x hx
    simp only [begin, put, List.mem_append, List.mem_singleton] at hx ⊢
    rcases hx with hx | rfl
    · exact h.undecided x hx
    · by_contra hne
      have := (h.known _ hne).2; omega
  · intro x t ht hs
    simp only [begin, put, Function.update_apply] at ht ⊢
    split at ht
    · cases ht; cases hs
    · exact h.aborted x t ht hs
  · intro x t ht hs
    simp only [begin, put, Function.update_apply] at ht ⊢
    split at ht
    · cases ht; cases hs
    · exact h.committed x t ht hs
  · intro x t s ht hs
    simp only [begin, put, Function.update_apply] at ht ⊢
    split at ht
    · cases ht; cases hs
    · obtain ⟨h1, h2, h3⟩ := h.retained x t s ht hs
      refine ⟨by omega, h2, fun y hy hyx hlt => ?_⟩
      rcases List.mem_append.1 hy with hy | hy
      · exact h3 y hy hyx hlt
      · rw [List.mem_singleton] at hy; omega

theorem inv_edited {m : TransactionManager} (h : Inv m) {x : Nat} {t t' : Transaction}
    (ht : m.transactions x = some t) (hx : t'.xid = t.xid) (ho : t.state = .active) (ho' : isOpen t')
    (hs : t'.repeatableSnapshot = t.repeatableSnapshot ∨
      ∃ s, m.freshSnapshot x = .ok s ∧ t'.repeatableSnapshot = some s) : Inv (m.put t') := by
  obtain ⟨htx, -⟩ := h.object x t ht
  have hx' : t'.xid = x := hx.trans htx
  refine ⟨h.two_le, h.known, ?_, ?_, h.undecided, ?_, ?_, ?_⟩
  · intro y u hu
    simp only [put, Function.update_apply, hx'] at hu ⊢
    split at hu
    · rename_i hyx
      cases hu
      exact ⟨hx'.trans hyx.symm, by rw [hyx]; exact (h.object x t ht).2⟩
    · exact h.object y u hu
  · intro y
    simp only [put, Function.update_apply, hx']
    by_cases hyx : y = x
    · subst hyx
      simp only [if_true, Option.some.injEq, exists_eq_left', ho', iff_true]
      exact (h.active y).2 ⟨t, ht, Or.inl ho⟩
    · simp [hyx, h.active y]
  · intro y u hu hst
    simp only [put, Function.update_apply, hx'] at hu ⊢
    split at hu
    · cases hu
      rcases ho' with h' | h' <;> rw [h'] at hst <;> cases hst
    · exact h.aborted y u hu hst
  · intro y u hu hst
    simp only [put, Function.update_apply, hx'] at hu ⊢
    split at hu
    · cases hu
      rcases ho' with h' | h' <;> rw [h'] at hst <;> cases hst
    · exact h.committed y u hu hst
  · intro y u s hu hus
    simp only [put, Function.update_apply, hx'] at hu ⊢
    split at hu
    · rename_i hyx
      subst hyx
      cases hu
      rcases hs with hs | ⟨s', hf, hs⟩
      · exact h.retained y t s ht (hs ▸ hus)
      · obtain rfl : s' = s := by rw [hs] at hus; cases hus; rfl
        obtain ⟨h1, h2⟩ := freshSnapshot_eq_ok hf
        refine ⟨by omega, by rw [h2]; simp, fun z hz hzy _ => ?_⟩
        rw [h2, List.mem_filter]
        exact ⟨hz, by simpa using hzy⟩
    · exact h.retained y u s hu hus

theorem inv_ended {m : TransactionManager} (h : Inv m) {x : Nat} {t : Transaction} {st : TransactionStatus}
    {state : TransactionState} (ht : m.transactions x = some t)
    (hst : (state = .committed ∧ st = .committed) ∨ (state = .aborted ∧ st = .aborted)) :
    Inv (m.ended { t with state := state } st) := by
  obtain ⟨htx, hx2, hxn⟩ := h.object x t ht
  refine ⟨h.two_le, ?_, ?_, ?_, ?_, ?_, ?_, ?_⟩
  · intro y hy
    simp only [ended, put, Function.update_apply, htx] at hy ⊢
    split at hy
    · rename_i hyx; subst hyx; exact ⟨hx2, hxn⟩
    · exact h.known y hy
  · intro y u hu
    simp only [ended, put, Function.update_apply, htx] at hu ⊢
    split at hu
    · rename_i hyx; cases hu; exact ⟨hyx.symm, hyx ▸ hx2, hyx ▸ hxn⟩
    · exact h.object y u hu
  · intro y
    simp only [ended, put, Function.update_apply, htx, List.mem_filter, ne_eq, decide_not,
      Bool.not_eq_eq_eq_not, Bool.not_true, decide_eq_false_iff_not]
    by_cases hyx : y = x
    · subst hyx
      simp only [not_true_eq_false, and_false, if_true, Option.some.injEq, exists_eq_left', false_iff, isOpen]
      rcases hst with ⟨rfl, -⟩ | ⟨rfl, -⟩ <;> simp
    · simp [hyx, h.active y]
  · intro y hy
    simp only [ended, put, htx, List.mem_filter, decide_eq_true_eq, ne_eq] at hy
    simp only [ended, put, htx, Function.update_of_ne hy.2]
    exact h.undecided y hy.1
  · intro y u hu hs
    simp only [ended, put, Function.update_apply, htx] at hu ⊢
    split at hu
    · cases hu
      simp only at hs
      rcases hst with ⟨rfl, -⟩ | ⟨-, rfl⟩
      · cases hs
      · simp_all
    · rename_i hyx
      rw [if_neg hyx]; exact h.aborted y u hu hs
  · intro y u hu hs
    simp only [ended, put, Function.update_apply, htx] at hu ⊢
    split at hu
    · cases hu
      simp only at hs
      rcases hst with ⟨-, rfl⟩ | ⟨rfl, -⟩
      · simp_all
      · cases hs
    · rename_i hyx
      rw [if_neg hyx]; exact h.committed y u hu hs
  · intro y u s hu hus
    have hold : ∃ u', m.transactions y = some u' ∧ u'.repeatableSnapshot = some s := by
      simp only [ended, put, Function.update_apply, htx] at hu
      split at hu
      · rename_i hyx; subst hyx; cases hu; exact ⟨t, ht, hus⟩
      · exact ⟨u, hu, hus⟩
    obtain ⟨u', hu', hus'⟩ := hold
    obtain ⟨h1, h2, h3⟩ := h.retained y u' s hu' hus'
    exact ⟨h1, h2, fun z hz => h3 z (List.mem_filter.1 hz).1⟩

theorem inv_stepped {m m' : TransactionManager} (h : Inv m) (hs : Stepped m m') : Inv m' := by
  cases hs with
  | same => exact h
  | began i => exact inv_begin h i
  | edited x t t' ht hx ho ho' hs => exact inv_edited h ht hx ho ho' hs
  | committed x t ht ho => exact inv_ended h ht (Or.inl ⟨rfl, rfl⟩)
  | aborted x t ht ho => exact inv_ended h ht (Or.inr ⟨rfl, rfl⟩)

theorem inv_later {m m' : TransactionManager} (h : Inv m) (hl : Later m m') : Inv m' := by
  induction hl with
  | refl => exact h
  | tail _ hs ih => exact inv_stepped ih hs

/-- **Every run keeps the invariant.** -/
theorem inv_run {m : TransactionManager} (h : Inv m) (calls : List Call) : Inv (m.run calls) :=
  inv_later h (later_run calls m)

end TransactionManager

theorem active_of_call {m m' : TransactionManager} (hi : TransactionManager.Inv m) {c : TransactionManager.Call}
    (h : m.call c = .ok m') {o : Nat} (ho : o ∈ m.active) (hc : c ≠ .commit o ∧ c ≠ .abort o) : o ∈ m'.active := by
  have hended : ∀ {x : Nat} {t : Transaction} {st : TransactionState} {status : TransactionStatus},
      m.transactions x = some t → o ≠ x → o ∈ (m.ended { t with state := st } status).active := by
    intro x t st status ht hne
    have hx := (hi.object x t ht).1
    simp only [TransactionManager.ended, List.mem_filter, decide_eq_true_eq]
    exact ⟨ho, fun he => hne (he.trans hx)⟩
  cases c with
  | begin i =>
    cases h
    exact List.mem_append_left _ ho
  | statementSnapshot x =>
    obtain ⟨⟨m₁, sn⟩, hr, he⟩ := bind_eq_ok.1 h
    cases he
    obtain ⟨t, -, -, ⟨-, -, rfl⟩ | ⟨-, -, -, rfl⟩ | ⟨-, -, rfl⟩⟩ := TransactionManager.statementSnapshot_eq_ok hr
    · exact ho
    · exact ho
    · exact ho
  | commit x =>
    obtain ⟨t, ht, -, rfl⟩ := TransactionManager.commit_eq_ok h
    exact hended ht (fun he => hc.1 (by rw [he]))
  | abort x =>
    obtain ⟨t, ht, -, rfl⟩ := TransactionManager.abort_eq_ok h
    exact hended ht (fun he => hc.2 (by rw [he]))
  | markFailed x =>
    obtain ⟨t, -, -, rfl⟩ := TransactionManager.markFailed_eq_ok h
    exact ho

/-- **A transaction keeps its isolation level and its retained snapshot.** -/
theorem retained_of_call {m m' : TransactionManager} (hi : TransactionManager.Inv m) {c : TransactionManager.Call}
    (h : m.call c = .ok m') {x : Nat} {t : Transaction} (ht : m.transactions x = some t) :
    ∃ t', m'.transactions x = some t' ∧ t'.isolation = t.isolation ∧
      ∀ sn, t.repeatableSnapshot = some sn → t'.repeatableSnapshot = some sn := by
  -- the object of one transaction `y` is replaced by one that keeps both
  have hput : ∀ {y : Nat} {u u' : Transaction}, m.transactions y = some u → u'.xid = u.xid → u'.isolation = u.isolation →
      (∀ sn, u.repeatableSnapshot = some sn → u'.repeatableSnapshot = some sn) →
      ∃ t', (m.put u').transactions x = some t' ∧ t'.isolation = t.isolation ∧
        ∀ sn, t.repeatableSnapshot = some sn → t'.repeatableSnapshot = some sn := by
    intro y u u' hu hx hiso hsn
    have hy : u'.xid = y := hx.trans (hi.object y u hu).1
    simp only [TransactionManager.put, Function.update_apply, hy]
    split
    · rename_i hxy
      subst hxy
      rw [hu] at ht
      cases ht
      exact ⟨u', rfl, hiso, hsn⟩
    · exact ⟨t, ht, rfl, fun _ hs => hs⟩
  cases c with
  | begin i =>
    cases h
    have hne : x ≠ m.nextXid := Nat.ne_of_lt (hi.object x t ht).2.2
    exact ⟨t, by simpa [TransactionManager.begin, TransactionManager.put, hne] using ht, rfl, fun _ hs => hs⟩
  | statementSnapshot y =>
    obtain ⟨⟨m₁, sn⟩, hr, he⟩ := bind_eq_ok.1 h
    cases he
    obtain ⟨u, hu, -, ⟨-, -, rfl⟩ | ⟨-, hnone, -, rfl⟩ | ⟨-, -, rfl⟩⟩ := TransactionManager.statementSnapshot_eq_ok hr
    · exact ⟨t, ht, rfl, fun _ hs => hs⟩
    · exact hput hu rfl rfl (fun sn hs => by rw [hnone] at hs; cases hs)
    · exact ⟨t, ht, rfl, fun _ hs => hs⟩
  | commit y =>
    obtain ⟨u, hu, -, rfl⟩ := TransactionManager.commit_eq_ok h
    exact hput hu rfl rfl (fun _ hs => hs)
  | abort y =>
    obtain ⟨u, hu, -, rfl⟩ := TransactionManager.abort_eq_ok h
    exact hput hu rfl rfl (fun _ hs => hs)
  | markFailed y =>
    obtain ⟨u, hu, -, rfl⟩ := TransactionManager.markFailed_eq_ok h
    exact hput hu rfl rfl (fun _ hs => hs)

/-- **A retained snapshot was retained before the call, or the call took it.** -/
theorem snapshot_of_call {m m' : TransactionManager} (hi : TransactionManager.Inv m) {c : TransactionManager.Call}
    (h : m.call c = .ok m') {x : Nat} {t' : Transaction} (ht' : m'.transactions x = some t') {sn : Snapshot}
    (hsn : t'.repeatableSnapshot = some sn) :
    ∃ t, m.transactions x = some t ∧ (t.repeatableSnapshot = some sn ∨
      (t.isolation = .repeatableRead ∧ t.repeatableSnapshot = none ∧ m.statementSnapshot x = .ok (m', sn))) := by
  -- the object of one transaction `y` is replaced by one with the same snapshot
  have hput : ∀ {y : Nat} {u : Transaction} (st : TransactionState), m.transactions y = some u →
      (m.put { u with state := st }).transactions x = some t' →
      ∃ t, m.transactions x = some t ∧ t.repeatableSnapshot = some sn := by
    intro y u st hu hp
    have hy : u.xid = y := (hi.object y u hu).1
    simp only [TransactionManager.put, Function.update_apply, hy] at hp
    split at hp
    · rename_i hxy
      subst hxy
      cases hp
      exact ⟨u, hu, hsn⟩
    · exact ⟨t', hp, hsn⟩
  cases c with
  | begin i =>
    cases h
    simp only [TransactionManager.begin, TransactionManager.put, Function.update_apply] at ht'
    split at ht'
    · cases ht'
      cases hsn
    · exact ⟨t', ht', Or.inl hsn⟩
  | statementSnapshot y =>
    obtain ⟨⟨m₁, s⟩, hr, he⟩ := bind_eq_ok.1 h
    cases he
    obtain ⟨u, hu, -, ⟨-, -, rfl⟩ | ⟨hiso, hnone, -, rfl⟩ | ⟨-, -, rfl⟩⟩ := TransactionManager.statementSnapshot_eq_ok hr
    · exact ⟨t', ht', Or.inl hsn⟩
    · have hy : u.xid = y := (hi.object y u hu).1
      simp only [TransactionManager.put, Function.update_apply, hy] at ht'
      split at ht'
      · rename_i hxy
        subst hxy
        cases ht'
        cases hsn
        exact ⟨u, hu, Or.inr ⟨hiso, hnone, hr⟩⟩
      · exact ⟨t', ht', Or.inl hsn⟩
    · exact ⟨t', ht', Or.inl hsn⟩
  | commit y =>
    obtain ⟨u, hu, -, rfl⟩ := TransactionManager.commit_eq_ok h
    obtain ⟨t, ht, hs⟩ := hput _ hu ht'
    exact ⟨t, ht, Or.inl hs⟩
  | abort y =>
    obtain ⟨u, hu, -, rfl⟩ := TransactionManager.abort_eq_ok h
    obtain ⟨t, ht, hs⟩ := hput _ hu ht'
    exact ⟨t, ht, Or.inl hs⟩
  | markFailed y =>
    obtain ⟨u, hu, -, rfl⟩ := TransactionManager.markFailed_eq_ok h
    obtain ⟨t, ht, hs⟩ := hput _ hu ht'
    exact ⟨t, ht, Or.inl hs⟩

end MiniPostgres
