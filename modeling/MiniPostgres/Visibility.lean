import MiniPostgres.TxnRun
/-!
# Visibility — what a snapshot sees is fixed when it is taken

`is_visible` reads the live status table, at check time.  `sees_iff` says which XIDs it counts as committed for a
snapshot, at any later point of the run: those that were committed when the snapshot was taken.  `isVisible_fixed` is the
visibility rule this gives, over whole runs.

The rule treats the owner's own versions apart: the creator test returns before the deleter's outcome is read, so a
version the owner created is hidden by the owner alone.
-/
namespace MiniPostgres
namespace TransactionManager

/-! ## Settled XIDs -/

/-- An XID handed out (here or before the restart) whose transaction is not open. -/
def Settled (m : TransactionManager) (x : Nat) : Prop := x < m.nextXid ∧ x ∉ m.active

theorem settled_of_status {m : TransactionManager} (h : Inv m) {x : Nat} (hx : m.statuses x ≠ none) : m.Settled x :=
  ⟨(h.known x hx).2, fun hm => hx (h.undecided x hm)⟩

/-- **A call changes neither the status nor the settledness of a settled XID.** -/
theorem settled_stepped {m m' : TransactionManager} (h : Inv m) (hs : Stepped m m') {x : Nat} (hx : m.Settled x) :
    m'.Settled x ∧ m'.statuses x = m.statuses x := by
  obtain ⟨hlt, hna⟩ := hx
  cases hs with
  | same => exact ⟨⟨hlt, hna⟩, rfl⟩
  | began i =>
    refine ⟨⟨Nat.lt_succ_of_lt hlt, fun hm => ?_⟩, rfl⟩
    rcases List.mem_append.1 hm with hm | hm
    · exact hna hm
    · exact absurd (List.mem_singleton.1 hm) (Nat.ne_of_lt hlt)
  | edited y t t' ht hx ho ho' hs => exact ⟨⟨hlt, hna⟩, rfl⟩
  | committed y t ht ho =>
    have htx := (h.object y t ht).1
    have hne : x ≠ t.xid := fun he => hna ((h.active x).2 ⟨t, by rw [he, htx]; exact ht, Or.inl ho⟩)
    exact ⟨⟨hlt, fun hm => hna (List.mem_filter.1 hm).1⟩, Function.update_of_ne hne _ _⟩
  | aborted y t ht ho =>
    have htx := (h.object y t ht).1
    refine ⟨⟨hlt, fun hm => hna (List.mem_filter.1 hm).1⟩, ?_⟩
    by_cases hxy : x = t.xid
    · -- the transaction is not open, so it is an aborted one that is aborted again
      have ha : t.state = .aborted := by
        cases hst : t.state with
        | active => exact absurd ((h.active x).2 ⟨t, by rw [hxy, htx]; exact ht, Or.inl hst⟩) hna
        | failed => exact absurd ((h.active x).2 ⟨t, by rw [hxy, htx]; exact ht, Or.inr hst⟩) hna
        | committed => exact absurd hst ho
        | aborted => rfl
      rw [hxy, htx, h.aborted y t ht ha]
      simp [ended]
    · exact Function.update_of_ne hxy _ _

theorem settled_later {m m' : TransactionManager} (h : Inv m) {x : Nat} (hx : m.Settled x) (hl : Later m m') :
    m'.Settled x ∧ m'.statuses x = m.statuses x := by
  induction hl with
  | refl => exact ⟨hx, rfl⟩
  | tail hl hs ih =>
    obtain ⟨h1, h2⟩ := settled_stepped (inv_later h hl) hs ih.1
    exact ⟨h1, h2.trans ih.2⟩

/-- **A recorded outcome never changes.** -/
theorem status_later {m m' : TransactionManager} (h : Inv m) {x : Nat} (hx : m.statuses x ≠ none) (hl : Later m m') :
    m'.statuses x = m.statuses x :=
  (settled_later h (settled_of_status h hx) hl).2

/-! ## The XIDs a snapshot sees -/

/-- The three tests `is_visible` makes on a creator or a deleter other than the owner. -/
def Sees (s : Snapshot) (statuses : StatusTable) (x : Nat) : Prop :=
  statuses.get x = .committed ∧ x < s.xmax ∧ x ∉ s.activeXids

theorem creator_eq_committed {t : StatusTable} {x : Nat} :
    t.creator x = .committed ↔ x = systemXid ∨ t.get x = .committed := by
  unfold StatusTable.creator
  split
  · rename_i h; simp [h]
  · rename_i h; simp [h]

theorem get_eq_committed {t : StatusTable} {x : Nat} : t.get x = .committed ↔ t x = some .committed := by
  unfold StatusTable.get
  cases t x <;> simp

/-- **At any later point, a snapshot sees the XIDs that were committed when it was taken.** -/
theorem sees_iff {m m' : TransactionManager} (h : Inv m) {o : Nat} {s : Snapshot} (hs : m.freshSnapshot o = .ok s)
    (hl : Later m m') {x : Nat} (hx : x ≠ o) : Sees s m'.statuses x ↔ m.statuses x = some .committed := by
  obtain ⟨hmax, hact⟩ := freshSnapshot_eq_ok hs
  unfold Sees
  rw [get_eq_committed, hmax, hact, List.mem_filter]
  constructor
  · rintro ⟨hc, hlt, hna⟩
    have hset : m.Settled x := ⟨hlt, fun hm => hna ⟨hm, by simpa using hx⟩⟩
    rw [← (settled_later h hset hl).2]
    exact hc
  · intro hc
    have hset := settled_of_status h (x := x) (by rw [hc]; simp)
    exact ⟨by rw [(settled_later h hset hl).2]; exact hc, hset.1, fun hm => hset.2 hm.1⟩

theorem isVisible_own {v : TupleVersion} {s : Snapshot} {o : Nat} {st : StatusTable} (h : v.xmin = o) :
    isVisible v s o st = true ↔ v.xmax ≠ o := by
  unfold isVisible; simp [h]

/-- The check on a version of another creator, with the owner above `SYSTEM_XID` and nothing recorded for XID 0. -/
theorem isVisible_other {v : TupleVersion} {s : Snapshot} {o : Nat} {st : StatusTable} (h : v.xmin ≠ o)
    (hsys : systemXid < s.xmax ∧ systemXid ∉ s.activeXids) (ho : 0 < o) (h0 : st 0 = none) :
    isVisible v s o st = true ↔ (v.xmin = systemXid ∨ Sees s st v.xmin) ∧ ¬ (v.xmax = o ∨ Sees s st v.xmax) := by
  have h0' : ¬ Sees s st 0 := fun hh => by
    have := hh.1; simp [StatusTable.get, h0] at this
  unfold isVisible
  rw [if_neg h]
  by_cases hcr : v.xmin = systemXid ∨ Sees s st v.xmin
  · have hneg : ¬ (st.creator v.xmin ≠ .committed ∨ v.xmin ≥ s.xmax ∨ v.xmin ∈ s.activeXids) := by
      rw [not_or, not_or, not_not, not_le, creator_eq_committed]
      rcases hcr with hsy | ⟨hc, hlt, hna⟩
      · rw [hsy]; exact ⟨Or.inl rfl, hsys⟩
      · exact ⟨Or.inr hc, hlt, hna⟩
    rw [if_neg hneg]
    simp only [hcr, true_and]
    by_cases hz : v.xmax = 0
    · rw [if_pos hz, hz]
      simp only [true_iff, not_or]
      exact ⟨by omega, h0'⟩
    · rw [if_neg hz]
      by_cases ho' : v.xmax = o
      · simp [ho']
      · rw [if_neg ho']
        simp only [ho', false_or, Sees, decide_eq_true_eq, not_and_or, not_lt, not_not]
  · have hpos : st.creator v.xmin ≠ .committed ∨ v.xmin ≥ s.xmax ∨ v.xmin ∈ s.activeXids := by
      by_contra hcon
      rw [not_or, not_or, not_not, not_le, creator_eq_committed] at hcon
      obtain ⟨hc, hlt, hna⟩ := hcon
      exact hcr (hc.imp_right fun hc => ⟨hc, hlt, hna⟩)
    rw [if_pos hpos]
    simp [hcr]

/-- **The visibility rule**, at any point after the snapshot: the owner's own versions, then the others. -/
theorem isVisible_later {m m' : TransactionManager} (h : Inv m) {o : Nat} {s : Snapshot} (ho : 2 ≤ o)
    (hs : m.freshSnapshot o = .ok s) (hl : Later m m') (v : TupleVersion) :
    isVisible v s o m'.statuses = true ↔
      (v.xmin = o ∧ v.xmax ≠ o) ∨
      (v.xmin ≠ o ∧ (v.xmin = systemXid ∨ m.statuses v.xmin = some .committed) ∧
        ¬ (v.xmax = o ∨ m.statuses v.xmax = some .committed)) := by
  by_cases hown : v.xmin = o
  · rw [isVisible_own hown]; simp [hown]
  · obtain ⟨hmax, hact⟩ := freshSnapshot_eq_ok hs
    have h2 := h.two_le
    have hsys : systemXid < s.xmax ∧ systemXid ∉ s.activeXids := by
      refine ⟨by rw [hmax]; exact h2, fun hm => ?_⟩
      rw [hact] at hm
      have := (h.active_lt (List.mem_filter.1 hm).1).1
      unfold systemXid at this; omega
    have h0 : m'.statuses 0 = none := by
      by_contra hne
      have := ((inv_later h hl).known 0 hne).1; omega
    rw [isVisible_other hown hsys (by omega) h0, sees_iff h hs hl hown]
    by_cases hx : v.xmax = o
    · simp [hx]
    · simp [hx, hown, sees_iff h hs hl hx]

/-! ## Over whole runs -/

/-- `statement_snapshot` of `xid` builds `s` here (it does not return a retained snapshot). -/
def Takes (m : TransactionManager) (xid : Nat) (s : Snapshot) : Prop :=
  (∃ m', m.statementSnapshot xid = .ok (m', s)) ∧
    ∀ t, m.transactions xid = some t → t.isolation = .repeatableRead → t.repeatableSnapshot = none

/-- A returning `commit` of `x` stands in the run. -/
def CommitIn (r : Recovered) (calls : List Call) (x : Nat) : Prop :=
  ∃ p q m', calls = p ++ .commit x :: q ∧ ((start r).run p).commit x = .ok m'

/-- `x` is committed by the end of `calls`: before the manager was started or in the run. -/
def CommittedBy (r : Recovered) (calls : List Call) (x : Nat) : Prop :=
  r.statuses x = some .committed ∨ CommitIn r calls x

theorem takes_fresh {m : TransactionManager} {x : Nat} {s : Snapshot} (h : m.Takes x s) :
    m.freshSnapshot x = .ok s ∧ ∃ t, m.transactions x = some t ∧ t.state = .active := by
  obtain ⟨⟨m', hm'⟩, hret⟩ := h
  obtain ⟨t, ht, ho, ⟨hi, hr, -⟩ | ⟨-, -, hf, -⟩ | ⟨-, hf, -⟩⟩ := statementSnapshot_eq_ok hm'
  · rw [hret t ht hi] at hr; cases hr
  · exact ⟨hf, t, ht, ho⟩
  · exact ⟨hf, t, ht, ho⟩

theorem committed_of_step {m : TransactionManager} (h : Inv m) {c : Call} {x : Nat}
    (hc : (m.step c).statuses x = some .committed) :
    m.statuses x = some .committed ∨ (c = .commit x ∧ ∃ m', m.commit x = .ok m') := by
  unfold step at hc
  split at hc
  · rename_i m' hm
    cases c with
    | begin i => cases hm; exact Or.inl hc
    | statementSnapshot y =>
      obtain ⟨⟨m₁, s⟩, hs, he⟩ := bind_eq_ok.1 hm
      cases he
      obtain ⟨t, -, -, ⟨-, -, rfl⟩ | ⟨-, -, -, rfl⟩ | ⟨-, -, rfl⟩⟩ := statementSnapshot_eq_ok hs <;> exact Or.inl hc
    | commit y =>
      obtain ⟨t, ht, ho, he⟩ := commit_eq_ok hm
      have htx := (h.object y t ht).1
      by_cases hxy : x = y
      · subst hxy; exact Or.inr ⟨rfl, m', hm⟩
      · rw [he] at hc
        simp only [ended, htx] at hc
        rw [Function.update_of_ne hxy] at hc
        exact Or.inl hc
    | abort y =>
      obtain ⟨t, ht, ho, he⟩ := abort_eq_ok hm
      rw [he] at hc
      simp only [ended] at hc
      by_cases hxy : x = t.xid
      · rw [hxy, Function.update_self] at hc; cases hc
      · rw [Function.update_of_ne hxy] at hc
        exact Or.inl hc
    | markFailed y =>
      obtain ⟨t, -, -, rfl⟩ := markFailed_eq_ok hm
      exact Or.inl hc
  · exact Or.inl hc

/-- **The status table records exactly the commits of the run and those before it.** -/
theorem status_committed_iff (r : Recovered) (calls : List Call) (x : Nat) :
    ((start r).run calls).statuses x = some .committed ↔ CommittedBy r calls x := by
  constructor
  · induction calls using List.reverseRecOn with
    | nil => exact Or.inl
    | append_singleton calls c ih =>
      intro hc
      rw [run_append] at hc
      rcases committed_of_step (inv_run (inv_start r) calls) hc with hc | ⟨rfl, m', hm'⟩
      · rcases ih hc with h | ⟨p, q, m', rfl, hm'⟩
        · exact Or.inl h
        · exact Or.inr ⟨p, q ++ [c], m', by simp, hm'⟩
      · exact Or.inr ⟨calls, [], m', rfl, hm'⟩
  · rintro (h | ⟨p, q, m', rfl, hm'⟩)
    · have hset := settled_of_status (inv_start r) (x := x) (by rw [show (start r).statuses x = _ from h]; simp)
      rw [(settled_later (inv_start r) hset (later_run calls _)).2]
      exact h
    · have hi := inv_run (inv_start r) p
      obtain ⟨t, ht, ho, he⟩ := commit_eq_ok hm'
      have htx := (hi.object x t ht).1
      have hst : (((start r).run p).step (.commit x)).statuses x = some .committed := by
        simp only [step, call, hm', he, ended, htx, Function.update_self]
      have hi' := inv_stepped hi (step_stepped _ (.commit x))
      have hset := settled_of_status hi' (x := x) (by rw [hst]; simp)
      rw [run_append, run_cons, (settled_later hi' hset (later_run q _)).2]
      exact hst

theorem isVisible_run (r : Recovered) (pre post : List Call) {o : Nat} {s : Snapshot}
    (hs : ((start r).run pre).Takes o s) (v : TupleVersion) :
    isVisible v s o ((start r).run (pre ++ post)).statuses = true ↔
      (v.xmin = o ∧ v.xmax ≠ o) ∨
      (v.xmin ≠ o ∧ (v.xmin = systemXid ∨ CommittedBy r pre v.xmin) ∧ ¬ (v.xmax = o ∨ CommittedBy r pre v.xmax)) := by
  have hi := inv_run (inv_start r) pre
  obtain ⟨hf, t, ht, -⟩ := takes_fresh hs
  rw [run_append, isVisible_later hi (hi.object o t ht).2.1 hf (later_run post _), status_committed_iff,
    status_committed_iff]

/-- **A snapshot's view is fixed when it is taken.**  At every later point of the run a version is visible exactly by
the commits that happened before the snapshot; so a later commit or abort changes nothing, and of any other transaction
the snapshot counts every creation and deletion, or none. -/
theorem isVisible_fixed (r : Recovered) (pre : List Call) (o : Nat) (s : Snapshot)
    (hs : ((start r).run pre).Takes o s) :
    (∀ post v, isVisible v s o ((start r).run (pre ++ .statementSnapshot o :: post)).statuses = true ↔
      (v.xmin = o ∧ v.xmax ≠ o) ∨
      (v.xmin ≠ o ∧ (v.xmin = systemXid ∨ CommittedBy r pre v.xmin) ∧
        ¬ (v.xmax = o ∨ CommittedBy r pre v.xmax))) ∧
    (∀ post post' v, isVisible v s o ((start r).run (pre ++ .statementSnapshot o :: post)).statuses =
      isVisible v s o ((start r).run (pre ++ .statementSnapshot o :: post')).statuses) ∧
    ∀ x, x ≠ o → x ≠ systemXid →
      ((∀ post v, v.xmin = x → v.xmax = 0 →
          isVisible v s o ((start r).run (pre ++ .statementSnapshot o :: post)).statuses = true) ∧
        (∀ post v, v.xmin ≠ o → v.xmax = x →
          isVisible v s o ((start r).run (pre ++ .statementSnapshot o :: post)).statuses = false)) ∨
      ((∀ post v, v.xmin = x →
          isVisible v s o ((start r).run (pre ++ .statementSnapshot o :: post)).statuses = false) ∧
        (∀ post v, v.xmax = x →
          isVisible v s o ((start r).run (pre ++ .statementSnapshot o :: post)).statuses =
            isVisible { v with xmax := 0 } s o ((start r).run (pre ++ .statementSnapshot o :: post)).statuses)) := by
  have hrule := fun post v => isVisible_run r pre (.statementSnapshot o :: post) hs v
  have hi := inv_run (inv_start r) pre
  obtain ⟨-, t, ht, -⟩ := takes_fresh hs
  have ho := (hi.object o t ht).2.1
  have h0 : ¬ CommittedBy r pre 0 := fun hc => by
    have := (hi.known 0 (by rw [(status_committed_iff r pre 0).2 hc]; simp)).1; omega
  refine ⟨hrule, fun post post' v => ?_, fun x hx hsys => ?_⟩
  · rw [Bool.eq_iff_iff, hrule, hrule]
  · by_cases hc : CommittedBy r pre x
    · refine Or.inl ⟨fun post v hmin hmax => ?_, fun post v hmin hmax => ?_⟩
      · rw [hrule, hmin, hmax]
        exact Or.inr ⟨hx, Or.inr hc, by rintro (h | h); exacts [by omega, h0 h]⟩
      · rw [← Bool.not_eq_true, hrule, hmax]
        rintro (⟨h, -⟩ | ⟨-, -, h⟩)
        · exact hmin h
        · exact h (Or.inr hc)
    · refine Or.inr ⟨fun post v hmin => ?_, fun post v hmax => ?_⟩
      · rw [← Bool.not_eq_true, hrule, hmin]
        rintro (⟨h, -⟩ | ⟨-, h | h, -⟩)
        · exact hx h
        · exact hsys h
        · exact hc h
      · rw [Bool.eq_iff_iff, hrule, hrule, hmax]
        have h0o : 0 ≠ o := by omega
        simp [hc, hx, h0, h0o]

/-- XID 3 commits after the snapshot of XID 4: its deletion stays unseen, and so does a version of its own. -/
theorem isVisible_fixed_example :
    let calls : List Call := [.begin .readCommitted, .begin .readCommitted, .commit 2, .begin .readCommitted]
    let s : Snapshot := ⟨5, [3], by decide⟩
    ((start .new).run calls).Takes 4 s ∧
    isVisible ⟨2, 3, none, []⟩ s 4 ((start .new).run (calls ++ .statementSnapshot 4 :: [.commit 3])).statuses = true ∧
    isVisible ⟨3, 0, none, []⟩ s 4 ((start .new).run (calls ++ .statementSnapshot 4 :: [.commit 3])).statuses = false := by
  intro calls s
  have hs : ((start .new).run calls).Takes 4 s :=
    ⟨⟨_, rfl⟩, fun t ht hi => by cases ht; cases hi⟩
  have hfixed := (isVisible_fixed .new calls 4 s hs).2.1 [.commit 3] []
  refine ⟨hs, ?_, ?_⟩
  · rw [hfixed]
    decide
  · rw [hfixed]
    decide

/-- **The symmetric rule fails on the owner's own versions**: XID 2 committed before XID 3 took its snapshot, and a
version created by 3 and deleted by 2 is visible to 3. -/
theorem isVisible_own_version_ignores_other_deleter :
    ¬ ∀ (r : Recovered) (pre post : List Call) (o : Nat) (s : Snapshot), ((start r).run pre).Takes o s →
      ∀ v : TupleVersion,
        (∀ x ∈ [v.xmin, v.xmax], x = 0 ∨ x = systemXid ∨
          (r.nextXid ≤ x ∧ x < ((start r).run (pre ++ .statementSnapshot o :: post)).nextXid)) →
        (isVisible v s o ((start r).run (pre ++ .statementSnapshot o :: post)).statuses = true ↔
          (v.xmin = systemXid ∨ v.xmin = o ∨ CommitIn r pre v.xmin) ∧ ¬ (v.xmax = o ∨ CommitIn r pre v.xmax)) := by
  intro h
  have hs : ((start .new).run [.begin .readCommitted, .commit 2, .begin .readCommitted]).Takes 3 ⟨4, [], by simp⟩ :=
    ⟨⟨_, rfl⟩, fun t ht hi => by cases ht; cases hi⟩
  have hv := (h .new [.begin .readCommitted, .commit 2, .begin .readCommitted] [] 3 _ hs ⟨3, 2, none, []⟩
    (by decide)).1 rfl
  exact hv.2 (Or.inr ⟨[.begin .readCommitted], [.begin .readCommitted], _, rfl, rfl⟩)

end TransactionManager
end MiniPostgres
