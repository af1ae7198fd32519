import MiniPostgres.Visibility
/-!
# Horizon — the reclamation proof of `maintenance/horizon.py`

`cleanupHorizon` is the least XID some retained or future snapshot may still treat as unfinished; a version is DEAD below
it when its creator aborted, or when its creator and its deleter both committed.  `dead_not_visible` is the step
every use shares: a DEAD version is invisible to a snapshot that counts each committed XID below the horizon as
finished.  `reclamation_safe` closes it over runs.
-/
namespace MiniPostgres

inductive VersionDisposition
  | keep | dead
  deriving DecidableEq, Repr

theorem VersionDisposition.eq_keep {d : VersionDisposition} (h : d ≠ .dead) : d = .keep := by
  cases d with
  | keep => rfl
  | dead => exact absurd rfl h

def horizonCandidates (t : Transaction) : List Nat :=
  match t.repeatableSnapshot with
  | none   => [t.xid]
  | some s => s.xmax :: s.activeXids

def cleanupHorizon (activeTransactions : List Transaction) (nextXid : Nat) : Nat :=
  (activeTransactions.flatMap horizonCandidates).foldl min nextXid

def classifyVersion (version : TupleVersion) (horizon : Nat) (statuses : StatusTable) : VersionDisposition :=
  if version.xmin < horizon ∧ statuses.creator version.xmin = .aborted then .dead
  else if version.xmax ≠ 0 ∧ version.xmin < horizon ∧ version.xmax < horizon ∧
      statuses.creator version.xmin = .committed ∧ statuses.get version.xmax = .committed then .dead
  else .keep

theorem foldl_min_le (l : List Nat) (a : Nat) : l.foldl min a ≤ a ∧ ∀ x ∈ l, l.foldl min a ≤ x := by
  induction l generalizing a with
  | nil => simp
  | cons b l ih =>
    obtain ⟨h1, h2⟩ := ih (min a b)
    refine ⟨by rw [List.foldl_cons]; omega, fun x hx => ?_⟩
    rw [List.foldl_cons]
    rcases List.mem_cons.1 hx with rfl | hx
    · omega
    · exact h2 x hx

/-- **The horizon is below every XID that an active transaction's retained snapshot treats as unfinished.** -/
theorem cleanupHorizon_le_retained {ts : List Transaction} {n : Nat} {t : Transaction} {s : Snapshot} (ht : t ∈ ts)
    (hs : t.repeatableSnapshot = some s) : cleanupHorizon ts n ≤ s.xmax ∧ ∀ x ∈ s.activeXids, cleanupHorizon ts n ≤ x := by
  have hc : ∀ x ∈ s.xmax :: s.activeXids, cleanupHorizon ts n ≤ x := fun x hx =>
    (foldl_min_le _ n).2 x (List.mem_flatMap.2 ⟨t, ht, by simpa [horizonCandidates, hs] using hx⟩)
  exact ⟨hc _ List.mem_cons_self, fun x hx => hc x (List.mem_cons_of_mem _ hx)⟩

theorem get_eq_aborted {t : StatusTable} {x : Nat} : t.get x = .aborted ↔ t x = some .aborted := by
  unfold StatusTable.get
  cases t x <;> simp

theorem creator_eq_aborted {t : StatusTable} {x : Nat} :
    t.creator x = .aborted ↔ x ≠ systemXid ∧ t x = some .aborted := by
  unfold StatusTable.creator
  split
  · rename_i h; simp [h]
  · rename_i h; simp [h, get_eq_aborted]

/-- **What DEAD means.** -/
theorem classifyVersion_dead {v : TupleVersion} {h : Nat} {st : StatusTable} (hd : classifyVersion v h st = .dead) :
    (v.xmin ≠ systemXid ∧ st v.xmin = some .aborted) ∨
    (v.xmax < h ∧ (v.xmin = systemXid ∨ st v.xmin = some .committed) ∧ st v.xmax = some .committed) := by
  unfold classifyVersion at hd
  split at hd
  · rename_i hc
    exact Or.inl (creator_eq_aborted.1 hc.2)
  · split at hd
    · rename_i hc
      obtain ⟨-, -, hlt, hcr, hdel⟩ := hc
      rw [TransactionManager.get_eq_committed] at hdel
      rw [TransactionManager.creator_eq_committed, TransactionManager.get_eq_committed] at hcr
      exact Or.inr ⟨hlt, hcr, hdel⟩
    · cases hd

namespace TransactionManager

/-- **A DEAD version is invisible, from here on, to a snapshot that counts its deleter, if committed and below the horizon,
as finished**, whoever owns it among the transactions without an outcome. -/
theorem dead_not_visible {m m' : TransactionManager} (h : Inv m) {v : TupleVersion} {horizon : Nat}
    (hd : classifyVersion v horizon m.statuses = .dead) {o : Nat} (ho : 2 ≤ o) (hout : m.statuses o = none)
    {s : Snapshot} (hs : v.xmax < horizon → m.statuses v.xmax = some .committed → v.xmax < s.xmax ∧ v.xmax ∉ s.activeXids)
    (hl : Later m m') : isVisible v s o m'.statuses = false := by
  have hkeep : ∀ x, m.statuses x ≠ none → m'.statuses x = m.statuses x := fun x hx => status_later h hx hl
  have hmin : v.xmin ≠ o := by
    rintro rfl
    rcases classifyVersion_dead hd with ⟨-, ha⟩ | ⟨-, hsys | hc, -⟩
    · rw [hout] at ha; cases ha
    · rw [hsys] at ho; exact absurd ho (by decide)
    · rw [hout] at hc; cases hc
  unfold isVisible
  rw [if_neg hmin]
  rcases classifyVersion_dead hd with ⟨hns, ha⟩ | ⟨hlt, -, hc⟩
  · have hab : StatusTable.creator m'.statuses v.xmin = .aborted :=
      creator_eq_aborted.2 ⟨hns, by rw [hkeep _ (by rw [ha]; simp), ha]⟩
    simp [hab]
  · obtain ⟨h1, h2⟩ := hs hlt hc
    have hz : v.xmax ≠ 0 := fun hz => by
      have := (h.known v.xmax (by rw [hc]; simp)).1; omega
    have hco : StatusTable.get m'.statuses v.xmax = .committed := by
      rw [get_eq_committed, hkeep _ (by rw [hc]; simp), hc]
    rw [if_neg hz]
    split
    · rfl
    · split
      · rfl
      · simpa [hco, h2] using h1

theorem no_outcome_before {m m' : TransactionManager} (h : Inv m) (hl : Later m m') {o : Nat}
    (ho : m'.statuses o = none) : m.statuses o = none := by
  by_contra hne
  exact hne (by rw [← status_later h hne hl, ho])

/-- **Reclamation is safe for retained and future snapshots**: a version that is DEAD at the horizon of a reachable state
is invisible, then and at every later point, to the retained snapshot of every active transaction and to every snapshot
taken later. -/
theorem reclamation_safe (r : Recovered) (calls : List Call) (v : TupleVersion)
    (hd : classifyVersion v
      (cleanupHorizon ((start r).run calls).activeTransactions ((start r).run calls).nextXid)
      ((start r).run calls).statuses = .dead) :
    (∀ t ∈ ((start r).run calls).activeTransactions, ∀ s, t.repeatableSnapshot = some s → ∀ later,
      isVisible v s t.xid (((start r).run calls).run later).statuses = false) ∧
    (∀ later o s, (((start r).run calls).run later).Takes o s → ∀ later',
      isVisible v s o ((((start r).run calls).run later).run later').statuses = false) := by
  have h := inv_run (inv_start r) calls
  generalize (start r).run calls = m at h hd
  refine ⟨fun t ht s hs later => ?_, fun later o s htk later' => ?_⟩
  · obtain ⟨x, hx, htx⟩ := List.mem_filterMap.1 ht
    obtain ⟨hxid, hx2, -⟩ := h.object x t htx
    obtain ⟨hmax, hact⟩ := cleanupHorizon_le_retained (n := m.nextXid) ht hs
    refine dead_not_visible h hd (by omega) (by rw [hxid]; exact h.undecided x hx) (fun hy _ => ?_) (later_run later m)
    exact ⟨by omega, fun hm => by have := hact v.xmax hm; omega⟩
  · have h₁ := inv_run h later
    obtain ⟨hf, t, ht, hst⟩ := takes_fresh htk
    obtain ⟨hmax, hact⟩ := freshSnapshot_eq_ok hf
    have hopen : o ∈ (m.run later).active := (h₁.active o).2 ⟨t, ht, Or.inl hst⟩
    rw [← run_append]
    refine dead_not_visible h hd (h₁.active_lt hopen).1
      (no_outcome_before h (later_run later m) (h₁.undecided o hopen)) (fun _ hc => ?_) (later_run (later ++ later') m)
    obtain ⟨hlt, hna⟩ := (settled_later h (settled_of_status h (by rw [hc]; simp)) (later_run later m)).1
    rw [hmax, hact, List.mem_filter]
    exact ⟨hlt, fun hm => hna hm.1⟩

/-- XID 2 deletes the row of `SYSTEM_XID` and commits, and XID 3 keeps a snapshot taken after that: the row is dead, for XID 3
and for the reader that begins next. -/
theorem reclamation_safe_example :
    let calls : List Call := [.begin .readCommitted, .commit 2, .begin .repeatableRead, .statementSnapshot 3]
    let m := (start .new).run calls
    classifyVersion ⟨systemXid, 2, none, []⟩ (cleanupHorizon m.activeTransactions m.nextXid) m.statuses = .dead ∧
    (∃ t ∈ m.activeTransactions, ∃ s, t.repeatableSnapshot = some s ∧
      isVisible ⟨systemXid, 2, none, []⟩ s t.xid (m.run [.begin .readCommitted, .abort 4]).statuses = false) ∧
    isVisible ⟨systemXid, 2, none, []⟩ ⟨5, [3], by decide⟩ 4
      ((m.run [.begin .readCommitted]).run [.commit 3]).statuses = false := by
  intro calls m
  have hd : classifyVersion ⟨systemXid, 2, none, []⟩
    (cleanupHorizon m.activeTransactions m.nextXid) m.statuses = .dead := by decide
  obtain ⟨hretained, hlater⟩ := reclamation_safe .new calls _ hd
  have htakes : (m.run [.begin .readCommitted]).Takes 4 ⟨5, [3], by decide⟩ := ⟨⟨_, rfl⟩, fun t ht hi => by cases ht; cases hi⟩
  refine ⟨hd, ⟨_, List.mem_cons_self, _, rfl, ?_⟩, hlater [.begin .readCommitted] 4 _ htakes [.commit 3]⟩
  exact hretained _ List.mem_cons_self _ rfl [.begin .readCommitted, .abort 4]

end TransactionManager
end MiniPostgres
