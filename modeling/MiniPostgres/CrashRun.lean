import MiniPostgres.PageLog
import MiniPostgres.Publications
/-!
# CrashRun — what a run leaves for recovery, at every step

Every prefix of the log is the log of an earlier moment of the run, and the tables of that moment are a state that recovery
may find: the images of the prefix are their pages, and the transactions with a COMMIT record in it wrote over each other's
versions only (`Sealed`).  The writes of these transactions are the same in every later state (`Kept`).  `DbState.Inv` says
this of all prefixes, with where the pool and the files stand between two checkpoints.
-/
namespace MiniPostgres

open History (Write WF Serial Closed getElem?_concat lt_of_getElem?)

/-! ## Prefixes of the log -/

/-- The prefix holds a COMMIT record of the transaction. -/
def recorded (entries : List WalEntry) (x : Nat) : Bool := entries.any (fun e => decide (e.xid = x ∧ e.record = .commit))

theorem recorded_iff {entries : List WalEntry} {x : Nat} :
    recorded entries x = true ↔ ∃ e ∈ entries, e.xid = x ∧ e.record = .commit := by
  simp [recorded]

/-- The prefix holds a BEGIN record of the transaction. -/
def Begun (entries : List WalEntry) (x : Nat) : Prop := ∃ e ∈ entries, e.xid = x ∧ e.record = .begin

/-- **A table that the prefix leaves**: its pages are the last images, its writers have begun, and the committed ones wrote over
versions of each other only. -/
structure Sealed (entries : List WalEntry) (table : Nat) (d : TableData) : Prop where
  wf     : WF d.log
  mirror : ∃ loose, Mirror loose d.look d.log d.origin
  serial : Serial (fun x => ¬ recorded entries x = true) d.log
  closed : ∀ row, Closed (fun x => recorded entries x = true) d.log row
  stored : Stored d.look d.log d.origin
  begun  : ∀ w ∈ d.log, Begun entries w.writer
  pages  : ∀ n, d.page n = (lastImage entries ⟨table, n⟩).page

/-- Every prefix leaves tables that are the current ones to who counts its committed transactions. -/
def Prefixes (entries : List WalEntry) (tables : Nat → TableData) : Prop :=
  ∀ p, p <+: entries → ∃ past : Nat → TableData, ∀ t, Sealed p t (past t) ∧ Kept (recorded p) (past t) (tables t)

theorem Prefixes.kept {entries : List WalEntry} {tables tables' : Nat → TableData} (h : Prefixes entries tables)
    (hk : ∀ p, p <+: entries → ∀ t, Kept (recorded p) (tables t) (tables' t)) : Prefixes entries tables' := by
  intro p hp
  obtain ⟨past, hpast⟩ := h p hp
  exact ⟨past, fun t => ⟨(hpast t).1, (hpast t).2.trans (hk p hp t)⟩⟩

theorem Prefixes.concat {entries : List WalEntry} {e : WalEntry} {tables : Nat → TableData} (h : Prefixes entries tables)
    (hs : ∀ t, Sealed (entries ++ [e]) t (tables t)) : Prefixes (entries ++ [e]) tables := by
  intro p hp
  rcases List.prefix_concat_iff.1 hp with rfl | hp
  · exact ⟨tables, fun t => ⟨hs t, .refl _ _⟩⟩
  · exact h p hp

/-! ## The log and the manager -/

/-- **The log and the manager**: a transaction has writes once its BEGIN record is logged, and a commit with writes is durable
when its status is set. -/
structure LogInv (m : TransactionManager) (ending : Option Ending) (s : Storage) (c : ControlState) : Prop where
  outcome : OutcomeInv m ending s.wal.entries
  chained : Chained 0 s.wal.entries s.wal.endLsn
  flushed : s.wal.flushedLsn ≤ s.wal.endLsn
  images  : ∀ e ∈ s.wal.entries, e.images.length ≤ 1 ∧ ∀ q ∈ e.images, q.2.lsn = e.lsn ∧ 0 < e.lsn
  begun   : ∀ x, Begun s.wal.entries x ↔ HasWrites m x
  ended   : ∀ e ∈ s.wal.entries, e.record = .commit ∨ e.record = .abort → HasWrites m e.xid
  durable : ∀ x, m.statuses x = some .committed → HasWrites m x →
    ∃ f ∈ s.wal.entries, f.xid = x ∧ f.record = .commit ∧ f.endLsn ≤ s.wal.flushedLsn
  control : ∀ x st, c.statuses x = some st → st ≠ .inProgress → m.statuses x = some st
  known   : ∀ x, c.statuses x ≠ none → 2 ≤ x ∧ x < c.nextXid
  two_le  : 2 ≤ c.nextXid

namespace LogInv

variable {m m' : TransactionManager} {ending ending' : Option Ending} {s s' : Storage} {c : ControlState}

theorem managed (h : LogInv m ending s c) (hs : TransactionManager.Stepped m m') (ho : OutcomeInv m' ending' s.wal.entries)
    (hw : ∀ x, HasWrites m' x ↔ HasWrites m x)
    (hc : ∀ x, m'.statuses x = some .committed → HasWrites m' x → m.statuses x = some .committed ∨
      ∃ f ∈ s.wal.entries, f.xid = x ∧ f.record = .commit ∧ f.endLsn ≤ s.wal.flushedLsn) : LogInv m' ending' s c where
  outcome := ho
  chained := h.chained
  flushed := h.flushed
  images := h.images
  begun x := (h.begun x).trans (hw x).symm
  ended e he hr := (hw _).2 (h.ended e he hr)
  durable x hx hwx := (hc x hx hwx).elim (fun hold => h.durable x hold ((hw x).1 hwx)) id
  control x st hx hst := by
    have hold := h.control x st hx hst
    rw [TransactionManager.status_later h.outcome.manager (by rw [hold]; simp) (.single hs), hold]
  known := h.known
  two_le := h.two_le

theorem pooled (h : LogInv m ending s c) (hw : s'.wal = s.wal) : LogInv m ending s' c where
  outcome := by rw [hw]; exact h.outcome
  chained := by rw [hw]; exact h.chained
  flushed := by rw [hw]; exact h.flushed
  images := by rw [hw]; exact h.images
  begun := by rw [hw]; exact h.begun
  ended := by rw [hw]; exact h.ended
  durable := by rw [hw]; exact h.durable
  control := h.control
  known := h.known
  two_le := h.two_le

theorem flushes (h : LogInv m ending s c) (hw : s'.wal = s.wal.flush) : LogInv m ending s' c where
  outcome := by rw [hw]; exact h.outcome
  chained := by rw [hw]; exact h.chained
  flushed := by rw [hw]; exact Nat.le_refl _
  images := by rw [hw]; exact h.images
  begun := by rw [hw]; exact h.begun
  ended := by rw [hw]; exact h.ended
  durable x hx hwx := by
    obtain ⟨f, hf, hfx, hr, hle⟩ := h.durable x hx hwx
    rw [hw]
    exact ⟨f, hf, hfx, hr, Nat.le_trans hle h.flushed⟩
  control := h.control
  known := h.known
  two_le := h.two_le

theorem appends (h : LogInv m ending s c) {x : Nat} {record : WalRecord}
    (ho : OutcomeInv m' ending' (s.wal.entries ++ [⟨s.wal.endLsn, x, record⟩]))
    (hst : m'.statuses = m.statuses) (hone : (⟨s.wal.endLsn, x, record⟩ : WalEntry).images.length ≤ 1)
    (hi : ∀ q ∈ (⟨s.wal.endLsn, x, record⟩ : WalEntry).images, q.2.lsn = s.wal.endLsn ∧ 0 < s.wal.endLsn)
    (hb : ∀ y, HasWrites m' y ↔ HasWrites m y ∨ (record = .begin ∧ y = x))
    (hx : record ≠ .begin → record = .commit ∨ record = .abort →
      HasWrites m x) (hn : record = .begin → m.statuses x = none) : LogInv m' ending' (s.append x record) c where
  outcome := ho
  chained := h.chained.concat
  flushed := Nat.le_trans h.flushed (Nat.le_add_right _ _)
  images e he := by
    rcases List.mem_append.1 he with he | he
    · exact h.images e he
    · rw [List.mem_singleton.1 he]
      exact ⟨hone, hi⟩
  begun y := by
    rw [hb y, ← h.begun y]
    unfold Begun Storage.append Wal.append
    simp only [List.mem_append, List.mem_singleton, or_and_right, exists_or, exists_eq_left]
    exact or_congr Iff.rfl ⟨fun ⟨hy, hr⟩ => ⟨hr, hy.symm⟩, fun ⟨hr, hy⟩ => ⟨hy.symm, hr⟩⟩
  ended e he hr := by
    refine (hb _).2 (Or.inl ?_)
    rcases List.mem_append.1 he with he | he
    · exact h.ended e he hr
    · rw [List.mem_singleton.1 he] at hr ⊢
      refine hx ?_ hr
      rintro rfl
      rcases hr with hr | hr <;> cases hr
  durable y hy hwy := by
    rw [hst] at hy
    rcases (hb y).1 hwy with hwy | ⟨hr, rfl⟩
    · obtain ⟨f, hf, hrest⟩ := h.durable y hy hwy
      exact ⟨f, List.mem_append_left _ hf, hrest⟩
    · rw [hn hr] at hy
      cases hy
  control := by rw [hst]; exact h.control
  known := h.known
  two_le := h.two_le

/-- The BEGIN record stands before the image. -/
theorem imaged (h : LogInv m none s c) {x : Nat} (hw : HasWrites m x) {key : PageKey} {image : Image}
    (hlsn : image.lsn = s.wal.endLsn) : LogInv m none (s.append x (.heapPageImages [(key, image)])) c := by
  refine h.appends (h.outcome.logs (by simp) (by simp)) rfl (Nat.le_refl _) (fun q hq => ?_) (fun y => by simp)
    (fun _ hr => by simp at hr) (fun hb => by cases hb)
  rw [List.mem_singleton.1 hq]
  obtain ⟨f, hf, -⟩ := (h.begun x).2 hw
  have hend := (h.chained.bounds.2 f hf).2
  have hlt := f.lsn_lt
  exact ⟨hlsn, by omega⟩

end LogInv

/-! ## The invariant of a run -/

/-- The outcome that is logged and not yet in the status table. -/
def Task.outcome : Task → Option Ending
  | .ending e => some e
  | _         => none

/-- The image that is logged and not yet in its frame. -/
def Task.installs : Task → PageKey → Option Image
  | .install key image _ _, k => if k = key then some image else none
  | _, _                      => none

/-- The pool and the files, for the records before the checkpoint and those after it. -/
structure Between (s : DbState) (old new : List WalEntry) (latest : PageKey → Image) : Prop where
  split  : s.storage.wal.entries = old ++ new
  before : ∀ e ∈ old, e.lsn < s.control.checkpointLsn ∧ e.endLsn ≤ s.storage.wal.flushedLsn
  after  : ∀ e ∈ new, s.control.checkpointLsn ≤ e.lsn
  reach  : s.control.checkpointLsn ≤ s.storage.wal.endLsn
  synced : Synced old new latest s.storage
  shows  : ∀ k, s.task.installs k = none → latest k = lastImage s.storage.wal.entries k
  waits  : ∀ k image, s.task.installs k = some image → (∃ e ∈ new, (k, image) ∈ e.images) ∧
    lastImage s.storage.wal.entries k = image ∧ (latest k).lsn ≤ image.lsn

def AllFlushed (w : Wal) : Prop := ∀ e ∈ w.entries, e.endLsn ≤ w.flushedLsn

def AllClean (s : Storage) : Prop := ∀ k i, s.frames k ≠ some ⟨i, true⟩

/-- The checkpoint record is the last one. -/
def LastRecord (w : Wal) (lsn : Nat) : Prop := ∃ es, w.entries = es ++ [⟨lsn, 0, .checkpoint lsn⟩]

/-- What a checkpoint has reached. -/
def CheckpointOk (s : DbState) (c : Checkpointing) : Prop :=
  c.statuses = statusMap s.manager s.manager.active ∧ c.nextXid = s.manager.nextXid ∧
  match c.stage with
  | .framesFlushed | .synced => AllClean s.storage
  | .recorded                => AllClean s.storage ∧ LastRecord s.storage.wal c.checkpointLsn
  | .recordFlushed           => AllClean s.storage ∧ LastRecord s.storage.wal c.checkpointLsn ∧ AllFlushed s.storage.wal
  | _                        => True

/-- What a statement has still to publish. -/
def Unfinished (m : TransactionManager) (x : Nat) (d : TableData) (todo : List (Nat × TableData)) : Prop :=
  todo = [] ∨ (Usable m x ∧ Pending m x d todo)

def TaskOk (s : DbState) : Prop :=
  match s.task with
  | .idle                 => True
  | .publish t x todo     => Unfinished s.manager x (s.tables t) todo
  | .install k _ x todo   => Unfinished s.manager x (s.tables k.table) todo
  | .ending e             =>
    HasWrites s.manager e.xid ∧ (e.status ≠ .committed → e.status = .aborted) ∧ (e.flushed = true → AllFlushed s.storage.wal)
  | .checkpoint c         => CheckpointOk s c

namespace DbState

/-- **The invariant of a single-threaded run.** -/
structure Inv (s : DbState) : Prop where
  log      : LogInv s.manager s.task.outcome s.storage s.control
  tables   : ∀ t, TableOk s.manager (s.tables t)
  begun    : ∀ t, ∀ w ∈ (s.tables t).log, Begun s.storage.wal.entries w.writer
  pages    : ∀ t n, (s.tables t).page n = (lastImage s.storage.wal.entries ⟨t, n⟩).page
  prefixes : Prefixes s.storage.wal.entries s.tables
  between  : ∃ old new latest, Between s old new latest
  task     : TaskOk s

end DbState

/-! ## Steps -/

section Steps

variable {s : DbState}

theorem recorded_mono {p es : List WalEntry} (h : p <+: es) {x : Nat} (hr : recorded p x = true) : recorded es x = true := by
  obtain ⟨e, he, hrest⟩ := recorded_iff.1 hr
  exact recorded_iff.2 ⟨e, h.subset he, hrest⟩

theorem Begun.mono {p es : List WalEntry} (h : p <+: es) {x : Nat} (hb : Begun p x) : Begun es x := by
  obtain ⟨e, he, hrest⟩ := hb
  exact ⟨e, h.subset he, hrest⟩

/-- A transaction with a COMMIT record is decided, so it did not abort. -/
theorem LogInv.not_recorded {m : TransactionManager} {ending : Option Ending} {st : Storage} {c : ControlState}
    (h : LogInv m ending st c) {x : Nat} (hx : m.statuses x = some .aborted) : ¬ recorded st.wal.entries x = true := by
  intro hr
  obtain ⟨e, he, rfl, hc⟩ := recorded_iff.1 hr
  have hd := h.outcome.commits e he hc
  unfold decided at hd
  split at hd
  · rename_i f
    split at hd
    · rename_i hef
      obtain ⟨t, ht, ho⟩ := h.outcome.found f rfl
      have hn := h.outcome.manager.undecided _ ((h.outcome.manager.active _).2 ⟨t, ht, ho⟩)
      rw [hef, hn] at hx
      cases hx
    · rw [hx] at hd; cases hd
  · rw [hx] at hd; cases hd

/-- **The current tables are those of the whole log.** -/
theorem LogInv.sealed {m : TransactionManager} {ending : Option Ending} {st : Storage} {c : ControlState} {t : Nat}
    {d : TableData} (h : LogInv m ending st c) (hd : TableOk m d) (hb : ∀ w ∈ d.log, Begun st.wal.entries w.writer)
    (hp : ∀ n, d.page n = (lastImage st.wal.entries ⟨t, n⟩).page) : Sealed st.wal.entries t d where
  wf := hd.heap.wf
  mirror := ⟨_, hd.heap.mirror⟩
  serial j k w u i hjk hw hu ht hut := h.not_recorded (hd.heap.serial j k w u i hjk hw hu ht hut)
  closed row j w i u hw hc hr ht hu := by
    rcases hd.targets j w i u hw ht hu with he | hcom
    · rw [he]; exact hc
    · obtain ⟨f, hf, hfx, hfr, -⟩ := h.durable _ hcom ((h.begun _).1 (hb u (List.mem_of_getElem? hu)))
      exact recorded_iff.2 ⟨f, hf, hfx, hfr⟩
  stored := hd.stored
  begun := hb
  pages := hp

theorem LogInv.usable_not_recorded {m : TransactionManager} {st : Storage} {c : ControlState} (h : LogInv m none st c) {x : Nat}
    (hx : Usable m x) {p : List WalEntry} (hp : p <+: st.wal.entries) : recorded p x = false := by
  rw [Bool.eq_false_iff]
  intro hr
  obtain ⟨e, he, rfl, hc⟩ := recorded_iff.1 (recorded_mono hp hr)
  have hd := h.outcome.commits e he hc
  obtain ⟨t, ht, ha⟩ := hx
  rw [decided, h.outcome.undecided ht (Or.inl ha)] at hd
  cases hd

/-- The image is the last one of its page, and waits for the frame. -/
theorem Between.imaged {old new : List WalEntry} {latest : PageKey → Image} (hb : Between s old new latest)
    (hnone : ∀ k, s.task.installs k = none) {key : PageKey} (hfiled : s.storage.file key ≠ none) {image : Image}
    (hlsn : (lastImage s.storage.wal.entries key).lsn ≤ image.lsn) (x : Nat) (todo : List (Nat × TableData))
    (tables : Nat → TableData) :
    Between { s with
      storage := s.storage.append x (.heapPageImages [(key, image)])
      tables := tables
      task := .install key image x todo }
      old (new ++ [⟨s.storage.wal.endLsn, x, .heapPageImages [(key, image)]⟩]) latest := by
  have hlast : lastImage (s.storage.wal.entries ++ [⟨s.storage.wal.endLsn, x, .heapPageImages [(key, image)]⟩]) =
      Function.update (lastImage s.storage.wal.entries) key image := lastImage_single rfl
  refine ⟨?_, hb.before, fun f hf => ?_, Nat.le_trans hb.reach (Nat.le_add_right _ _),
    hb.synced.logs (s.storage.wal.append x _) (Nat.le_refl _) (fun q hq => ?_), fun k hk => ?_, fun k i hk => ?_⟩
  · show s.storage.wal.entries ++ [_] = _
    rw [hb.split, List.append_assoc]
  · rcases List.mem_append.1 hf with hf | hf
    · exact hb.after f hf
    · rw [List.mem_singleton.1 hf]; exact hb.reach
  · rw [List.mem_singleton.1 hq]; exact hfiled
  · have hne : k ≠ key := by
      rintro rfl
      simp [Task.installs] at hk
    show latest k = lastImage (s.storage.wal.entries ++ [_]) k
    rw [hlast, Function.update_of_ne hne]
    exact hb.shows k (hnone k)
  · have hke : k = key ∧ i = image := by
      simp only [Task.installs] at hk
      split at hk
      · rename_i hkk; exact ⟨hkk, (Option.some.inj hk).symm⟩
      · cases hk
    obtain ⟨rfl, rfl⟩ := hke
    refine ⟨⟨_, List.mem_append_right _ (List.mem_singleton.2 rfl), List.mem_singleton.2 rfl⟩, ?_, ?_⟩
    · show lastImage (s.storage.wal.entries ++ [_]) _ = _
      rw [hlast, Function.update_self]
    · rw [hb.shows _ (hnone _)]
      exact hlsn

namespace DbState

theorem Inv.retasked (h : Inv s) {task : Task} (ho : OutcomeInv s.manager task.outcome s.storage.wal.entries)
    (hi : ∀ k, task.installs k = s.task.installs k) (hok : TaskOk { s with task := task }) : Inv { s with task := task } where
  log := { h.log with outcome := ho }
  tables := h.tables
  begun := h.begun
  pages := h.pages
  prefixes := h.prefixes
  between := by
    obtain ⟨old, new, latest, hb⟩ := h.between
    exact ⟨old, new, latest, hb.split, hb.before, hb.after, hb.reach, hb.synced,
      fun k hk => hb.shows k ((hi k).symm.trans hk), fun k i hk => hb.waits k i ((hi k).symm.trans hk)⟩
  task := hok

theorem Inv.stored (h : Inv s) {storage : Storage} (hw : storage.wal = s.storage.wal ∨ storage.wal = s.storage.wal.flush)
    (hsy : ∀ old new latest, Synced old new latest s.storage → (∀ e ∈ new, e.endLsn ≤ s.storage.wal.endLsn) →
      Synced old new latest storage)
    (hok : TaskOk { s with storage := storage }) : Inv { s with storage := storage } := by
  have hent : storage.wal.entries = s.storage.wal.entries := by
    rcases hw with hw | hw
    · rw [hw]
    · rw [hw]; rfl
  have hend : storage.wal.endLsn = s.storage.wal.endLsn := by
    rcases hw with hw | hw
    · rw [hw]
    · rw [hw]; rfl
  have hfl : s.storage.wal.flushedLsn ≤ storage.wal.flushedLsn := by
    rcases hw with hw | hw <;> rw [hw]
    exact h.log.flushed
  refine ⟨?_, h.tables, fun t w hwt => ?_, fun t n => ?_, ?_, ?_, hok⟩
  · rcases hw with hw | hw
    · exact h.log.pooled hw
    · exact h.log.flushes hw
  · show Begun storage.wal.entries w.writer
    rw [hent]; exact h.begun t w hwt
  · show _ = (lastImage storage.wal.entries ⟨t, n⟩).page
    rw [hent]; exact h.pages t n
  · show Prefixes storage.wal.entries s.tables
    rw [hent]; exact h.prefixes
  · obtain ⟨old, new, latest, hb⟩ := h.between
    refine ⟨old, new, latest, hent.trans hb.split,
      fun e he => ⟨(hb.before e he).1, Nat.le_trans (hb.before e he).2 hfl⟩, hb.after,
      ?_, hsy old new latest hb.synced (fun e he => ?_), fun k hk => ?_, fun k i hk => ?_⟩
    · show _ ≤ storage.wal.endLsn
      rw [hend]; exact hb.reach
    · exact (h.log.chained.bounds.2 e (by rw [hb.split]; exact List.mem_append_right _ he)).2
    · show _ = lastImage storage.wal.entries k
      rw [hent]; exact hb.shows k hk
    · show _ ∧ lastImage storage.wal.entries k = i ∧ _
      rw [hent]; exact hb.waits k i hk

theorem Inv.logged (h : Inv s) {x : Nat} {record : WalRecord} {m : TransactionManager} {task : Task}
    (hl : LogInv m task.outcome (s.storage.append x record) s.control) (hm : ∀ t, TableOk m (s.tables t))
    (hn : (⟨s.storage.wal.endLsn, x, record⟩ : WalEntry).images = []) (hi : ∀ k, s.task.installs k = none)
    (hi' : ∀ k, task.installs k = none)
    (hok : TaskOk { s with storage := s.storage.append x record, manager := m, task := task }) :
    Inv { s with storage := s.storage.append x record, manager := m, task := task } := by
  have hpre : s.storage.wal.entries <+: (s.storage.append x record).wal.entries := ⟨[_], rfl⟩
  have hlast : lastImage (s.storage.append x record).wal.entries = lastImage s.storage.wal.entries := lastImage_plain hn
  have hbegun : ∀ t, ∀ w ∈ (s.tables t).log, Begun (s.storage.append x record).wal.entries w.writer :=
    fun t w hw => (h.begun t w hw).mono hpre
  have hpages : ∀ t n, (s.tables t).page n = (lastImage (s.storage.append x record).wal.entries ⟨t, n⟩).page := by
    intro t n
    rw [hlast]; exact h.pages t n
  refine ⟨hl, hm, hbegun, hpages, h.prefixes.concat (fun t => hl.sealed (hm t) (hbegun t) (hpages t)), ?_, hok⟩
  obtain ⟨old, new, latest, hb⟩ := h.between
  refine ⟨old, new ++ [⟨s.storage.wal.endLsn, x, record⟩], latest, ?_, hb.before, fun e he => ?_, ?_, ?_, fun k _ => ?_,
    fun k i hk => ?_⟩
  · show s.storage.wal.entries ++ _ = _
    rw [hb.split, List.append_assoc]
  · rcases List.mem_append.1 he with he | he
    · exact hb.after e he
    · rw [List.mem_singleton.1 he]; exact hb.reach
  · exact Nat.le_trans hb.reach (Nat.le_add_right _ _)
  · refine hb.synced.logs (s.storage.wal.append x record) (Nat.le_refl _) (fun q hq => ?_)
    rw [hn] at hq
    cases hq
  · exact (hb.shows k (hi k)).trans (congrFun hlast k).symm
  · rw [show (task.installs k) = none from hi' k] at hk
    cases hk

/-- **The pool may write a frame, or evict it, at any point.** -/
theorem taskOk_stored (h : Inv s) {storage : Storage} (hw : storage.wal = s.storage.wal ∨ storage.wal = s.storage.wal.flush)
    (hcl : AllClean s.storage → AllClean storage) : TaskOk { s with storage := storage } := by
  have hflush : AllFlushed s.storage.wal → AllFlushed storage.wal := by
    intro hf e he
    rcases hw with hw | hw
    · rw [hw] at he ⊢; exact hf e he
    · rw [hw] at he ⊢; exact (h.log.chained.bounds.2 e he).2
  have hlast : ∀ lsn, LastRecord s.storage.wal lsn → LastRecord storage.wal lsn := by
    rintro lsn ⟨es, he⟩
    rcases hw with hw | hw
    · exact ⟨es, by rw [hw]; exact he⟩
    · exact ⟨es, by rw [hw]; exact he⟩
  have hok := h.task
  unfold TaskOk at hok ⊢
  simp only
  split at hok
  · trivial
  · exact hok
  · exact hok
  · exact ⟨hok.1, hok.2.1, fun hf => hflush (hok.2.2 hf)⟩
  · rename_i c _
    obtain ⟨hst, hnx, hstage⟩ := hok
    refine ⟨hst, hnx, ?_⟩
    split at hstage
    · exact hcl hstage
    · exact hcl hstage
    · exact ⟨hcl hstage.1, hlast _ hstage.2⟩
    · exact ⟨hcl hstage.1, hlast _ hstage.2.1, hflush hstage.2.2⟩
    · trivial

theorem flushFrame_wal (st : Storage) (key : PageKey) :
    (st.flushFrame key).wal = st.wal ∨ (st.flushFrame key).wal = st.wal.flush := by
  unfold Storage.flushFrame
  split
  · exact Or.inr rfl
  · exact Or.inl rfl

theorem flushFrame_clean {st : Storage} (key : PageKey) (h : AllClean st) : AllClean (st.flushFrame key) := by
  unfold Storage.flushFrame
  split
  · rename_i i hf; exact absurd hf (h key i)
  · exact h

theorem evict_clean {st : Storage} (key : PageKey) (h : AllClean st) : AllClean (st.evict key) := by
  intro k i hk
  simp only [Storage.evict, Function.update_apply] at hk
  split at hk
  · cases hk
  · exact flushFrame_clean key h k i hk

theorem Inv.flushFrame (h : Inv s) (key : PageKey) : Inv { s with storage := s.storage.flushFrame key } :=
  h.stored (flushFrame_wal _ _) (fun _ _ _ hs hn => hs.flushFrame key h.log.flushed hn)
    (taskOk_stored h (flushFrame_wal _ _) (flushFrame_clean key))

theorem Inv.evict (h : Inv s) (key : PageKey) : Inv { s with storage := s.storage.evict key } :=
  h.stored (flushFrame_wal s.storage key) (fun _ _ _ hs hn => hs.evict key h.log.flushed hn)
    (taskOk_stored h (flushFrame_wal s.storage key) (evict_clean key))

theorem Inv.flushWal (h : Inv s) : Inv { s with storage := s.storage.flushWal } :=
  h.stored (Or.inr rfl) (fun _ _ _ hs _ => hs.flushes _ h.log.flushed) (taskOk_stored h (Or.inr rfl) id)

theorem Inv.allFlushed (h : Inv s) : AllFlushed s.storage.wal.flush := fun e he => (h.log.chained.bounds.2 e he).2

theorem Inv.managed (h : Inv s) (hidle : s.task = .idle) {m : TransactionManager} (hs : TransactionManager.Stepped s.manager m)
    (ho : OutcomeInv m none s.storage.wal.entries) (hw : ∀ x, HasWrites m x ↔ HasWrites s.manager x)
    (hc : ∀ x, m.statuses x = some .committed → HasWrites m x → s.manager.statuses x = some .committed) :
    Inv { s with manager := m } where
  log := by
    have hlog := h.log
    rw [hidle] at hlog
    show LogInv m s.task.outcome s.storage s.control
    rw [hidle]
    exact hlog.managed hs ho hw (fun x hx hwx => Or.inl (hc x hx hwx))
  tables t := (h.tables t).managed hs
  begun := h.begun
  pages := h.pages
  prefixes := h.prefixes
  between := by
    obtain ⟨old, new, latest, hb⟩ := h.between
    exact ⟨old, new, latest, hb.split, hb.before, hb.after, hb.reach, hb.synced, hb.shows, hb.waits⟩
  task := by
    unfold TaskOk
    simp only [hidle]

theorem Inv.outcome_none (h : Inv s) (hidle : s.task = .idle) : OutcomeInv s.manager none s.storage.wal.entries := by
  have ho := h.log.outcome
  rw [hidle] at ho
  exact ho

theorem Inv.plainCall (h : Inv s) (hidle : s.task = .idle) {c : TransactionManager.Call}
    (hc : (∀ x, c ≠ .commit x) ∧ ∀ x, c ≠ .abort x) : Inv { s with manager := s.manager.step c } := by
  obtain ⟨hst, hw⟩ := step_plain_call h.log.outcome.manager hc
  exact h.managed hidle (TransactionManager.step_stepped _ c) ((h.outcome_none hidle).managerStep hc) hw
    (fun x hx _ => by rw [hst] at hx; exact hx)

/-! ### The end of a transaction -/

theorem Inv.endTransaction (h : Inv s) (hidle : s.task = .idle) {x : Nat} {t : Transaction}
    (ht : s.manager.transactions x = some t) {status : TransactionStatus} {record : WalRecord}
    {plain : Result TransactionManager}
    (hr : (status = .committed ∧ record = .commit ∧ t.state = .active ∧ plain = s.manager.commit x) ∨
      (status = .aborted ∧ record = .abort ∧ (t.state = .active ∨ t.state = .failed) ∧ plain = s.manager.abort x)) :
    Inv (s.endTransaction t status record plain) := by
  have hout := h.outcome_none hidle
  have hlog : LogInv s.manager none s.storage s.control := by
    have hl := h.log
    rw [hidle] at hl
    exact hl
  obtain ⟨rfl, -⟩ := hout.manager.object x t ht
  have ho : TransactionManager.isOpen t := by
    rcases hr with ⟨-, -, ho, -⟩ | ⟨-, -, ho, -⟩
    · exact Or.inl ho
    · exact ho
  unfold DbState.endTransaction
  split
  · rename_i hw
    have hrec : (status = .committed ∧ record = .commit) ∨ (status = .aborted ∧ record = .abort) := by
      rcases hr with ⟨hs, hr, -⟩ | ⟨hs, hr, -⟩
      · exact Or.inl ⟨hs, hr⟩
      · exact Or.inr ⟨hs, hr⟩
    have hwrites : HasWrites s.manager t.xid := ⟨t, ht, hw⟩
    have hne : record ≠ .begin := by rcases hrec with ⟨-, hr⟩ | ⟨-, hr⟩ <;> (rw [hr]; simp)
    have himg : (⟨s.storage.wal.endLsn, t.xid, record⟩ : WalEntry).images = [] := by
      rcases hrec with ⟨-, hr⟩ | ⟨-, hr⟩ <;> (rw [hr]; rfl)
    refine h.logged (hlog.appends (hout.outcomeLogged ht ho rfl hrec) rfl (by simp [himg]) ?_ ?_ (fun _ _ => hwrites)
      (fun hb => absurd hb hne))
      h.tables himg (fun k => by rw [hidle]; rfl) (fun k => rfl) 
      ⟨hwrites, fun hne => ?_, fun hf => by cases hf⟩
    · rw [himg]; simp
    · intro y
      simp [hne]
    · rcases hrec with ⟨hs, -⟩ | ⟨hs, -⟩
      · exact absurd hs hne
      · exact hs
  · rename_i hw
    have hw : t.hasWrites = false := by simpa using hw
    split
    · rename_i m
      -- neither outcome touches a transaction with writes
      have hplain : ∀ state status, TransactionManager.Stepped s.manager (s.manager.ended { t with state := state } status) →
          Inv { s with manager := s.manager.ended { t with state := state } status } := by
        intro state status hs
        refine h.managed hidle hs (hout.endedPlain hw hs) (fun y => hasWrites_ended hout.manager ht (by rfl) (by rfl) _ y)
          (fun y hy hwy => ?_)
        have hended : HasWrites (s.manager.ended { t with state := state } status) y ↔ HasWrites s.manager y :=
          hasWrites_ended hout.manager ht (by rfl) (by rfl) status y
        have hwy' := hended.1 hwy
        simp only [TransactionManager.ended, Function.update_apply] at hy
        split at hy
        · rename_i hyt
          obtain ⟨u, hu, huw⟩ := hwy'
          rw [hyt, ht] at hu
          cases hu
          rw [hw] at huw
          cases huw
        · exact hy
      rcases hr with ⟨-, -, -, hm⟩ | ⟨-, -, -, hm⟩
      · obtain ⟨t', ht', ho', rfl⟩ := TransactionManager.commit_eq_ok hm.symm
        rw [ht] at ht'
        cases ht'
        exact hplain _ _ (.committed _ t ht ho')
      · obtain ⟨t', ht', ho', rfl⟩ := TransactionManager.abort_eq_ok hm.symm
        rw [ht] at ht'
        cases ht'
        exact hplain _ _ (.aborted _ t ht ho')
    · exact h

theorem Inv.finished (h : Inv s) {e : Ending} (he : s.task = .ending e) (hf : e.flushed = true) {t : Transaction}
    (ht : s.manager.transactions e.xid = some t) {state : TransactionState}
    (hs : TransactionManager.Stepped s.manager (s.manager.ended { t with state := state } e.status))
    (hst : state = .committed → e.status = .committed) :
    Inv { s with manager := s.manager.ended { t with state := state } e.status, task := .idle } := by
  have hok := h.task
  unfold TaskOk at hok
  simp only [he] at hok
  have ho := h.log.outcome
  rw [he] at ho
  have hxid := (ho.manager.object _ t ht).1
  have hlog := h.log
  rw [he] at hlog
  refine ⟨?_, fun n => (h.tables n).managed hs, h.begun, h.pages, h.prefixes, ?_, trivial⟩
  · refine hlog.managed hs (ho.finished ht hs hst) (fun y => hasWrites_ended ho.manager ht (by rfl) (by rfl) _ y)
      (fun y hy _ => ?_)
    simp only [TransactionManager.ended, Function.update_apply, hxid] at hy
    split at hy
    · -- the record of the commit is flushed
      rename_i hye
      obtain ⟨f, hfm, hfx, hfr⟩ := ho.logged e rfl (Option.some.inj hy)
      exact Or.inr ⟨f, hfm, hfx.trans hye.symm, hfr, hok.2.2 hf f hfm⟩
    · exact Or.inl hy
  · obtain ⟨old, new, latest, hb⟩ := h.between
    refine ⟨old, new, latest, hb.split, hb.before, hb.after, hb.reach, hb.synced, fun k _ => hb.shows k ?_, fun k i hk => ?_⟩
    · rw [he]; rfl
    · cases hk

theorem Inv.endingStep (h : Inv s) {e : Ending} (he : s.task = .ending e) : Inv (s.endingStep e) := by
  have hok := h.task
  unfold TaskOk at hok
  simp only [he] at hok
  unfold DbState.endingStep
  split
  · rename_i hf
    split
    · rename_i m hm
      split at hm
      · rename_i hc
        obtain ⟨t, ht, hst, rfl⟩ := TransactionManager.commit_eq_ok hm
        have hs := TransactionManager.Stepped.committed _ t ht hst
        rw [← hc] at hs ⊢
        exact h.finished he hf ht hs (fun _ => hc)
      · rename_i hc
        obtain ⟨t, ht, hst, rfl⟩ := TransactionManager.abort_eq_ok hm
        have hs := TransactionManager.Stepped.aborted _ t ht hst
        rw [← hok.2.1 hc] at hs ⊢
        exact h.finished he hf ht hs (fun hcom => by cases hcom)
    · exact h
  · have ho := h.log.outcome
    rw [he] at ho
    refine h.flushWal.retasked ho.outcomeFlushed (fun k => ?_) ⟨hok.1, hok.2.1, fun _ => h.allFlushed⟩
    show _ = s.task.installs k
    rw [he]
    rfl

/-! ### Publications -/

theorem lastImage_unfiled {old new : List WalEntry} {latest : PageKey → Image} {st : Storage} (h : Synced old new latest st)
    {k : PageKey} (hk : st.file k = none) : lastImage old k = .blank := by
  have hnil : imagesOf k old = [] := by
    refine List.eq_nil_iff_forall_not_mem.2 (fun i hi => ?_)
    obtain ⟨e, he, hm⟩ := mem_imagesOf.1 hi
    exact h.filed e (List.mem_append_left _ he) _ hm hk
  rw [lastImage, hnil]
  rfl

theorem lastImage_lsn {m : TransactionManager} {ending : Option Ending} {st : Storage} {c : ControlState}
    (h : LogInv m ending st c) (k : PageKey) : (lastImage st.wal.entries k).lsn ≤ st.wal.endLsn := by
  unfold lastImage
  cases hl : (imagesOf k st.wal.entries).getLast? with
  | none => exact Nat.zero_le _
  | some i =>
    obtain ⟨e, he, hm⟩ := mem_imagesOf.1 (List.mem_of_getLast? hl)
    have hlsn : i.lsn = e.lsn := ((h.images e he).2 _ hm).1
    have hend := (h.chained.bounds.2 e he).2
    have hlt := e.lsn_lt
    simp only [Option.getD_some]
    omega

theorem Inv.allocated (h : Inv s) (table : Nat) : Inv { s with storage := s.storage.allocatePage table } :=
  h.stored (Or.inl rfl) (fun _ _ _ hs _ => hs.allocatePage table (fun _ hk => lastImage_unfiled hs hk))
    (taskOk_stored h (Or.inl rfl) id)

theorem Inv.firstWrite (h : Inv s) {table x : Nat} {todo : List (Nat × TableData)} (htask : s.task = .publish table x todo)
    {t : Transaction} (ht : s.manager.transactions x = some t) (ha : t.state = .active) :
    Inv { s with storage := s.storage.append x .begin, manager := s.manager.put { t with hasWrites := true } } := by
  have hlog := h.log
  rw [htask] at hlog
  have hout : OutcomeInv s.manager none s.storage.wal.entries := hlog.outcome
  have hs : TransactionManager.Stepped s.manager (s.manager.put { t with hasWrites := true }) :=
    .edited x t _ ht rfl ha (Or.inl ha) (Or.inl rfl)
  have hxid := (hout.manager.object x t ht).1
  have hok := h.task
  unfold TaskOk at hok
  simp only [htask] at hok
  have hnone : ∀ k, s.task.installs k = none := fun k => by rw [htask]; rfl
  refine h.logged ?_ (fun n => (h.tables n).managed hs) rfl hnone hnone ?_
  · rw [htask]
    refine hlog.appends ((hout.firstWrite ht ha).logs (by simp) (by simp)) rfl (by simp [WalEntry.images])
      (by simp [WalEntry.images])
      (fun y => ?_)
      (fun hne => absurd rfl hne) (fun _ => hout.undecided ht (Or.inl ha))
    unfold HasWrites TransactionManager.put
    simp only [Function.update_apply, hxid, true_and]
    by_cases hy : y = x
    · simp [hy]
    · simp [hy]
  · unfold TaskOk
    simp only [htask]
    rcases hok with rfl | ⟨⟨u, hu, hua⟩, hpend⟩
    · exact Or.inl rfl
    · refine Or.inr ⟨?_, hpend.managed hs⟩
      refine ⟨{ t with hasWrites := true }, ?_, ha⟩
      simp [TransactionManager.put, hxid]

/-- **A page image is logged**: the table is published, and the prefix before is left as it was. -/
theorem Inv.imaged (h : Inv s) {table x page : Nat} {after : TableData} {todo : List (Nat × TableData)}
    (htask : s.task = .publish table x ((page, after) :: todo)) (hfile : page < (s.storage.files table).length)
    (hw : HasWrites s.manager x) {image : Image}
    (himage : image = ⟨s.storage.wal.endLsn, (after.table.pages[page]?).getD .empty⟩) :
    Inv { s with
      storage := s.storage.append x (.heapPageImages [(⟨table, page⟩, image)])
      tables := Function.update s.tables table after
      task := .install ⟨table, page⟩ image x todo } := by
  have hlog := h.log
  rw [htask] at hlog
  have hout : OutcomeInv s.manager none s.storage.wal.entries := hlog.outcome
  have hok := h.task
  unfold TaskOk at hok
  simp only [htask] at hok
  obtain ⟨husable, hafter, hpage, hkept, hmade, hpend⟩ :
      Usable s.manager x ∧ Pending s.manager x (s.tables table) ((page, after) :: todo) := by
    rcases hok with hnil | hok
    · cases hnil
    · exact hok
  let e : WalEntry := ⟨s.storage.wal.endLsn, x, .heapPageImages [(⟨table, page⟩, image)]⟩
  have hpre : s.storage.wal.entries <+: s.storage.wal.entries ++ [e] := ⟨[e], rfl⟩
  have hlast : lastImage (s.storage.wal.entries ++ [e]) = Function.update (lastImage s.storage.wal.entries) ⟨table, page⟩ image :=
    lastImage_single rfl
  have htables : ∀ n, TableOk s.manager (Function.update s.tables table after n) := by
    intro n
    rw [Function.update_apply]
    split
    · exact hafter
    · exact h.tables n
  have hlog' : LogInv s.manager none (s.storage.append x (.heapPageImages [(⟨table, page⟩, image)])) s.control :=
    hlog.imaged hw (by rw [himage])
  have hbegun : ∀ n, ∀ w ∈ (Function.update s.tables table after n).log, Begun (s.storage.wal.entries ++ [e]) w.writer := by
    intro n w hwn
    rw [Function.update_apply] at hwn
    split at hwn
    · rename_i hn
      rcases hmade w hwn with hold | rfl
      · exact (h.begun table w hold).mono hpre
      · exact ((hlog.begun _).2 hw).mono hpre
    · exact (h.begun n w hwn).mono hpre
  have hpages : ∀ n p, (Function.update s.tables table after n).page p =
      (lastImage (s.storage.wal.entries ++ [e]) ⟨n, p⟩).page := by
    intro n p
    rw [hlast, Function.update_apply, Function.update_apply]
    by_cases hn : n = table
    · subst hn
      rw [if_pos rfl]
      by_cases hp : p = page
      · subst hp
        rw [if_pos rfl, himage]
        rfl
      · rw [if_neg (by simp [hp]), hpage.others p hp]
        exact h.pages n p
    · rw [if_neg hn, if_neg (by simp [hn])]
      exact h.pages n p
  refine ⟨hlog', htables, hbegun, hpages, ?_, ?_, ?_⟩
  · refine (h.prefixes.kept (fun p hp n => ?_)).concat (fun n => hlog'.sealed (htables n) (hbegun n) (hpages n))
    show Kept _ _ (Function.update s.tables table after n)
    rw [Function.update_apply]
    split
    · rename_i hn
      rw [hn]
      exact hkept _ (hlog.usable_not_recorded husable hp)
    · exact .refl _ _
  · obtain ⟨old, new, latest, hb⟩ := h.between
    have hfiled : s.storage.file ⟨table, page⟩ ≠ none := by
      unfold Storage.file
      rw [List.getElem?_eq_getElem hfile]
      simp
    refine ⟨old, new ++ [e], latest, hb.imaged (fun k => by rw [htask]; rfl) hfiled ?_ _ _ _⟩
    rw [himage]
    exact lastImage_lsn hlog _
  · unfold TaskOk
    simp only [Function.update_self]
    exact Or.inr ⟨husable, hpend⟩

theorem Inv.publishStep (h : Inv s) {table x page : Nat} {after : TableData} {todo : List (Nat × TableData)}
    (htask : s.task = .publish table x ((page, after) :: todo)) : Inv (s.publishStep table x page after todo) := by
  unfold DbState.publishStep
  split
  · exact h.allocated table
  · rename_i hlen
    split
    · exact h
    · rename_i t ht
      split
      · rename_i hw
        exact h.imaged htask (by omega) ⟨t, ht, hw⟩ rfl
      · have hok := h.task
        unfold TaskOk at hok
        simp only [htask] at hok
        rcases hok with hnil | ⟨⟨u, hu, ha⟩, -⟩
        · cases hnil
        · rw [ht] at hu
          cases hu
          exact h.firstWrite htask ht ha

theorem Inv.installed (h : Inv s) {key : PageKey} {image : Image} {x : Nat} {todo : List (Nat × TableData)}
    (htask : s.task = .install key image x todo) :
    Inv { s with
      storage := { s.storage with frames := Function.update s.storage.frames key (some ⟨image, true⟩) }
      task := .publish key.table x todo } := by
  have hlog := h.log
  rw [htask] at hlog
  have hok := h.task
  unfold TaskOk at hok
  simp only [htask] at hok
  refine ⟨hlog.pooled rfl, h.tables, h.begun, h.pages, h.prefixes, ?_, hok⟩
  obtain ⟨old, new, latest, hb⟩ := h.between
  have hself : s.task.installs key = some image := by rw [htask]; simp [Task.installs]
  obtain ⟨hlogged, hlast, -⟩ := hb.waits key image hself
  have hfile : s.storage.file key ≠ none := by
    obtain ⟨e, he, hm⟩ := hlogged
    exact hb.synced.filed e (List.mem_append_right _ he) _ hm
  refine ⟨old, new, Function.update latest key image, hb.split, hb.before, hb.after, hb.reach, hb.synced.setFrame hfile hlogged,
    fun k _ => ?_, fun k i hk => by cases hk⟩
  rw [Function.update_apply]
  split
  · rename_i hk
    rw [hk]
    exact hlast.symm
  · rename_i hk
    exact hb.shows k (by rw [htask]; simp [Task.installs, hk])

end DbState

/-! ### Checkpoints -/

/-- What the map of a checkpoint records is decided, and belongs to a transaction that has begun. -/
theorem statusMap_eq {m : TransactionManager} {x : Nat} {st : TransactionStatus}
    (hx : statusMap m m.active x = some st) (hst : st ≠ .inProgress) : m.statuses x = some st := by
  have hget : (statusMap m m.active).get x = st := by simp [StatusTable.get, hx]
  have hrec := @statusMap_recorded m m.active x (by rw [hget]; exact hst)
  rw [hget] at hrec
  exact hrec

theorem statusMap_known {m : TransactionManager} (hi : TransactionManager.Inv m) {x : Nat}
    (hx : statusMap m m.active x ≠ none) : 2 ≤ x ∧ x < m.nextXid := by
  unfold statusMap at hx
  split at hx
  · rename_i ha; exact hi.active_lt ha
  · exact hi.known x hx

/-- **Files of a checkpoint hold the last images of the log**: no frame is dirty, so each file holds what the pool shows. -/
theorem Synced.checkpointed {old new : List WalEntry} {latest : PageKey → Image} {st : Storage} (h : Synced old new latest st)
    (hclean : AllClean st) {old' new' : List WalEntry} (hsplit : old ++ new = old' ++ new') (hnew : ∀ e ∈ new', e.images = [])
    (hlatest : ∀ k, latest k = lastImage (old ++ new) k) : Synced old' new' latest st.checkpointed := by
  have hfile : ∀ k p, st.checkpointed.file k = some p → ∃ q, st.file k = some q ∧ p = ⟨q.current, []⟩ := by
    intro k p hp
    unfold Storage.file Storage.checkpointed at hp
    rw [List.getElem?_map] at hp
    obtain ⟨q, hq, he⟩ := Option.map_eq_some_iff.1 hp
    exact ⟨q, hq, he.symm⟩
  have hnone : ∀ k, st.checkpointed.file k = none → st.file k = none := by
    intro k hk
    unfold Storage.file Storage.checkpointed at hk
    rw [List.getElem?_map, Option.map_eq_none_iff] at hk
    exact hk
  have hlast : ∀ k, lastImage old' k = latest k := by
    intro k
    have hnil : imagesOf k new' = [] := by
      refine List.eq_nil_iff_forall_not_mem.2 (fun i hi => ?_)
      obtain ⟨e, he, hm⟩ := mem_imagesOf.1 hi
      rw [hnew e he] at hm
      cases hm
    rw [hlatest k, hsplit, lastImage, lastImage, imagesOf_append, hnil, List.append_nil]
  have hcurrent : ∀ k q, st.file k = some q → q.current = latest k := by
    intro k q hq
    have hheld := h.held k q hq
    unfold Storage.held at hheld
    cases hf : st.frames k with
    | none =>
      rw [hf, hq] at hheld
      exact Option.some.inj hheld
    | some f =>
      obtain ⟨i, d⟩ := f
      rw [hf] at hheld
      cases d with
      | true => exact absurd hf (hclean k i)
      | false => exact (h.clean k i q hf hq).symm.trans (Option.some.inj hheld)
  refine ⟨fun k p hp => ?_, fun k p w hp hw => ?_, fun k i hk => absurd hk (hclean k i), fun k i p hf hp => ?_, fun k p hp => ?_,
    fun e he q hq => ?_, fun k hk => h.fresh k (hnone k hk)⟩
  · obtain ⟨q, hq, rfl⟩ := hfile k p hp
    exact (hcurrent k q hq).trans (hlast k).symm
  · obtain ⟨q, hq, rfl⟩ := hfile k p hp
    cases hw
  · obtain ⟨q, hq, rfl⟩ := hfile k p hp
    exact h.clean k i q hf hq
  · obtain ⟨q, hq, rfl⟩ := hfile k p hp
    have hheld := h.held k q hq
    unfold Storage.held at hheld ⊢
    rw [show st.checkpointed.frames = st.frames from rfl, hp]
    cases hf : st.frames k with
    | none => rw [hf, hq] at hheld; exact hheld
    | some f => rw [hf] at hheld; exact hheld
  · rw [← hsplit] at he
    exact fun hk => h.filed e he q hq (hnone q.1 hk)

namespace DbState

theorem Inv.checkpointStep (h : Inv s) {c : Checkpointing} (htask : s.task = .checkpoint c) : Inv (s.checkpointStep c) := by
  have hlog := h.log
  rw [htask] at hlog
  have hout : OutcomeInv s.manager none s.storage.wal.entries := hlog.outcome
  have hok := h.task
  unfold TaskOk CheckpointOk at hok
  simp only [htask] at hok
  obtain ⟨hst, hnx, hstage⟩ := hok
  have hnone : ∀ k, s.task.installs k = none := fun k => by rw [htask]; rfl
  unfold DbState.checkpointStep
  split
  · exact h.flushWal.retasked hout (fun k => (hnone k).symm) ⟨hst, hnx, trivial⟩
  · have hclean : AllClean s.storage.flushAll := by
      intro k i hk
      obtain ⟨f, -, he⟩ := Option.map_eq_some_iff.1 hk
      cases he
    have hall : Inv { s with storage := s.storage.flushAll } :=
      h.stored (Or.inr rfl) (fun _ _ _ hs hn => hs.flushAll hlog.flushed hn) (taskOk_stored h (Or.inr rfl) (fun _ => hclean))
    refine hall.retasked hout (fun k => (hnone k).symm) ⟨hst, hnx, hclean⟩
  · rename_i hs
    rw [hs] at hstage
    exact h.retasked hout (fun k => (hnone k).symm) ⟨hst, hnx, hstage⟩
  · rename_i hs
    rw [hs] at hstage
    refine h.logged (hlog.appends (hout.logs (by simp) (by simp)) rfl (by simp [WalEntry.images]) (by simp [WalEntry.images])
      (fun y => by simp) (fun _ hr => by simp at hr) (fun hb => by cases hb)) h.tables rfl hnone
        (fun k => rfl) ⟨hst, hnx, hstage, ?_⟩
    exact ⟨s.storage.wal.entries, rfl⟩
  · rename_i hs
    rw [hs] at hstage
    refine h.flushWal.retasked hout (fun k => (hnone k).symm) ⟨hst, hnx, hstage.1, ?_, h.allFlushed⟩
    obtain ⟨es, he⟩ := hstage.2
    exact ⟨es, he⟩
  · rename_i hs
    rw [hs] at hstage
    obtain ⟨hclean, ⟨es, hes⟩, hfl⟩ := hstage
    refine ⟨⟨hout, hlog.chained, hlog.flushed, hlog.images, hlog.begun, hlog.ended, hlog.durable, fun x st hx hne => ?_,
      fun x hx => ?_, ?_⟩, h.tables, h.begun, h.pages, h.prefixes, ?_, trivial⟩
    · exact statusMap_eq (by rw [← hst]; exact hx) hne
    · show 2 ≤ x ∧ x < c.nextXid
      rw [hnx]
      exact statusMap_known hout.manager (by rw [← hst]; exact hx)
    · show 2 ≤ c.nextXid
      rw [hnx]
      exact hout.manager.two_le
    · obtain ⟨old, new, latest, hb⟩ := h.between
      have hmem : ∀ e ∈ es, e ∈ s.storage.wal.entries := fun e he => by rw [hes]; exact List.mem_append_left _ he
      have hchain := hlog.chained
      rw [hes] at hchain
      have hlt : ∀ e ∈ es, e.lsn < c.checkpointLsn := fun e he => by
        have := (List.pairwise_append.1 hchain.sorted).2.2 e he _ (List.mem_singleton.2 rfl)
        have hlsn := e.lsn_lt
        simp only at this
        omega
      refine ⟨es, [⟨c.checkpointLsn, 0, .checkpoint c.checkpointLsn⟩], latest, hes, fun e he => ⟨hlt e he, hfl e (hmem e he)⟩,
        fun e he => ?_, ?_, ?_, fun k _ => hb.shows k (hnone k), fun k i hk => by cases hk⟩
      · rw [List.mem_singleton.1 he]
      · have := (hchain.bounds.2 _ (List.mem_append_right _ (List.mem_singleton.2 rfl))).2
        exact Nat.le_trans (Nat.le_add_right _ _) this
      · refine hb.synced.checkpointed hclean (by rw [← hb.split, hes]) (fun e he => ?_) (fun k => ?_)
        · rw [List.mem_singleton.1 he]; rfl
        · rw [← hb.split]
          exact hb.shows k (hnone k)
  · exact h

theorem Inv.published (h : Inv s) (hidle : s.task = .idle) {t x : Nat} {p : Result (List (Nat × TableData))}
    (hp : ∀ todo, p = .ok todo → Unfinished s.manager x (s.tables t) todo) : Inv (s.publications t x p) := by
  unfold DbState.publications
  split
  · rename_i todo
    exact h.retasked (h.outcome_none hidle) (fun k => by rw [hidle]; rfl) (hp todo rfl)
  · exact h

theorem Inv.statement (h : Inv s) (hidle : s.task = .idle) (c : DbCall) : Inv (s.statement c) := by
  cases c with
  | begin i => exact h.plainCall hidle (by simp)
  | statementSnapshot x => exact h.plainCall hidle (by simp)
  | markFailed x => exact h.plainCall hidle (by simp)
  | insert t x values => exact h.published hidle (fun todo hp => Or.inr (insertPublications_pending (h.tables t) hp))
  | update t x a values => exact h.published hidle (fun todo hp => updatePublications_pending (h.tables t) hp)
  | delete t x a => exact h.published hidle (fun todo hp => deletePublications_pending (h.tables t) hp)
  | commit x =>
    simp only [DbState.statement]
    split
    · rename_i t ht
      split
      · rename_i ha
        exact h.endTransaction hidle ht (Or.inl ⟨rfl, rfl, ha, rfl⟩)
      · exact h
    · exact h
  | abort x =>
    simp only [DbState.statement]
    split
    · rename_i t ht
      split
      · rename_i ha
        exact h.endTransaction hidle ht (Or.inr ⟨rfl, rfl, ha, rfl⟩)
      · exact h
    · exact h
  | checkpoint => exact h.retasked (h.outcome_none hidle) (fun k => by rw [hidle]; rfl) ⟨rfl, rfl, trivial⟩
  | advance => exact h
  | flushFrame key => exact h
  | evict key => exact h

theorem Inv.advance (h : Inv s) : Inv s.advance := by
  unfold DbState.advance
  split
  · exact h
  · rename_i htask
    refine h.retasked ?_ (fun k => by rw [htask]; rfl) trivial
    have ho := h.log.outcome
    rw [htask] at ho
    exact ho
  · rename_i htask
    exact h.publishStep htask
  · rename_i htask
    split
    · rename_i storage hin
      unfold Storage.install at hin
      split at hin
      · exact absurd hin raise_ne_ok
      · split at hin
        · exact absurd hin raise_ne_ok
        · cases hin
          exact h.installed htask
    · exact h
  · rename_i htask
    exact h.endingStep htask
  · rename_i htask
    exact h.checkpointStep htask

/-- **Every step keeps the invariant.** -/
theorem inv_step (h : Inv s) (c : DbCall) : Inv (s.step c) := by
  cases c with
  | advance => exact h.advance
  | flushFrame key => exact h.flushFrame key
  | evict key => exact h.evict key
  | _ =>
    simp only [DbState.step]
    split
    · rename_i hidle; exact h.statement hidle _
    · exact h

theorem inv_start (schemas : Nat → Schema) : Inv (start schemas) := by
  have hok : ∀ t, TableOk (TransactionManager.start .new) (TableData.create (schemas t)) := by
    intro t
    have hs := heapInv_start .new (schemas t)
    refine ⟨hs, ?_, ?_⟩
    · intro j w i u hw
      cases hw
    · intro i w hw
      cases hw
  have hlog : LogInv (TransactionManager.start .new) none .new .new := by
    refine ⟨.start .new, rfl, Nat.le_refl _, by simp [Storage.new, Wal.new], fun x => ?_, by simp [Storage.new, Wal.new],
      fun x hx => (by cases hx), fun x st hx => (by cases hx), fun x hx => absurd rfl hx, Nat.le_refl _⟩
    exact ⟨fun ⟨e, he, _⟩ => (by cases he), fun ⟨t, ht, _⟩ => (by cases ht)⟩
  have hbegun : ∀ t, ∀ w ∈ (TableData.create (schemas t)).log, Begun [] w.writer := by
    intro t w hw
    cases hw
  have hpages : ∀ t n, (TableData.create (schemas t)).page n = (lastImage [] ⟨t, n⟩).page := fun _ _ => rfl
  refine ⟨hlog, hok, hbegun, hpages, fun p hp => ⟨fun t => .create (schemas t), fun t => ⟨?_, .refl _ _⟩⟩, ?_, trivial⟩
  · rw [List.prefix_nil.1 hp]
    exact hlog.sealed (hok t) (hbegun t) (hpages t)
  · refine ⟨[], [], fun _ => .blank, rfl, by simp, by simp, Nat.le_refl _, ?_, fun k _ => rfl, fun k i hk => by cases hk⟩
    refine ⟨fun k p hp => ?_, fun k p w hp => ?_, fun k i hk => (by cases hk), fun k i p hk => (by cases hk),
      fun k p hp => ?_, by simp,
      fun k _ => ⟨rfl, rfl⟩⟩
    all_goals simp [start, Storage.new, Storage.file] at hp

/-- **Every run keeps it.** -/
theorem inv_run (schemas : Nat → Schema) (calls : List DbCall) : Inv ((start schemas).run calls) := by
  have hrun : ∀ (calls : List DbCall) (s : DbState), Inv s → Inv (s.run calls) := by
    intro calls
    induction calls with
    | nil => exact fun _ h => h
    | cons c cs ih => exact fun s h => ih _ (inv_step h c)
  exact hrun calls _ (inv_start schemas)

end DbState

end Steps

end MiniPostgres
