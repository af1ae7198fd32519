import MiniPostgres.Outcomes
/-!
# Checkpoint — a sharp checkpoint among running sessions

`sharp_checkpoint` of `wal/checkpoint.py` and `Database.checkpoint`, one step at a time, between the steps of sessions that
publish heap pages (`_publish_page`) and commit.  A step that would wait for a lock, or that raises, changes nothing.

A publication is its BEGIN record, its image record, and the replacement of the frame: `replace_bytes` and `mark_dirty` are
one step, since a pool flush between them skips the frame, which is still clean, as it does before both.
-/
namespace MiniPostgres

structure CheckpointState where
  storage : Storage
  manager : TransactionManager
  /-- Images in the log whose frames are not replaced yet. -/
  pending : List (PageKey × Image)
  ending  : Option Ending
  ckpt    : Checkpointing
  control : ControlState

inductive CheckpointCall
  | begin (isolation : IsolationLevel)
  | statementSnapshot (xid : Nat)
  | markFailed (xid : Nat)
  /-- The BEGIN record of a first write. -/
  | firstWrite (xid : Nat)
  /-- The image record, encoded with the `end_lsn` read before. -/
  | logImage (xid : Nat) (key : PageKey) (page : HeapPage) (pageLsn : Nat)
  | install (key : PageKey) (image : Image)
  /-- A publication without a transaction. -/
  | publishUnlogged (key : PageKey) (page : HeapPage)
  | allocatePage (table : Nat)
  | flushFrame (key : PageKey)
  | evict (key : PageKey)
  | commit (xid : Nat)
  | abort (xid : Nat)
  | flushOutcome
  | finish
  /-- The next step of the checkpoint. -/
  | checkpoint

namespace CheckpointState

def start : CheckpointState :=
  ⟨.new, TransactionManager.start .new, [], none, ⟨.idle, [], StatusTable.empty, 0, 0⟩, .new⟩

def setStage (s : CheckpointState) (stage : CheckpointStage) : CheckpointState :=
  { s with ckpt := { s.ckpt with stage := stage } }

/-- `commit` or `abort`, up to its record when the transaction has writes. -/
def endTransaction (s : CheckpointState) (t : Transaction) (status : TransactionStatus) (record : WalRecord)
    (plain : Result TransactionManager) : CheckpointState :=
  if t.hasWrites then { s with storage := s.storage.append t.xid record, ending := some ⟨t.xid, status, false⟩ }
  else
    match plain with
    | .ok m    => { s with manager := m }
    | .error _ => s

def checkpointStep (s : CheckpointState) : CheckpointState :=
  match s.ckpt.stage with
  | .idle         =>
    if s.ending.isSome then s else { s with ckpt := { s.ckpt with stage := .activeRead, active := s.manager.active } }
  | .activeRead   => { s with ckpt := { s.ckpt with stage := .statusesRead, statuses := statusMap s.manager s.ckpt.active } }
  | .statusesRead =>
    if s.ending.isSome then s else { s with ckpt := { s.ckpt with stage := .called, nextXid := s.manager.nextXid } }
  | .called        => { s.setStage .logFlushed with storage := s.storage.flushWal }
  | .logFlushed    => { s.setStage .framesFlushed with storage := s.storage.flushAll }
  | .framesFlushed => s.setStage .synced
  | .synced        =>
    { s with
      storage := s.storage.append 0 (.checkpoint s.storage.wal.endLsn)
      ckpt := { s.ckpt with stage := .recorded, checkpointLsn := s.storage.wal.endLsn } }
  | .recorded      => { s.setStage .recordFlushed with storage := s.storage.flushWal }
  | .recordFlushed => { s.setStage .idle with control := ⟨s.ckpt.checkpointLsn, s.ckpt.nextXid, s.ckpt.statuses⟩ }

def managerStep (s : CheckpointState) (c : TransactionManager.Call) : CheckpointState :=
  if s.ending.isSome then s else { s with manager := s.manager.step c }

def step (s : CheckpointState) : CheckpointCall → CheckpointState
  | .begin i             => s.managerStep (.begin i)
  | .statementSnapshot x => s.managerStep (.statementSnapshot x)
  | .markFailed x        => s.managerStep (.markFailed x)
  | .firstWrite x =>
    match s.manager.transactions x with
    | some t =>
      if t.state = .active ∧ t.hasWrites = false then
        { s with storage := s.storage.append x .begin, manager := s.manager.put { t with hasWrites := true } }
      else s
    | none => s
  | .logImage x key page pageLsn =>
    match s.manager.transactions x with
    | some t =>
      if t.state = .active ∧ t.hasWrites = true ∧ pageLsn ≤ s.storage.wal.endLsn then
        let s' := { s with storage := s.storage.append x (.heapPageImages [(key, ⟨pageLsn, page⟩)]) }
        if s.storage.wal.endLsn = pageLsn then { s' with pending := (key, ⟨pageLsn, page⟩) :: s.pending }
        else s'
      else s
    | none => s
  | .install key image =>
    if (key, image) ∈ s.pending then
      match s.storage.install key image with
      | .ok storage => { s with storage := storage, pending := s.pending.erase (key, image) }
      | .error _    => { s with pending := s.pending.erase (key, image) }
    else s
  | .publishUnlogged key page =>
    match s.storage.install key ⟨0, page⟩ with
    | .ok storage => { s with storage := storage }
    | .error _    => s
  | .allocatePage table => { s with storage := s.storage.allocatePage table }
  | .flushFrame key     => { s with storage := s.storage.flushFrame key }
  | .evict key          => { s with storage := s.storage.evict key }
  | .commit x =>
    match s.manager.transactions x, s.ending with
    | some t, none => if t.state = .active then s.endTransaction t .committed .commit (s.manager.commit x) else s
    | _, _         => s
  | .abort x =>
    match s.manager.transactions x, s.ending with
    | some t, none =>
      if t.state = .active ∨ t.state = .failed then s.endTransaction t .aborted .abort (s.manager.abort x) else s
    | _, _ => s
  | .flushOutcome =>
    match s.ending with
    | some e => { s with storage := s.storage.flushWal, ending := some { e with flushed := true } }
    | none   => s
  | .finish =>
    match s.ending with
    | some ⟨x, .committed, true⟩ =>
      match s.manager.commit x with
      | .ok m    => { s with manager := m, ending := none }
      | .error _ => s
    | some ⟨x, .aborted, true⟩ =>
      match s.manager.abort x with
      | .ok m    => { s with manager := m, ending := none }
      | .error _ => s
    | _ => s
  | .checkpoint => s.checkpointStep

def run (s : CheckpointState) (calls : List CheckpointCall) : CheckpointState := calls.foldl step s

/-- Recovery after a crash of the process in this state, with REDO from `startLsn`. -/
def recoverFrom (s : CheckpointState) (startLsn : Nat) : Result RecoveryResult :=
  recover s.storage.wal.entries s.storage.diskNow startLsn s.control.statuses s.control.nextXid

end CheckpointState

/-! ## Pages only move forward -/

namespace Storage

/-- A frame is never behind its page. -/
def Sound (s : Storage) : Prop :=
  ∀ k f p, s.frames k = some f → s.file k = some p → p.current.lsn ≤ f.image.lsn

/-- What every operation of the pool does to a sound storage. -/
structure Later (s s' : Storage) : Prop where
  sound : Sound s'
  files : ∀ k p, s.file k = some p → ∃ p', s'.file k = some p' ∧ p.current.lsn ≤ p'.current.lsn

theorem onDisk_diskNow {s : Storage} {k : PageKey} {i : Image} :
    OnDisk s.diskNow k i ↔ ∃ p, s.file k = some p ∧ i.lsn ≤ p.current.lsn := by
  unfold OnDisk pageAt diskNow file
  rw [List.getElem?_map]
  cases (s.files k.table)[k.page]? with
  | none => simp
  | some p => simp

theorem Later.onDisk {s s' : Storage} (h : Later s s') {k : PageKey} {i : Image} (hd : OnDisk s.diskNow k i) :
    OnDisk s'.diskNow k i := by
  obtain ⟨p, hp, hle⟩ := onDisk_diskNow.1 hd
  obtain ⟨p', hp', hle'⟩ := h.files k p hp
  exact onDisk_diskNow.2 ⟨p', hp', by omega⟩

theorem Sound.same_files {s s' : Storage} (h : Sound s) (hf : s'.files = s.files) (hs : s'.frames = s.frames) :
    Later s s' := by
  have hfile : s'.file = s.file := by unfold file; rw [hf]
  refine ⟨fun k f p => ?_, fun k p hp => ⟨p, by rw [hfile]; exact hp, Nat.le_refl _⟩⟩
  rw [hfile, hs]
  exact h k f p

theorem Sound.append {s : Storage} (h : Sound s) (x : Nat) (r : WalRecord) : Later s (s.append x r) := h.same_files rfl rfl

theorem Sound.flushWal {s : Storage} (h : Sound s) : Later s s.flushWal := h.same_files rfl rfl

theorem Sound.allocatePage {s : Storage} (h : Sound s) (table : Nat) : Later s (s.allocatePage table) := by
  refine ⟨fun k f p hf hp => ?_, fun k p hp => ⟨p, file_allocatePage s table hp, Nat.le_refl _⟩⟩
  cases hold : s.file k with
  | some q =>
    rw [file_allocatePage s table hold] at hp
    cases hp
    exact h k f _ hf hold
  | none =>
    rw [file_allocated s table hold hp]
    exact Nat.zero_le _

theorem Sound.setFrame {s : Storage} (h : Sound s) {key : PageKey} {f : Frame}
    (hf : ∀ p, s.file key = some p → p.current.lsn ≤ f.image.lsn) :
    Later s { s with frames := Function.update s.frames key (some f) } := by
  refine ⟨fun k g p hg hp => ?_, fun k p hp => ⟨p, hp, Nat.le_refl _⟩⟩
  simp only [Function.update_apply] at hg
  split at hg
  · rename_i hk
    cases hg
    exact hf p (hk ▸ hp)
  · exact h k g p hg hp

theorem Sound.install {s s' : Storage} (h : Sound s) {key : PageKey} {image : Image} (hi : s.install key image = .ok s') :
    Later s s' ∧ s'.wal = s.wal := by
  unfold MiniPostgres.Storage.install at hi
  split at hi
  · exact absurd hi raise_ne_ok
  · rename_i old hold
    split at hi
    · exact absurd hi raise_ne_ok
    · rename_i hlt
      cases hi
      refine ⟨h.setFrame (fun p hp => ?_), rfl⟩
      have hle : p.current.lsn ≤ old.lsn := by
        unfold held at hold
        split at hold
        · rename_i f hf
          cases hold
          exact h key f p hf hp
        · rw [hp] at hold
          cases hold
          exact Nat.le_refl _
      simp only; omega

/-- A written page: the image is not behind what it replaces. -/
theorem Sound.writePage {s : Storage} (h : Sound s) {key : PageKey} {f : Frame} (hf : s.frames key = some f) :
    Later s (s.writePage key f.image) := by
  have hcur : ∀ p, s.file key = some p → p.current.lsn ≤ f.image.lsn := fun p hp => h key f p hf hp
  refine ⟨fun k g p hg hp => ?_, fun k p hp => ?_⟩
  · rw [file_writePage] at hp
    obtain ⟨q, hq, rfl⟩ := Option.map_eq_some_iff.1 hp
    split
    · rename_i hk
      subst hk
      rw [current_write]
      have hg' : s.frames k = some g := hg
      rw [hf] at hg'
      cases hg'
      exact Nat.le_refl _
    · exact h k g q hg hq
  · rw [file_writePage, hp, Option.map_some]
    refine ⟨_, rfl, ?_⟩
    split
    · rename_i hk
      subst hk
      rw [current_write]
      exact hcur p hp
    · exact Nat.le_refl _

theorem Later.trans {s₁ s₂ s₃ : Storage} (h : Later s₁ s₂) (h' : Later s₂ s₃) : Later s₁ s₃ := by
  refine ⟨h'.sound, fun k p hp => ?_⟩
  obtain ⟨q, hq, hle⟩ := h.files k p hp
  obtain ⟨r, hr, hle'⟩ := h'.files k q hq
  exact ⟨r, hr, Nat.le_trans hle hle'⟩

theorem wal_install {s s' : Storage} {key : PageKey} {image : Image} (hi : s.install key image = .ok s') : s'.wal = s.wal := by
  unfold install at hi
  split at hi
  · exact absurd hi raise_ne_ok
  · split at hi
    · exact absurd hi raise_ne_ok
    · cases hi
      rfl

theorem wal_flushFrame (s : Storage) (key : PageKey) :
    (s.flushFrame key).wal.entries = s.wal.entries ∧ (s.flushFrame key).wal.endLsn = s.wal.endLsn := by
  unfold flushFrame
  split <;> exact ⟨rfl, rfl⟩

theorem Sound.flushFrame {s : Storage} (h : Sound s) (key : PageKey) : Later s (s.flushFrame key) := by
  unfold MiniPostgres.Storage.flushFrame
  split
  · rename_i image hf
    have hw := h.flushWal.trans (h.flushWal.sound.writePage (f := ⟨image, true⟩) hf)
    refine hw.trans (hw.sound.setFrame (fun p hp => ?_))
    rw [file_writePage] at hp
    obtain ⟨q, -, rfl⟩ := Option.map_eq_some_iff.1 hp
    rw [if_pos rfl, current_write]
  · exact h.same_files rfl rfl

theorem Sound.evict {s : Storage} (h : Sound s) (key : PageKey) : Later s (s.evict key) := by
  have hf := h.flushFrame key
  refine hf.trans ⟨fun k g p hg hp => ?_, fun k p hp => ⟨p, hp, Nat.le_refl _⟩⟩
  simp only [MiniPostgres.Storage.evict, Function.update_apply] at hg
  split at hg
  · cases hg
  · exact hf.sound k g p hg hp

theorem Sound.flushAll {s : Storage} (h : Sound s) : Later s s.flushAll := by
  refine ⟨fun k g p hg hp => ?_, fun k p hp => ?_⟩
  · obtain ⟨f, hf, rfl⟩ := Option.map_eq_some_iff.1 hg
    rw [file_flushAll] at hp
    obtain ⟨q, hq, rfl⟩ := Option.map_eq_some_iff.1 hp
    rw [hf]
    obtain ⟨image, dirty⟩ := f
    cases dirty with
    | true => rw [current_write]
    | false => exact h k _ q hf hq
  · rw [file_flushAll, hp]
    refine ⟨_, rfl, ?_⟩
    split
    · rename_i image hf
      rw [current_write]
      exact h k _ p hf hp
    · exact Nat.le_refl _

end Storage

/-! ## What every step keeps -/

namespace CheckpointState

/-- The CHECKPOINT record is written and the control file is not. -/
def Recording (s : CheckpointState) : Prop := s.ckpt.stage = .recorded ∨ s.ckpt.stage = .recordFlushed

/-- **The invariant.**  `reached` and `recording` are the point: what REDO would skip is on disk. -/
structure Inv (s : CheckpointState) : Prop where
  outcome    : OutcomeInv s.manager s.ending s.storage.wal.entries
  stored     : Agrees (decided s.manager s.ending) s.control.statuses
  captured   : Agrees (decided s.manager s.ending) s.ckpt.statuses
  sound      : s.storage.Sound
  control_le : s.control.checkpointLsn ≤ s.storage.wal.endLsn
  ckpt_le    : s.Recording → s.ckpt.checkpointLsn ≤ s.storage.wal.endLsn
  reached    : Reached s.storage.diskNow s.control.checkpointLsn s.storage.wal.entries
  recording  : s.Recording → Reached s.storage.diskNow s.ckpt.checkpointLsn s.storage.wal.entries

theorem inv_start : Inv start where
  outcome := .start .new
  stored x h := absurd rfl h
  captured x h := absurd rfl h
  sound k f p h := by cases h
  control_le := Nat.le_refl _
  ckpt_le h := by rcases h with h | h <;> cases h
  reached e h := by cases h
  recording h := by rcases h with h | h <;> cases h

theorem Reached.later {s s' : Storage} (h : Storage.Later s s') {n : Nat} {entries : List WalEntry}
    (hr : Reached s.diskNow n entries) : Reached s'.diskNow n entries :=
  fun e he hl p hp => h.onDisk (hr e he hl p hp)

theorem Reached.append {disk : Disk} {n : Nat} {w : Wal} (h : Reached disk n w.entries) (hn : n ≤ w.endLsn) (x : Nat)
    (r : WalRecord) : Reached disk n (w.append x r).entries := by
  intro e he hl p hp
  rcases List.mem_append.1 he with he | he
  · exact h e he hl p hp
  · rw [List.mem_singleton.1 he] at hl
    simp only at hl; omega

theorem endLsn_append (w : Wal) (x : Nat) (r : WalRecord) : w.endLsn < (w.append x r).endLsn := by
  have := (⟨w.endLsn, x, r⟩ : WalEntry).length_pos
  simp only [Wal.append]; omega

theorem Inv.pooled {s : CheckpointState} (h : Inv s) {storage : Storage} (hl : Storage.Later s.storage storage)
    (he : storage.wal.entries = s.storage.wal.entries) (hn : storage.wal.endLsn = s.storage.wal.endLsn)
    (pending : List (PageKey × Image)) : Inv { s with storage := storage, pending := pending } where
  outcome := by simp only [he]; exact h.outcome
  stored := h.stored
  captured := h.captured
  sound := hl.sound
  control_le := by simp only [hn]; exact h.control_le
  ckpt_le := by simp only [hn]; exact h.ckpt_le
  reached := by simp only [he]; exact Reached.later hl h.reached
  recording hr := by simp only [he]; exact Reached.later hl (h.recording hr)

theorem Inv.outcomes {s : CheckpointState} (h : Inv s) {m : TransactionManager} {ending : Option Ending}
    (ho : OutcomeInv m ending s.storage.wal.entries) (hd : Extends (decided s.manager s.ending) (decided m ending)) :
    Inv { s with manager := m, ending := ending } :=
  ⟨ho, h.stored.mono hd, h.captured.mono hd, h.sound, h.control_le, h.ckpt_le, h.reached, h.recording⟩

theorem Inv.logged {s : CheckpointState} (h : Inv s) (x : Nat) (r : WalRecord) {m : TransactionManager}
    {ending : Option Ending} (ho : OutcomeInv m ending (s.storage.append x r).wal.entries)
    (hd : Extends (decided s.manager s.ending) (decided m ending)) (pending : List (PageKey × Image)) :
    Inv { s with storage := s.storage.append x r, manager := m, ending := ending, pending := pending } where
  outcome := ho
  stored := h.stored.mono hd
  captured := h.captured.mono hd
  sound := (h.sound.append x r).sound
  control_le := Nat.le_trans h.control_le (Nat.le_of_lt (endLsn_append _ x r))
  ckpt_le hr := Nat.le_trans (h.ckpt_le hr) (Nat.le_of_lt (endLsn_append _ x r))
  reached := Reached.append (Reached.later (h.sound.append x r) h.reached) h.control_le x r
  recording hr := Reached.append (Reached.later (h.sound.append x r) (h.recording hr)) (h.ckpt_le hr) x r

theorem Inv.managerStep {s : CheckpointState} (h : Inv s) (c : TransactionManager.Call)
    (hc : (∀ x, c ≠ .commit x) ∧ ∀ x, c ≠ .abort x) : Inv (s.managerStep c) := by
  unfold CheckpointState.managerStep
  split
  · exact h
  · rename_i hn
    have hn : s.ending = none := by simpa using hn
    have ho := h.outcome
    rw [hn] at ho
    refine h.outcomes ?_ ?_
    · rw [hn]; exact ho.managerStep hc
    · rw [hn]; exact ho.extends_stepped (TransactionManager.step_stepped _ c)

theorem Inv.endTransaction {s : CheckpointState} (h : Inv s) (hn : s.ending = none) {x : Nat} {t : Transaction}
    (ht : s.manager.transactions x = some t) {status : TransactionStatus} {r : WalRecord} {plain : Result TransactionManager}
    (hr : (status = .committed ∧ r = .commit ∧ t.state = .active ∧ plain = s.manager.commit x) ∨
      (status = .aborted ∧ r = .abort ∧ TransactionManager.isOpen t ∧ plain = s.manager.abort x)) :
    Inv (s.endTransaction t status r plain) := by
  have hout := h.outcome
  rw [hn] at hout
  obtain ⟨rfl, -⟩ := hout.manager.object x t ht
  have ho : TransactionManager.isOpen t := by
    rcases hr with ⟨-, -, ho, -⟩ | ⟨-, -, ho, -⟩
    · exact Or.inl ho
    · exact ho
  unfold CheckpointState.endTransaction
  split
  · refine h.logged _ r (hout.outcomeLogged ht ho rfl ?_) (by rw [hn]; exact hout.extends_ending ht ho _ _) s.pending
    rcases hr with ⟨hs, hr, -⟩ | ⟨hs, hr, -⟩
    · exact Or.inl ⟨hs, hr⟩
    · exact Or.inr ⟨hs, hr⟩
  · rename_i hw
    have hw : t.hasWrites = false := by simpa using hw
    split
    · rename_i m
      have hstep : TransactionManager.Stepped s.manager m ∧ OutcomeInv m none s.storage.wal.entries := by
        rcases hr with ⟨-, -, -, hm⟩ | ⟨-, -, -, hm⟩
        · obtain ⟨t', ht', ho', rfl⟩ := TransactionManager.commit_eq_ok hm.symm
          rw [ht] at ht'
          cases ht'
          have hs := TransactionManager.Stepped.committed _ t ht ho'
          exact ⟨hs, hout.endedPlain hw hs⟩
        · obtain ⟨t', ht', ho', rfl⟩ := TransactionManager.abort_eq_ok hm.symm
          rw [ht] at ht'
          cases ht'
          have hs := TransactionManager.Stepped.aborted _ t ht ho'
          exact ⟨hs, hout.endedPlain hw hs⟩
      refine h.outcomes ?_ ?_
      · rw [hn]; exact hstep.2
      · rw [hn]; exact hout.extends_stepped hstep.1
    · exact h

/-- **Every page image logged so far is on disk.** -/
def Written (s : CheckpointState) : Prop :=
  ∀ e ∈ s.storage.wal.entries, ∀ p ∈ e.images, OnDisk s.storage.diskNow p.1 p.2

instance (s : CheckpointState) : Decidable s.Written := inferInstanceAs (Decidable (∀ e ∈ _, _))

/-- The checkpoint moves its local variables or the control file only. -/
theorem Inv.staged {s : CheckpointState} (h : Inv s) {ckpt : Checkpointing} (control : ControlState)
    (hcap : Agrees (decided s.manager s.ending) ckpt.statuses)
    (hstored : Agrees (decided s.manager s.ending) control.statuses)
    (hle : control.checkpointLsn ≤ s.storage.wal.endLsn)
    (hreach : Reached s.storage.diskNow control.checkpointLsn s.storage.wal.entries)
    (hrec : ckpt.stage = .recorded ∨ ckpt.stage = .recordFlushed →
      ckpt.checkpointLsn ≤ s.storage.wal.endLsn ∧ Reached s.storage.diskNow ckpt.checkpointLsn s.storage.wal.entries) :
    Inv { s with ckpt := ckpt, control := control } :=
  ⟨h.outcome, hstored, hcap, h.sound, hle, fun hr => (hrec hr).1, hreach, fun hr => (hrec hr).2⟩

theorem Inv.early {s : CheckpointState} (h : Inv s) {ckpt : Checkpointing}
    (hs : ckpt.stage ≠ .recorded ∧ ckpt.stage ≠ .recordFlushed)
    (hcap : Agrees (decided s.manager s.ending) ckpt.statuses) : Inv { s with ckpt := ckpt } :=
  h.staged s.control hcap h.stored h.control_le h.reached (fun hr => by rcases hr with hr | hr <;> simp_all)

/-- **Every step of the checkpoint keeps the invariant**, the CHECKPOINT record included when every logged image is on
disk. -/
theorem Inv.checkpointStep {s : CheckpointState} (h : Inv s) (hw : s.ckpt.stage = .synced → s.Written) :
    Inv s.checkpointStep := by
  unfold CheckpointState.checkpointStep
  split
  · split
    · exact h
    · exact h.early (by simp) h.captured
  · exact h.early (by simp) (h.outcome.statusMap_agrees _)
  · split
    · exact h
    · exact h.early (by simp) h.captured
  · exact (h.pooled h.sound.flushWal rfl rfl s.pending).early (by simp [setStage]) h.captured
  · exact (h.pooled h.sound.flushAll rfl rfl s.pending).early (by simp [setStage]) h.captured
  · exact h.early (by simp) h.captured
  · rename_i hstage
    have hl := h.logged 0 (.checkpoint s.storage.wal.endLsn) (h.outcome.logs (by simp) (by simp)) (fun _ _ hd => hd)
      s.pending
    refine hl.staged s.control h.captured h.stored hl.control_le hl.reached (fun _ => ⟨?_, ?_⟩)
    · exact Nat.le_of_lt (endLsn_append _ _ _)
    · refine Reached.append (fun e he _ p hp => ?_) (Nat.le_refl _) _ _
      exact (h.sound.append 0 _).onDisk (hw hstage e he p hp)
  · rename_i hstage
    have hr : s.Recording := Or.inl hstage
    have hp := h.pooled h.sound.flushWal rfl rfl s.pending
    exact hp.staged s.control h.captured h.stored hp.control_le hp.reached (fun _ => ⟨hp.ckpt_le hr, hp.recording hr⟩)
  · rename_i hstage
    have hr : s.Recording := Or.inr hstage
    exact h.staged _ h.captured h.captured (h.ckpt_le hr) (h.recording hr)
      (fun hr => by rcases hr with hr | hr <;> simp [setStage] at hr)

theorem Inv.finish {s : CheckpointState} (h : Inv s) : Inv (s.step .finish) := by
  simp only [step]
  split
  · rename_i x he
    have ho := h.outcome
    rw [he] at ho
    split
    · rename_i m hm
      obtain ⟨t, ht, hst, rfl⟩ := TransactionManager.commit_eq_ok hm
      refine h.outcomes (ho.finished ht (.committed x t ht hst) (fun _ => rfl)) ?_
      rw [ho.decided_finished ht, he]
      exact fun _ _ hd => hd
    · exact h
  · rename_i x he
    have ho := h.outcome
    rw [he] at ho
    split
    · rename_i m hm
      obtain ⟨t, ht, hst, rfl⟩ := TransactionManager.abort_eq_ok hm
      refine h.outcomes (ho.finished ht (.aborted x t ht hst) (fun hc => by cases hc)) ?_
      rw [ho.decided_finished ht, he]
      exact fun _ _ hd => hd
    · exact h
  · exact h

/-- **Every step keeps the invariant**, the CHECKPOINT record included when every logged image is on disk. -/
theorem inv_step {s : CheckpointState} (h : Inv s) (c : CheckpointCall)
    (hw : c = .checkpoint → s.ckpt.stage = .synced → s.Written) : Inv (s.step c) := by
  cases c with
  | begin i => exact h.managerStep _ (by simp)
  | statementSnapshot x => exact h.managerStep _ (by simp)
  | markFailed x => exact h.managerStep _ (by simp)
  | firstWrite x =>
    simp only [step]
    split
    · rename_i t ht
      split
      · rename_i hc
        exact h.logged x .begin ((h.outcome.logs (by simp) (by simp)).firstWrite ht hc.1) (fun _ _ hd => hd) s.pending
      · exact h
    · exact h
  | logImage x key page pageLsn =>
    simp only [step]
    split
    · split
      · split
        · exact h.logged x _ (h.outcome.logs (by simp) (by simp)) (fun _ _ hd => hd) _
        · exact h.logged x _ (h.outcome.logs (by simp) (by simp)) (fun _ _ hd => hd) _
      · exact h
    · exact h
  | install key image =>
    simp only [step]
    split
    · split
      · rename_i storage hi
        obtain ⟨hl, hwal⟩ := h.sound.install hi
        exact h.pooled hl (by rw [hwal]) (by rw [hwal]) _
      · exact h.pooled (h.sound.same_files rfl rfl) rfl rfl _
    · exact h
  | publishUnlogged key page =>
    simp only [step]
    split
    · rename_i storage hi
      obtain ⟨hl, hwal⟩ := h.sound.install hi
      exact h.pooled hl (by rw [hwal]) (by rw [hwal]) _
    · exact h
  | allocatePage table => exact h.pooled (h.sound.allocatePage table) rfl rfl _
  | flushFrame key =>
    exact h.pooled (h.sound.flushFrame key) (Storage.wal_flushFrame _ _).1 (Storage.wal_flushFrame _ _).2 _
  | evict key => exact h.pooled (h.sound.evict key) (Storage.wal_flushFrame _ _).1 (Storage.wal_flushFrame _ _).2 _
  | commit x =>
    simp only [step]
    split
    · rename_i t ht hn
      split
      · rename_i ho
        exact h.endTransaction hn ht (Or.inl ⟨rfl, rfl, ho, rfl⟩)
      · exact h
    · exact h
  | abort x =>
    simp only [step]
    split
    · rename_i t ht hn
      split
      · rename_i ho
        exact h.endTransaction hn ht (Or.inr ⟨rfl, rfl, ho, rfl⟩)
      · exact h
    · exact h
  | flushOutcome =>
    simp only [step]
    split
    · rename_i e he
      have ho := h.outcome
      rw [he] at ho
      refine (h.pooled h.sound.flushWal rfl rfl s.pending).outcomes ho.outcomeFlushed ?_
      simp only [he]
      exact fun _ _ hd => hd
    · exact h
  | finish => exact h.finish
  | checkpoint => exact h.checkpointStep (hw rfl)

/-! ## Over whole runs -/

/-- Along the run, every image logged before a CHECKPOINT record is on disk when the record is written. -/
def Sharp : CheckpointState → List CheckpointCall → Prop
  | _, []         => True
  | s, c :: calls => (c = .checkpoint → s.ckpt.stage = .synced → s.Written) ∧ Sharp (s.step c) calls

instance decidableSharp : ∀ (calls : List CheckpointCall) (s : CheckpointState), Decidable (s.Sharp calls)
  | [], _         => .isTrue trivial
  | c :: calls, s =>
    have : Decidable (c = .checkpoint) := by cases c <;> first | exact .isTrue rfl | exact .isFalse (by simp)
    have := decidableSharp calls (s.step c)
    inferInstanceAs (Decidable (_ ∧ _))

theorem inv_run : ∀ (calls : List CheckpointCall) {s : CheckpointState}, Inv s → s.Sharp calls → Inv (s.run calls)
  | [], _, h, _ => h
  | c :: calls, _, h, hs => inv_run calls (inv_step h c hs.1) hs.2

/-- **A checkpoint loses no concurrent work** in any run whose CHECKPOINT records find the logged images on disk: recovery
from the stored LSN returns what recovery from the start of the log returns, every transaction with writes that has
committed is committed in it, and every image of the log is on its page. -/
theorem checkpoint_loses_nothing (calls : List CheckpointCall) (hs : start.Sharp calls) :
    let s := start.run calls
    ∃ r, s.recoverFrom s.control.checkpointLsn = .ok r ∧ s.recoverFrom 0 = .ok r ∧
      (∀ x t, s.manager.transactions x = some t → t.state = .committed → t.hasWrites = true →
        r.statuses x = some .committed) ∧
      ∀ e ∈ s.storage.wal.entries, ∀ p ∈ e.images, OnDisk r.disk p.1 p.2 := by
  intro s
  have h : Inv s := inv_run calls inv_start hs
  obtain ⟨r, hr, hdisk, ⟨begun, hst, -⟩, -⟩ := recover_ok (h.outcome.coherent h.stored) s.storage.diskNow 0 s.control.nextXid
  refine ⟨r, ?_, hr, fun x t ht hc hw => ?_, fun e he p hp => ?_⟩
  · unfold recoverFrom
    rw [recover_skips h.reached]
    exact hr
  · rw [hst, settleStatuses_committed, outcomes_committed _ (h.outcome.coherent h.stored)]
    exact Or.inr (h.outcome.committed x t ht hc hw)
  · rw [hdisk]
    exact redoFrom_onDisk _ _ he (Nat.zero_le _) hp

/-- A page with one tuple of XID 2. -/
def onePage : HeapPage := ⟨[some ⟨2, 0, none, [.int 5]⟩], by decide⟩

/-- XID 2 begins and takes a page for its first write. -/
def firstPage : List CheckpointCall := [.begin .readCommitted, .allocatePage 0, .firstWrite 2]

/-- The write is published and committed. -/
def published : List CheckpointCall :=
  [.logImage 2 ⟨0, 0⟩ onePage 36, .install ⟨0, 0⟩ ⟨36, onePage⟩, .commit 2, .flushOutcome, .finish]

/-- The checkpoint up to `flush_all`, and from there to the control file. -/
def flushes : List CheckpointCall := List.replicate 5 .checkpoint
def records : List CheckpointCall := List.replicate 4 .checkpoint

/-- The write comes before the checkpoint: recovery from the stored LSN finds it on disk. -/
theorem checkpoint_loses_nothing_example :
    let s := start.run (firstPage ++ published ++ flushes ++ records)
    s.control.checkpointLsn ≠ 0 ∧ ∃ r, s.recoverFrom s.control.checkpointLsn = .ok r ∧ s.recoverFrom 0 = .ok r ∧
      OnDisk r.disk ⟨0, 0⟩ ⟨36, onePage⟩ := by
  intro s
  obtain ⟨r, hr, hr', -, himages⟩ := checkpoint_loses_nothing (firstPage ++ published ++ flushes ++ records) (by decide +kernel)
  have he : (⟨36, 2, .heapPageImages [(⟨0, 0⟩, ⟨36, onePage⟩)]⟩ : WalEntry) ∈ s.storage.wal.entries := by decide +kernel
  exact ⟨by decide +kernel, r, hr, hr', himages _ he _ (List.mem_singleton.2 rfl)⟩

/-- XID 2 writes and commits between `flush_all` and the CHECKPOINT record. -/
def lostWrite : CheckpointState := start.run (firstPage ++ flushes ++ published ++ records)

/-- **A page published and committed between `flush_all` and the CHECKPOINT record is lost**: after the control file is
stored, recovery from its LSN leaves the page blank. -/
theorem checkpoint_loses_committed_page :
    (¬ ∀ calls : List CheckpointCall, ∃ r r',
      (start.run calls).recoverFrom (start.run calls).control.checkpointLsn = .ok r ∧
      (start.run calls).recoverFrom 0 = .ok r' ∧ r.disk = r'.disk ∧ r.statuses = r'.statuses) ∧
    lostWrite.manager.statuses 2 = some .committed ∧
    (lostWrite.recoverFrom lostWrite.control.checkpointLsn).map (fun r => r.disk 0) = .ok [.valid .blank] ∧
    (lostWrite.recoverFrom 0).map (fun r => r.disk 0) = .ok [.valid ⟨36, onePage⟩] := by
  have hlost : (lostWrite.recoverFrom lostWrite.control.checkpointLsn).map (fun r => r.disk 0) = .ok [.valid .blank] := by
    decide +kernel
  have hkept : (lostWrite.recoverFrom 0).map (fun r => r.disk 0) = .ok [.valid ⟨36, onePage⟩] := by decide +kernel
  refine ⟨fun h => ?_, by decide +kernel, hlost, hkept⟩
  obtain ⟨r, r', hr, hr', hdisk, -⟩ := h (firstPage ++ flushes ++ published ++ records)
  rw [show start.run (firstPage ++ flushes ++ published ++ records) = lostWrite from rfl] at hr hr'
  rw [hr, Except.map, hdisk] at hlost
  rw [hr', Except.map, Except.ok.inj hlost] at hkept
  exact absurd hkept (by decide)

end CheckpointState
end MiniPostgres
