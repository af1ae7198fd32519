import MiniPostgres.Backing
/-!
# Positions — the LSN that a publication expects

`_publish_page` reads `end_lsn`, encodes its page with it and appends the image, each step under the lock of the log for itself;
the lock of the table keeps its other mutations away, and nothing keeps the appends of other sessions away.  A record that gets
in between takes the position, and the image lands behind the LSN that it names.
-/
namespace MiniPostgres

/-- The LSN that a publication has read and its record is to get. -/
def PublicationStage.expected : PublicationStage → Option Nat
  | .logging lsn _ => some lsn
  | _              => none

theorem PublicationStage.expected_eq {stage : PublicationStage} {lsn : Nat} :
    stage.expected = some lsn ↔ ∃ encoded, stage = .logging lsn encoded := by
  constructor
  · intro h
    cases stage with
    | logging lsn' encoded =>
      cases h
      exact ⟨encoded, rfl⟩
    | _ => cases h
  · rintro ⟨encoded, rfl⟩
    rfl

namespace PageStore

/-! ## Sessions -/

/-- Only a publication logs images; a session logs its outcome, and the checkpointer its record. -/
def Call.ofSession : Call → Bool
  | .log _ (.heapPageImages _ _) _ => false
  | _                              => true

abbrev SessionCall := {c : Call // c.ofSession = true}

/-- The publication that goes on. -/
def Call.publisher : Call → Option Publisher
  | .advance publisher _ => some publisher
  | _                    => none

/-- A publication has read `end_lsn` and not yet appended its image. -/
def Predicting (s : PageStore) (publisher : Publisher) (lsn : Nat) : Prop :=
  ∃ t encoded, s.tasks publisher = some t ∧ t.stage = .logging lsn encoded

/-- The call comes to `WalManager.append`. -/
def appends (s : PageStore) : Call → Bool
  | .log _ _ _           => true
  | .advance publisher _ =>
    match s.tasks publisher with
    | none   => false
    | some t =>
      match t.stage with
      | .opened      => decide (t.guard.key.fork = .heap) && !s.hasWrites t.xid
      | .logging _ _ => true
      | _            => false
  | _                    => false

/-- No record is appended while a publication of another session stands between `end_lsn` and its append. -/
def KeepsPositions (s : PageStore) (c : Call) : Prop :=
  s.appends c = true → ∀ publisher lsn, s.Predicting publisher lsn → c.publisher = some publisher

def KeepsPositionsAlong (s : PageStore) : List SessionCall → Prop
  | []         => True
  | c :: calls => s.KeepsPositions c.val ∧ (s.step c.val).KeepsPositionsAlong calls

def runSessions (s : PageStore) (calls : List SessionCall) : PageStore := s.run (calls.map Subtype.val)

/-- **'WAL append position changed'**: the image that the publication appends lands elsewhere than at the LSN inside it. -/
def PositionChanged (s : PageStore) (publisher : Publisher) (fault : Option Nat) : Prop :=
  ∃ t lsn image actualLsn, s.tasks publisher = some t ∧ t.stage = .logging lsn image.val ∧
    (s.wal.append t.xid (.heapPageImages [(t.guard.key, image)] (List.cons_ne_nil _ _)) fault).2 = .ok actualLsn ∧ actualLsn ≠ lsn

/-- Every image of the record has the LSN of the record. -/
def InPlace (e : DecodedWalRecord) : Prop :=
  ∀ images h, e.record = .heapPageImages images h → ∀ image ∈ images,
    ∃ page, decodePage image.1 image.2.val = .ok page ∧ page.pageLsn = e.lsn

/-! ## The invariant -/

structure Placed (s : PageStore) : Prop where
  predicted : ∀ publisher lsn, s.Predicting publisher lsn → s.wal.endLsn = lsn
  inPlace   : ∀ e ∈ s.wal.entries, InPlace e

/-- Neither the records of the log nor a publication has changed. -/
structure SameLog (s s' : PageStore) : Prop where
  entries : s'.wal.entries = s.wal.entries
  stop    : s'.wal.endLsn = s.wal.endLsn
  tasks   : s'.tasks = s.tasks

variable {s s' : PageStore} {publisher : Publisher} {t : Publication}

theorem SameLog.refl (s : PageStore) : SameLog s s := ⟨rfl, rfl, rfl⟩

theorem SameLog.trans {s'' : PageStore} (h : SameLog s s') (h' : SameLog s' s'') : SameLog s s'' :=
  ⟨h'.entries.trans h.entries, h'.stop.trans h.stop, h'.tasks.trans h.tasks⟩

theorem SameLog.placed (h : SameLog s s') (hp : Placed s) : Placed s' := by
  refine ⟨fun r lsn hr => ?_, fun e he => hp.inPlace e (by rw [← h.entries]; exact he)⟩
  rw [h.stop]
  refine hp.predicted r lsn ?_
  rw [Predicting, ← h.tasks]
  exact hr

theorem flush_entries (w : WalManager) (required : Option Nat) (fault : Bool) :
    (w.flush required fault).1.entries = w.entries ∧ (w.flush required fault).1.endLsn = w.endLsn := by
  unfold WalManager.flush
  split
  · exact ⟨rfl, rfl⟩
  · split
    · split <;> exact ⟨rfl, rfl⟩
    · exact ⟨rfl, rfl⟩

theorem sameLog_flushFrame (s : PageStore) (i : Nat) (fault : Bool) : SameLog s (s.flushFrame i fault).1 := by
  unfold flushFrame
  simp only
  split
  · exact .refl s
  · split
    · exact .refl s
    · obtain ⟨h1, h2⟩ := flush_entries s.wal (some (s.pool.frames i).pageLsn) fault
      split
      · rename_i w e hw
        rw [hw] at h1 h2
        exact ⟨h1, h2, rfl⟩
      · rename_i w u hw
        rw [hw] at h1 h2
        split <;> exact ⟨h1, h2, rfl⟩

theorem sameLog_fill (s : PageStore) (i : Nat) (key : RelationPage) (fault : Bool) : SameLog s (s.fill i key fault).1 := by
  have hflush : SameLog s (if (s.pool.frames i).key.isSome then s.flushFrame i fault else (s, .ok ())).1 := by
    split
    · exact sameLog_flushFrame s i fault
    · exact .refl s
  unfold fill
  split
  · rename_i s' e heq
    rw [heq] at hflush
    exact hflush
  · rename_i s' u heq
    rw [heq] at hflush
    split
    · exact hflush
    · split <;> exact hflush

theorem sameLog_fetchPage (s : PageStore) (key : RelationPage) (fault : Bool) : SameLog s (s.fetchPage key fault).1 := by
  unfold fetchPage
  split
  · exact ⟨rfl, rfl, rfl⟩
  · split
    · exact ⟨rfl, rfl, rfl⟩
    · rename_i pool i free hsel
      have hfill := sameLog_fill { s with pool := pool } i key fault
      split
      · rename_i s' e heq
        rw [heq] at hfill
        exact ⟨hfill.entries, hfill.stop, hfill.tasks⟩
      · rename_i s' bytes lsn heq
        rw [heq] at hfill
        exact ⟨hfill.entries, hfill.stop, hfill.tasks⟩

theorem sameLog_newPage (s : PageStore) (relation : RelationId) (kind : Option PageKind) (fault : Bool) :
    SameLog s (s.newPage relation kind fault).1 := by
  unfold newPage
  split
  · exact .refl s
  · rename_i disk key _
    have hdisk : SameLog s { s with disk := disk } := ⟨rfl, rfl, rfl⟩
    exact hdisk.trans (sameLog_fetchPage { s with disk := disk } key fault)

theorem sameLog_flushFrames (fault : Nat → Bool) : ∀ (frames : List Nat) (s : PageStore), SameLog s (flushFrames fault frames s).1
  | [], s => .refl s
  | i :: rest, s => by
    have hflush := sameLog_flushFrame s i (fault i)
    unfold flushFrames
    split
    · rename_i s' e heq
      rw [heq] at hflush
      exact hflush
    · rename_i s' u heq
      rw [heq] at hflush
      exact hflush.trans (sameLog_flushFrames fault rest s')

/-- An `append` that returns is at the old end of the log, and one that raises leaves the records as they are. -/
theorem append_entries (w : WalManager) (xid : Nat) (record : RawRecord) (fault : Option Nat) :
    ((∃ e, (w.append xid record fault).2 = .error e) ∧ (w.append xid record fault).1.entries = w.entries ∧
      (w.append xid record fault).1.endLsn = w.endLsn) ∨
    ((w.append xid record fault).2 = .ok w.endLsn ∧
      ∃ stop, (w.append xid record fault).1.entries = w.entries ++ [⟨w.endLsn, stop, xid, record⟩]) := by
  rcases WalManager.append_cases w xid record fault with ⟨he, hw | ⟨data, hw⟩⟩ | ⟨body, bytes, -, hw⟩
  · exact .inl ⟨he, by rw [hw], by rw [hw]⟩
  · exact .inl ⟨he, by rw [hw], by rw [hw]⟩
  · exact .inr ⟨by rw [hw], _, by rw [hw]⟩

theorem inPlace_append {w w' : WalManager} (h : ∀ e ∈ w.entries, InPlace e) {xid : Nat} {record : RawRecord} {fault : Option Nat}
    {r : Result Nat} (heq : w.append xid record fault = (w', r)) (hnew : ∀ stop, InPlace ⟨w.endLsn, stop, xid, record⟩) :
    ∀ e ∈ w'.entries, InPlace e := by
  intro e he
  have hcases := append_entries w xid record fault
  rw [heq] at hcases
  rcases hcases with ⟨-, hsame, -⟩ | ⟨-, stop, hadd⟩
  · rw [hsame] at he
    exact h e he
  · rw [hadd] at he
    rcases List.mem_append.1 he with he | he
    · exact h e he
    · rw [List.mem_singleton.1 he]
      exact hnew stop

theorem predicting_moveTo {stage : PublicationStage} {r : Publisher} {lsn : Nat}
    (h : (s.moveTo publisher t stage).Predicting r lsn) :
    (r = publisher ∧ ∃ encoded, stage = .logging lsn encoded) ∨ (r ≠ publisher ∧ s.Predicting r lsn) := by
  obtain ⟨t', encoded, ht', hs⟩ := h
  simp only [moveTo, Function.update_apply] at ht'
  split at ht'
  · rename_i hr
    cases ht'
    exact .inl ⟨hr, encoded, hs⟩
  · rename_i hr
    exact .inr ⟨hr, t', encoded, ht', hs⟩

theorem placed_moveTo {w : WalManager} (himg : ∀ e ∈ w.entries, InPlace e)
    (hother : w.endLsn = s.wal.endLsn ∨ ∀ r lsn, s.Predicting r lsn → r = publisher) (hp : Placed s) {stage : PublicationStage}
    (hs : ∀ lsn encoded, stage = .logging lsn encoded → w.endLsn = lsn) :
    Placed (({ s with wal := w } : PageStore).moveTo publisher t stage) := by
  refine ⟨fun r lsn hr => ?_, himg⟩
  rcases predicting_moveTo hr with ⟨-, encoded, he⟩ | ⟨hne, hr⟩
  · exact hs lsn encoded he
  · rcases hother with hend | hother
    · exact hend.trans (hp.predicted r lsn hr)
    · exact absurd (hother r lsn hr) hne

theorem placed_advanceOpened (hp : Placed s) (ht : s.tasks publisher = some t) (hs : t.stage = .opened) (fault : Option Nat)
    (hsolo : s.appends (.advance publisher fault) = true → ∀ r lsn, s.Predicting r lsn → r = publisher) :
    Placed (s.advanceOpened publisher t fault) := by
  have hmove : ∀ {stage}, (∀ lsn encoded, stage = .logging lsn encoded → s.wal.endLsn = lsn) →
    Placed (s.moveTo publisher t stage) :=
    fun hs => placed_moveTo (w := s.wal) hp.inPlace (.inl rfl) hp hs
  unfold advanceOpened
  split
  · rename_i hfork
    split
    · exact hmove (fun _ _ he => by cases he)
    · rename_i hw
      have ha : s.appends (.advance publisher fault) = true := by
        simp only [appends, ht, hs, hfork, decide_true, Bool.true_and, Bool.not_eq_true']
        exact Bool.eq_false_iff.2 hw
      have hbegin : ∀ stop, InPlace ⟨s.wal.endLsn, stop, t.xid, .begin⟩ := fun _ _ _ he => by cases he
      split
      · rename_i w e heq
        have himg := inPlace_append hp.inPlace heq hbegin
        exact placed_moveTo himg (.inr (hsolo ha)) hp (fun _ _ he => by cases he)
      · rename_i w lsn heq
        have himg := inPlace_append hp.inPlace heq hbegin
        have hmoved : Placed (({ s with wal := w } : PageStore).moveTo publisher t .begun) :=
          placed_moveTo himg (.inr (hsolo ha)) hp (fun _ _ he => by cases he)
        exact ⟨hmoved.predicted, hmoved.inPlace⟩
  · split
    · exact hmove (fun _ _ he => by cases he)
    · exact hmove (fun _ _ he => by cases he)

/-- The image has the LSN that the publication has read, and the log still ends there. -/
theorem placed_advanceLogging (h : Inv s) (hp : Placed s) (ht : s.tasks publisher = some t) {pageLsn : Nat} {encoded : ByteString}
    (hs : t.stage = .logging pageLsn encoded) (fault : Option Nat)
    (hsolo : s.appends (.advance publisher fault) = true → ∀ r lsn, s.Predicting r lsn → r = publisher) :
    Placed (s.advanceLogging publisher t pageLsn encoded fault) := by
  have ha : s.appends (.advance publisher fault) = true := by simp only [appends, ht, hs]
  have hstage := (h.tasks publisher t ht).stage
  simp only [StageOk, hs] at hstage
  have hend : s.wal.endLsn = pageLsn := hp.predicted publisher pageLsn ⟨t, encoded, ht, hs⟩
  unfold advanceLogging
  split
  · rename_i hlen
    have hnew : ∀ stop, InPlace ⟨s.wal.endLsn, stop, t.xid, .heapPageImages [(t.guard.key, ⟨encoded, hlen⟩)]
        (List.cons_ne_nil _ _)⟩ := by
      intro stop images hne he image hmem
      cases he
      rw [List.mem_singleton.1 hmem]
      exact ⟨_, decodePage_encodePage hstage.2, hend.symm⟩
    split
    · rename_i w e heq
      have himg := inPlace_append hp.inPlace heq hnew
      exact placed_moveTo himg (.inr (hsolo ha)) hp (fun _ _ he => by cases he)
    · rename_i w actual heq
      have himg := inPlace_append hp.inPlace heq hnew
      refine placed_moveTo himg (.inr (hsolo ha)) hp (fun lsn encoded' he => ?_)
      split at he <;> cases he
  · exact placed_moveTo (w := s.wal) hp.inPlace (.inl rfl) hp (fun _ _ he => by cases he)

theorem advance_placed (h : Inv s) (hp : Placed s) (ht : s.tasks publisher = some t) (fault : Option Nat)
    (hk : s.KeepsPositions (.advance publisher fault)) : Placed (s.advance publisher t fault) := by
  have hmove : ∀ {stage}, (∀ lsn encoded, stage = .logging lsn encoded → s.wal.endLsn = lsn) →
    Placed (s.moveTo publisher t stage) :=
    fun hs => placed_moveTo (w := s.wal) hp.inPlace (.inl rfl) hp hs
  have hleave : Placed (s.moveTo publisher t .leaving) := hmove (fun _ _ he => by cases he)
  -- a publication that appends is the only one that predicts
  have hsolo : s.appends (.advance publisher fault) = true → ∀ r lsn, s.Predicting r lsn → r = publisher :=
    fun ha r lsn hr => (Option.some.inj (hk ha r lsn hr)).symm
  unfold advance
  split
  · rename_i hs
    exact placed_advanceOpened hp ht hs fault hsolo
  · unfold advanceBegun
    split
    · exact hleave
    · refine hmove (fun lsn encoded he => ?_)
      cases he
      rfl
  · rename_i pageLsn encoded hs
    exact placed_advanceLogging h hp ht hs fault hsolo
  · rename_i pageLsn encoded hs
    split
    · exact hleave
    · have hmoved : Placed (s.moveTo publisher t (.marking pageLsn)) := hmove (fun _ _ he => by cases he)
      exact ⟨hmoved.predicted, hmoved.inPlace⟩
  · split
    · exact hleave
    · exact ⟨hleave.predicted, hleave.inPlace⟩
  · have hgone : ∀ r lsn, (∃ t' encoded, Function.update s.tasks publisher none r = some t' ∧ t'.stage = .logging lsn encoded) →
        s.wal.endLsn = lsn := by
      rintro r lsn ⟨t', encoded, ht', hs'⟩
      exact hp.predicted r lsn ⟨t', encoded, mem_of_released ht', hs'⟩
    split <;> exact ⟨hgone, hp.inPlace⟩

/-- **One call keeps every position** while no record gets before an image. -/
theorem step_placed (h : Inv s) (hp : Placed s) {c : Call} (hc : c.ofSession = true)
    (hk : s.KeepsPositions c) : Placed (s.step c) := by
  cases c with
  | fetch key fault => exact (sameLog_fetchPage s key fault).placed hp
  | newPage relation kind fault => exact (sameLog_newPage s relation kind fault).placed hp
  | release guard =>
    simp only [step, release]
    split
    · split
      · exact hp
      · exact ⟨hp.predicted, hp.inPlace⟩
    · exact hp
  | flushPage key fault =>
    simp only [step, flushPage]
    split
    · exact hp
    · exact (sameLog_flushFrame s _ fault).placed hp
  | flushAll fault => exact (sameLog_flushFrames fault _ s).placed hp
  | publish guard locked xid kind body =>
    simp only [step, publish]
    split
    · have hopened : Placed (s.moveTo ⟨guard.key.relation, locked⟩ ⟨guard, xid, kind, body, .opened⟩ .opened) :=
        placed_moveTo (w := s.wal) hp.inPlace (.inl rfl) hp (fun _ _ he => by cases he)
      exact hopened
    · exact hp
  | advance publisher fault =>
    simp only [step]
    split
    · exact hp
    · rename_i t ht
      exact advance_placed h hp ht fault hk
  | log xid record fault =>
    refine ⟨fun r lsn hr => ?_, inPlace_append hp.inPlace (Prod.eta (s.wal.append xid record fault)).symm
      (fun stop images hne he => ?_)⟩
    · cases hk rfl r lsn hr
    · simp only at he
      rw [he] at hc
      cases hc
  | flushWal required fault =>
    obtain ⟨h1, h2⟩ := flush_entries s.wal required fault
    have hsame : SameLog s { s with wal := (s.wal.flush required fault).1 } := ⟨h1, h2, rfl⟩
    exact hsame.placed hp

theorem placed_start (frameCount : Nat) : Placed (start frameCount) :=
  ⟨fun _ _ ⟨_, _, ht, _⟩ => (by cases ht), fun _ he => (by cases he)⟩

theorem run_placed : ∀ (calls : List SessionCall) {s : PageStore}, Inv s → Placed s → s.KeepsPositionsAlong calls →
    Inv (s.runSessions calls) ∧ Placed (s.runSessions calls)
  | [], _, h, hp, _ => ⟨h, hp⟩
  | c :: calls, _, h, hp, hk => run_placed calls (inv_step h c.val) (step_placed h hp c.property hk.1) hk.2

theorem Placed.unchanged (hp : Placed s) (publisher : Publisher) (fault : Option Nat) : ¬s.PositionChanged publisher fault := by
  rintro ⟨t, lsn, image, actual, ht, hs, hok, hne⟩
  have hend := hp.predicted publisher lsn ⟨t, image.val, ht, hs⟩
  rcases append_entries s.wal t.xid (.heapPageImages [(t.guard.key, image)] (List.cons_ne_nil _ _)) fault with
    ⟨⟨e, he⟩, -⟩ | ⟨hat, -⟩
  · rw [he] at hok
    cases hok
  · rw [hat] at hok
    cases hok
    exact hne hend

/-- **No session changes the position of another's image** in a run where no record is appended between `end_lsn` and the append
of a publication: no publication raises, and every record of images stands at the LSN inside them. -/
theorem positions_kept (frameCount : Nat) (calls : List SessionCall) (h : (start frameCount).KeepsPositionsAlong calls) :
    (∀ publisher fault, ¬((start frameCount).runSessions calls).PositionChanged publisher fault) ∧
      ∀ e ∈ ((start frameCount).runSessions calls).wal.entries, InPlace e := by
  obtain ⟨-, hp⟩ := run_placed calls (inv_start frameCount) (placed_start frameCount) h
  exact ⟨hp.unchanged, hp.inPlace⟩

/-! ## Runs of known publications -/

/-- The publication that the call begins or moves on. -/
def Call.task : Call → Option Publisher
  | .publish guard locked _ _ _ => some ⟨guard.key.relation, locked⟩
  | .advance publisher _        => some publisher
  | _                           => none

theorem advance_tasks (s : PageStore) (t : Publication) (fault : Option Nat) {p : Publisher} (hp : p ≠ publisher) :
    (s.advance publisher t fault).tasks p = s.tasks p := by
  unfold advance
  split
  · unfold advanceOpened
    split
    · split
      · exact Function.update_of_ne hp _ _
      · split <;> exact Function.update_of_ne hp _ _
    · split <;> exact Function.update_of_ne hp _ _
  · unfold advanceBegun
    split <;> exact Function.update_of_ne hp _ _
  · unfold advanceLogging
    split
    · split <;> exact Function.update_of_ne hp _ _
    · exact Function.update_of_ne hp _ _
  all_goals split <;> exact Function.update_of_ne hp _ _

theorem step_tasks {c : Call} {p : Publisher} (hc : c.task ≠ some p) : (s.step c).tasks p = s.tasks p := by
  cases c with
  | fetch key fault => rw [step, (sameLog_fetchPage s key fault).tasks]
  | newPage relation kind fault => rw [step, (sameLog_newPage s relation kind fault).tasks]
  | release guard =>
    simp only [step, release]
    split
    · split <;> rfl
    · rfl
  | flushPage key fault =>
    simp only [step, flushPage]
    split
    · rfl
    · rw [(sameLog_flushFrame s _ fault).tasks]
  | flushAll fault => rw [step, flushAll, (sameLog_flushFrames fault _ s).tasks]
  | publish guard locked xid kind body =>
    simp only [step, publish]
    split
    · exact Function.update_of_ne (fun he => hc (congrArg some he.symm)) _ _
    · rfl
  | advance publisher fault =>
    simp only [step]
    split
    · rfl
    · exact advance_tasks s _ fault (fun he => hc (congrArg some he.symm))
  | log xid record fault => rfl
  | flushWal required fault => rfl

/-- `KeepsPositionsAlong`, computed for the publications of a list. -/
def keepsPositions (publishers : List Publisher) : PageStore → List SessionCall → Bool
  | _, []         => true
  | s, c :: calls =>
    (!s.appends c.val || publishers.all (fun p =>
      decide (c.val.publisher = some p) || (s.tasks p).all (fun t => t.stage.expected.isNone))) &&
    keepsPositions publishers (s.step c.val) calls

/-- **A run of known publications keeps its positions** if the computation says so. -/
theorem keepsPositions_along {publishers : List Publisher} : ∀ (calls : List SessionCall) {s : PageStore},
    (∀ p ∉ publishers, s.tasks p = none) → (∀ c ∈ calls, ∀ p ∈ c.val.task, p ∈ publishers) →
    keepsPositions publishers s calls = true → s.KeepsPositionsAlong calls
  | [], _, _, _, _ => trivial
  | c :: calls, s, hs, hc, hk => by
    rw [keepsPositions, Bool.and_eq_true, Bool.or_eq_true, List.all_eq_true] at hk
    obtain ⟨hnow, hrest⟩ := hk
    refine ⟨fun ha p lsn hp => ?_, keepsPositions_along calls (fun p hp => ?_)
      (fun d hd => hc d (List.mem_cons_of_mem _ hd)) hrest⟩
    · obtain ⟨t, encoded, ht, hstage⟩ := hp
      have hmem : p ∈ publishers := by
        by_contra hne
        cases (hs p hne).symm.trans ht
      rw [ha] at hnow
      have hall := hnow.resolve_left (by decide) p hmem
      rw [Bool.or_eq_true, decide_eq_true_eq] at hall
      refine hall.resolve_right (fun hnone => ?_)
      rw [ht, Option.all_some, PublicationStage.expected_eq.2 ⟨encoded, hstage⟩] at hnone
      cases hnone
    · rw [step_tasks (fun he => hp (hc c List.mem_cons_self p he))]
      exact hs p hp

/-- One call more: what it leaves, and why it may append. -/
theorem keepsPositions_cons {publishers : List Publisher} {c : Call} (hc : c.ofSession = true)
    {calls : List SessionCall} {s₁ s' : PageStore}
    (hstep : s.step c = s₁)
    (hkeep : s.appends c = false ∨ publishers.all (fun p =>
      decide (c.publisher = some p) || (s.tasks p).all (fun t => t.stage.expected.isNone)) = true)
    (hrest : keepsPositions publishers s₁ calls = true ∧ s₁.runSessions calls = s') :
    keepsPositions publishers s (⟨c, hc⟩ :: calls) = true ∧ s.runSessions (⟨c, hc⟩ :: calls) = s' := by
  rw [← hstep] at hrest
  refine ⟨?_, hrest.2⟩
  rw [keepsPositions, hrest.1, Bool.and_true, Bool.or_eq_true, Bool.not_eq_true']
  exact hkeep

/-! ## The steps that nothing stops -/

/-- What a step of one publication before its frame leaves of the log, of itself and of the others. -/
structure Advanced (s s' : PageStore) (publisher : Publisher) (t : Publication) (wal : WalManager)
    (hasWrites : Nat → Bool) : Prop where
  task   : s'.tasks publisher = some t
  others : ∀ p, p ≠ publisher → s'.tasks p = s.tasks p
  wal    : s'.wal = wal
  writes : s'.hasWrites = hasWrites
  pool   : s'.pool = s.pool

theorem advanced_moveTo (s : PageStore) (publisher : Publisher) (t : Publication) (stage : PublicationStage) (w : WalManager)
    (hasWrites : Nat → Bool) :
    Advanced s (({ s with wal := w, hasWrites := hasWrites } : PageStore).moveTo publisher t stage) publisher
      { t with stage := stage } w hasWrites :=
  ⟨Function.update_self .., fun _ hp => Function.update_of_ne hp .., rfl, rfl, rfl⟩

theorem step_opened (ht : s.tasks publisher = some t) (hs : t.stage = .opened) (hfork : t.guard.key.fork = .heap)
    (hw : s.hasWrites t.xid = false) {w : WalManager} {lsn : Nat} (happ : s.wal.append t.xid .begin none = (w, .ok lsn)) :
    Advanced s (s.step (.advance publisher none)) publisher { t with stage := .begun } w
      (Function.update s.hasWrites t.xid true) := by
  simp only [step, ht, advance, hs, advanceOpened, hfork, hw, Bool.false_eq_true, if_false, happ]
  exact advanced_moveTo s publisher t .begun w _

theorem step_begun (ht : s.tasks publisher = some t) (hs : t.stage = .begun) {encoded : ByteString}
    (henc : encodePage t.guard.key .heap s.wal.endLsn t.body = .ok encoded) :
    Advanced s (s.step (.advance publisher none)) publisher
      { t with stage := .logging s.wal.endLsn encoded } s.wal s.hasWrites := by
  simp only [step, ht, advance, hs, advanceBegun, henc]
  exact advanced_moveTo s publisher t _ s.wal s.hasWrites

theorem step_logging (ht : s.tasks publisher = some t) {lsn : Nat} {encoded : ByteString} (hs : t.stage = .logging lsn encoded)
    (hlen : encoded.length = walPageSize) {w : WalManager}
    (happ : s.wal.append t.xid (.heapPageImages [(t.guard.key, ⟨encoded, hlen⟩)] (List.cons_ne_nil _ _)) none = (w, .ok lsn)) :
    Advanced s (s.step (.advance publisher none)) publisher { t with stage := .replacing lsn encoded } w s.hasWrites := by
  simp only [step, ht, advance, hs, advanceLogging, dif_pos hlen, happ, ne_eq, not_true_eq_false, if_false]
  exact advanced_moveTo s publisher t _ w s.hasWrites

theorem packField_of_lt {width n : Nat} (h : n < 256 ^ width) : packField width n = .ok (Bytes.beBytes width n) := by
  rw [packField, if_pos h]

/-- **An append of a record that its fields can hold returns** the old end of the log. -/
theorem append_returns {w : WalManager} {xid : Nat} {record : RawRecord} {body : ByteString} (hpay : payload record = .ok body)
    (htotal : headerSize + body.length < 256 ^ 4) (hlsn : w.endLsn < 256 ^ 8) (hxid : xid < 256 ^ 8) :
    ∃ w', w.append xid record none = (w', .ok w.endLsn) ∧ w'.endLsn = w.endLsn + (headerSize + body.length) ∧
      w'.entries = w.entries ++ [⟨w.endLsn, w'.endLsn, xid, record⟩] := by
  have henc : ∃ encoded, encodeRecord w.endLsn xid record = .ok encoded := by
    simp only [encodeRecord, hpay, packField_of_lt htotal, packField_of_lt hlsn, packField_of_lt hxid, bind, Except.bind]
    exact ⟨_, rfl⟩
  obtain ⟨encoded, henc⟩ := henc
  obtain ⟨body', e⟩ := encodeRecord_eq_ok henc
  cases hpay.symm.trans e.payload_eq
  refine ⟨⟨WalManager.pwrite w.file w.endLsn encoded, w.entries ++ [⟨w.endLsn, w.endLsn + encoded.length, xid, record⟩],
    w.endLsn + encoded.length, w.flushedLsn⟩, ?_, by rw [e.length], rfl⟩
  simp only [WalManager.append, henc, e.decode]

theorem payload_image (key : RelationPage) (image : PageBytes) :
    ∃ body, payload (.heapPageImages [(key, image)] (List.cons_ne_nil _ _)) = .ok body ∧ body.length = 8213 := by
  have himage : image.val.length = 8192 := image.property
  refine ⟨Bytes.beBytes 4 1 ++ [(key, image)].flatMap imageBytes, ?_, ?_⟩
  · rw [payload, List.length_singleton, packField_of_lt (by decide)]
    rfl
  · simp only [List.flatMap_cons, List.flatMap_nil, List.append_nil, imageBytes, List.length_append, Bytes.length_beBytes, himage]

/-- **A publication whose position is taken raises**, and leaves its image at a place that the image does not name. -/
theorem position_lost (h : Inv s) {lsn : Nat} {encoded : ByteString} (ht : s.tasks publisher = some t)
    (hs : t.stage = .logging lsn encoded) (hne : s.wal.endLsn ≠ lsn) (hend : s.wal.endLsn < 256 ^ 8) (hxid : t.xid < 256 ^ 8) :
    s.PositionChanged publisher none ∧ ∃ e ∈ (s.step (.advance publisher none)).wal.entries, ¬InPlace e := by
  have hstage := (h.tasks publisher t ht).stage
  simp only [StageOk, hs] at hstage
  have hlen := length_encodePage hstage.2
  obtain ⟨body, hpay, hbody⟩ := payload_image t.guard.key ⟨encoded, hlen⟩
  obtain ⟨w', happ, -, -⟩ := append_returns hpay (by rw [hbody]; decide) hend hxid
  have hok := congrArg Prod.snd happ
  have hwal : (s.step (.advance publisher none)).wal =
      (s.wal.append t.xid (.heapPageImages [(t.guard.key, ⟨encoded, hlen⟩)] (List.cons_ne_nil _ _)) none).1 := by
    simp only [step, ht, advance, hs, advanceLogging, dif_pos hlen]
    split <;> rename_i heq <;> rw [heq] <;> rfl
  rw [hwal]
  rcases append_entries s.wal t.xid (.heapPageImages [(t.guard.key, ⟨encoded, hlen⟩)] (List.cons_ne_nil _ _)) none with
    ⟨⟨e, he⟩, -⟩ | ⟨-, stop, hadd⟩
  · cases hok.symm.trans he
  · refine ⟨⟨t, lsn, ⟨encoded, hlen⟩, _, ht, hs, hok, hne⟩, _, by rw [hadd]; exact List.mem_append_right _ List.mem_cons_self,
      fun hplace => ?_⟩
    obtain ⟨page, hdec, hlsn⟩ := hplace _ _ rfl _ List.mem_cons_self
    cases hdec.symm.trans (decodePage_encodePage hstage.2)
    exact hne hlsn.symm

def firstTable : RelationId := ⟨.heap, 1⟩

/-- A session that has begun, and a writer of a page of the first table that has read `end_lsn`. -/
def writerAndSession : List SessionCall :=
  [⟨.newPage firstTable none false, rfl⟩, ⟨.log 3 .begin none, rfl⟩, ⟨.publish ⟨0, ⟨.heap, 1, 0⟩⟩ true 2 .heap [], rfl⟩,
    ⟨.advance ⟨firstTable, true⟩ none, rfl⟩, ⟨.advance ⟨firstTable, true⟩ none, rfl⟩]

/-- The session commits before the image is appended. -/
def commitBetween : List SessionCall := writerAndSession ++ [⟨.log 3 .commit none, rfl⟩]

theorem encodePage_empty (key : RelationPage) (kind : PageKind) {lsn : Nat} (h : lsn < 2 ^ 64) :
    ∃ encoded, encodePage key kind lsn [] = .ok encoded :=
  ⟨_, encodePage_eq_ok.2 ⟨h, Nat.zero_le _, rfl⟩⟩

theorem newPage_fresh {object : UInt64} {i : Nat} {rest : List Nat} (hdisk : s.disk ⟨.heap, object⟩ = [])
    (hfree : s.pool.freeFrames = i :: rest) (hkey : (s.pool.frames i).key = none)
    (habsent : s.pool.pageTable ⟨.heap, object, 0⟩ = none) :
    ∃ page, encodePage ⟨.heap, object, 0⟩ .heap 0 [] = .ok page ∧ s.newPage ⟨.heap, object⟩ none false =
      ({ s with
          disk   := Function.update s.disk ⟨.heap, object⟩ [page]
          pool   := ({ s.pool with freeFrames := rest } : BufferPool).load i ⟨.heap, object, 0⟩ page 0
          guards := ⟨i, ⟨.heap, object, 0⟩⟩ :: s.guards },
        .ok ⟨i, ⟨.heap, object, 0⟩⟩) := by
  obtain ⟨page, henc⟩ := encodePage_empty ⟨.heap, object, 0⟩ .heap (show 0 < 2 ^ 64 by decide)
  have hall : s.disk.allocatePage ⟨.heap, object⟩ none =
      .ok (Function.update s.disk ⟨.heap, object⟩ [page], ⟨.heap, object, 0⟩) := by
    rw [RelationFiles.allocatePage, hdisk, if_neg (by decide)]
    exact bind_eq_ok.2 ⟨page, henc, rfl⟩
  have hread : RelationFiles.readPage (Function.update s.disk ⟨.heap, object⟩ [page]) ⟨.heap, object, 0⟩ = .ok page := by
    simp [RelationFiles.readPage, RelationFiles.pageAt, RelationPage.relation, decodePage_encodePage henc, bind, Except.bind]
  refine ⟨page, henc, ?_⟩
  simp only [newPage, hall, fetchPage, habsent, BufferPool.selectFrame, hfree, fill, hkey, Option.isSome_none, Bool.false_eq_true,
    if_false, hread, decodePage_encodePage henc]

theorem newPage_start : ∃ disk pool, (start 1).newPage firstTable none false =
    (⟨.new, disk, pool, [⟨0, ⟨.heap, 1, 0⟩⟩], fun _ => none, fun _ => false⟩, .ok ⟨0, ⟨.heap, 1, 0⟩⟩) := by
  obtain ⟨page, -, hnew⟩ := @newPage_fresh (start 1) 1 0 [] rfl rfl rfl rfl
  exact ⟨_, _, hnew⟩

theorem run_newPage (s : PageStore) (relation : RelationId) (kind : Option PageKind) (fault : Bool) (calls : List Call) :
    s.run (.newPage relation kind fault :: calls) = (s.newPage relation kind fault).1.run calls := rfl

theorem commitBetween_end :
    (((start 1).runSessions commitBetween).tasks ⟨firstTable, true⟩).map (fun t => (t.xid, t.stage.expected)) =
    some (2, some 72) ∧ ((start 1).runSessions commitBetween).wal.endLsn = 108 := by
  obtain ⟨disk, pool, hnew⟩ := newPage_start
  obtain ⟨encoded, hpage⟩ := encodePage_empty ⟨.heap, 1, 0⟩ .heap (show 72 < 2 ^ 64 by decide)
  obtain ⟨w₁, h₁, e₁, -⟩ := @append_returns .new 3 .begin [] rfl (by decide) (by decide) (by decide)
  obtain ⟨w₂, h₂, e₂, -⟩ := @append_returns w₁ 2 .begin [] rfl (by decide) (by rw [e₁]; decide) (by decide)
  obtain ⟨w₃, h₃, e₃, -⟩ := @append_returns w₂ 3 .commit [] rfl (by decide) (by rw [e₂, e₁]; decide) (by decide)
  have hend : w₂.endLsn = 72 := by rw [e₂, e₁]; rfl
  have hrel : (⟨.heap, 1, 0⟩ : RelationPage).relation = firstTable := rfl
  simp only [runSessions, commitBetween, writerAndSession, List.map_cons, List.map_nil, List.cons_append, List.nil_append]
  rw [run_newPage, hnew]
  simp [run, step, h₁, publish, readerGuards, ownGuards, hrel, advance, advanceOpened, h₂, advanceBegun, hend, hpage, moveTo, h₃,
    PublicationStage.expected]
  rw [e₃, hend]
  rfl

theorem commit_takes_position : ((start 1).runSessions commitBetween).PositionChanged ⟨firstTable, true⟩ none ∧
    ∃ e ∈ (((start 1).runSessions commitBetween).step (.advance ⟨firstTable, true⟩ none)).wal.entries, ¬InPlace e := by
  have hinv : Inv ((start 1).runSessions commitBetween) := by
    rw [runSessions]
    exact inv_run 1 _
  have hall := commitBetween_end
  revert hinv hall
  generalize (start 1).runSessions commitBetween = s
  rintro hinv ⟨hstage, hend⟩
  obtain ⟨t, ht, hs⟩ := Option.map_eq_some_iff.1 hstage
  obtain ⟨hxid, hs⟩ := Prod.mk.inj hs
  obtain ⟨encoded, hs⟩ := PublicationStage.expected_eq.1 hs
  exact position_lost hinv ht hs (by rw [hend]; decide) (by rw [hend]; decide) (by rw [hxid]; decide)

/-- Two tables have their first pages, and two sessions write to them.  One of them commits before the other reads `end_lsn`. -/
def twoWriters : List SessionCall :=
  [⟨.newPage ⟨.heap, 1⟩ none false, rfl⟩, ⟨.newPage ⟨.heap, 2⟩ none false, rfl⟩,
    ⟨.publish ⟨0, ⟨.heap, 1, 0⟩⟩ true 2 .heap [], rfl⟩,
    ⟨.publish ⟨1, ⟨.heap, 2, 0⟩⟩ true 3 .heap [], rfl⟩, ⟨.advance ⟨⟨.heap, 1⟩, true⟩ none, rfl⟩,
    ⟨.advance ⟨⟨.heap, 1⟩, true⟩ none, rfl⟩, ⟨.advance ⟨⟨.heap, 1⟩, true⟩ none, rfl⟩, ⟨.advance ⟨⟨.heap, 2⟩, true⟩ none, rfl⟩,
    ⟨.log 2 .commit none, rfl⟩, ⟨.advance ⟨⟨.heap, 2⟩, true⟩ none, rfl⟩, ⟨.advance ⟨⟨.heap, 2⟩, true⟩ none, rfl⟩]

theorem twoTables : ∃ disk pool, ((start 2).step (.newPage ⟨.heap, 1⟩ none false)).step (.newPage ⟨.heap, 2⟩ none false) =
    ⟨.new, disk, pool, [⟨1, ⟨.heap, 2, 0⟩⟩, ⟨0, ⟨.heap, 1, 0⟩⟩], fun _ => none, fun _ => false⟩ := by
  obtain ⟨page₁, -, hnew₁⟩ := @newPage_fresh (start 2) 1 0 [1] rfl rfl rfl rfl
  have hnew₂ := @newPage_fresh ((start 2).newPage ⟨.heap, 1⟩ none false).1 2 1 []
  rw [hnew₁] at hnew₂
  obtain ⟨page₂, -, hnew₂⟩ := hnew₂ rfl rfl rfl rfl
  rw [step, step, hnew₁, hnew₂]
  exact ⟨_, _, rfl⟩

theorem twoWriters_run : keepsPositions [⟨⟨.heap, 1⟩, true⟩, ⟨⟨.heap, 2⟩, true⟩] (start 2) twoWriters = true ∧
    ((start 2).runSessions twoWriters).wal.entries.map (fun e => (e.lsn, e.xid)) =
      [(0, 2), (36, 2), (8285, 3), (8321, 2), (8357, 3)] := by
  obtain ⟨disk, pool, hstart⟩ := twoTables
  -- the records
  obtain ⟨w₁, h₁, e₁, l₁⟩ := @append_returns .new 2 .begin [] rfl (by decide) (by decide) (by decide)
  replace e₁ : w₁.endLsn = 36 := e₁
  obtain ⟨image₁, henc₁⟩ := encodePage_empty ⟨.heap, 1, 0⟩ .heap (show w₁.endLsn < 2 ^ 64 by rw [e₁]; decide)
  obtain ⟨body₁, hpay₁, hbody₁⟩ := payload_image ⟨.heap, 1, 0⟩ ⟨image₁, length_encodePage henc₁⟩
  obtain ⟨w₂, h₂, e₂, l₂⟩ := @append_returns w₁ 2 _ _ hpay₁ (by rw [hbody₁]; decide) (by rw [e₁]; decide) (by decide)
  rw [e₁, hbody₁, headerSize] at e₂
  obtain ⟨w₃, h₃, e₃, l₃⟩ := @append_returns w₂ 3 .begin [] rfl (by decide) (by rw [e₂]; decide) (by decide)
  rw [e₂, headerSize, List.length_nil] at e₃
  obtain ⟨w₄, h₄, e₄, l₄⟩ := @append_returns w₃ 2 .commit [] rfl (by decide) (by rw [e₃]; decide) (by decide)
  rw [e₃, headerSize, List.length_nil] at e₄
  obtain ⟨image₂, henc₂⟩ := encodePage_empty ⟨.heap, 2, 0⟩ .heap (show w₄.endLsn < 2 ^ 64 by rw [e₄]; decide)
  obtain ⟨body₂, hpay₂, hbody₂⟩ := payload_image ⟨.heap, 2, 0⟩ ⟨image₂, length_encodePage henc₂⟩
  obtain ⟨w₅, h₅, -, l₅⟩ := @append_returns w₄ 3 _ _ hpay₂ (by rw [hbody₂]; decide) (by rw [e₄]; decide) (by decide)
  -- the states, one call after the other
  obtain ⟨s₁, q₁⟩ :
    ∃ s₁, s₁ = (⟨.new, disk, pool, [⟨1, ⟨.heap, 2, 0⟩⟩, ⟨0, ⟨.heap, 1, 0⟩⟩], fun _ => none, fun _ => false⟩ : PageStore) :=
    ⟨_, rfl⟩
  rw [← q₁] at hstart
  obtain ⟨s₂, q₂, a₂, b₂, v₂, x₂⟩ : ∃ s₂, (s₁.step (.publish ⟨0, ⟨.heap, 1, 0⟩⟩ true 2 .heap [])).step
        (.publish ⟨1, ⟨.heap, 2, 0⟩⟩ true 3 .heap []) = s₂ ∧
      s₂.tasks ⟨⟨.heap, 1⟩, true⟩ = some ⟨⟨0, ⟨.heap, 1, 0⟩⟩, 2, .heap, [], .opened⟩ ∧
      s₂.tasks ⟨⟨.heap, 2⟩, true⟩ = some ⟨⟨1, ⟨.heap, 2, 0⟩⟩, 3, .heap, [], .opened⟩ ∧ s₂.wal = .new ∧
      s₂.hasWrites = fun _ => false := by
    refine ⟨_, rfl, ?_⟩
    rw [q₁]
    simp [step, publish, readerGuards, ownGuards, RelationPage.relation]
  have hne : (⟨⟨.heap, 1⟩, true⟩ : Publisher) ≠ ⟨⟨.heap, 2⟩, true⟩ := by decide
  obtain ⟨s₃, q₃⟩ : ∃ s₃, s₂.step (.advance ⟨⟨.heap, 1⟩, true⟩ none) = s₃ := ⟨_, rfl⟩
  obtain ⟨a₃, o₃, v₃, x₃, -⟩ := q₃ ▸ step_opened a₂ rfl rfl (by rw [x₂]) (by rw [v₂]; exact h₁)
  have b₃ := (o₃ _ hne.symm).trans b₂
  obtain ⟨s₄, q₄⟩ : ∃ s₄, s₃.step (.advance ⟨⟨.heap, 1⟩, true⟩ none) = s₄ := ⟨_, rfl⟩
  obtain ⟨a₄, o₄, v₄, x₄, -⟩ := q₄ ▸ step_begun a₃ rfl (by rw [v₃]; exact henc₁)
  rw [v₃] at a₄ v₄
  have b₄ := (o₄ _ hne.symm).trans b₃
  obtain ⟨s₅, q₅⟩ : ∃ s₅, s₄.step (.advance ⟨⟨.heap, 1⟩, true⟩ none) = s₅ := ⟨_, rfl⟩
  obtain ⟨a₅, o₅, v₅, x₅, -⟩ := q₅ ▸ step_logging a₄ rfl (length_encodePage henc₁) (by rw [v₄]; exact h₂)
  have b₅ := (o₅ _ hne.symm).trans b₄
  obtain ⟨s₆, q₆⟩ : ∃ s₆, s₅.step (.advance ⟨⟨.heap, 2⟩, true⟩ none) = s₆ := ⟨_, rfl⟩
  obtain ⟨b₆, o₆, v₆, -, -⟩ := q₆ ▸ step_opened b₅ rfl rfl (by rw [x₅, x₄, x₃, x₂]; rfl) (by rw [v₅]; exact h₃)
  have a₆ := (o₆ _ hne).trans a₅
  obtain ⟨s₇, q₇⟩ : ∃ s₇, s₆.step (.log 2 .commit none) = s₇ := ⟨_, rfl⟩
  have o₇ : s₇.tasks = s₆.tasks := by rw [← q₇, step]
  have v₇ : s₇.wal = w₄ := by rw [← q₇, step, v₆, h₄]
  have a₇ := (congrFun o₇ _).trans a₆
  have b₇ := (congrFun o₇ _).trans b₆
  obtain ⟨s₈, q₈⟩ : ∃ s₈, s₇.step (.advance ⟨⟨.heap, 2⟩, true⟩ none) = s₈ := ⟨_, rfl⟩
  obtain ⟨b₈, o₈, v₈, -, -⟩ := q₈ ▸ step_begun b₇ rfl (by rw [v₇]; exact henc₂)
  rw [v₇] at b₈ v₈
  have a₈ := (o₈ _ hne).trans a₇
  obtain ⟨s₉, q₉⟩ : ∃ s₉, s₈.step (.advance ⟨⟨.heap, 2⟩, true⟩ none) = s₉ := ⟨_, rfl⟩
  obtain ⟨-, -, v₉, -, -⟩ := q₉ ▸ step_logging b₈ rfl (length_encodePage henc₂) (by rw [v₈]; exact h₅)
  have hrun : keepsPositions [⟨⟨.heap, 1⟩, true⟩, ⟨⟨.heap, 2⟩, true⟩] (start 2) twoWriters = true ∧
      (start 2).runSessions twoWriters = s₉ := by
    refine keepsPositions_cons _ rfl (.inl rfl) (keepsPositions_cons _ hstart (.inl rfl) (keepsPositions_cons _ rfl (.inl rfl)
      (keepsPositions_cons _ q₂ (.inl rfl) (keepsPositions_cons _ q₃ (.inr ?_) (keepsPositions_cons _ q₄ (.inl ?_)
        (keepsPositions_cons _ q₅ (.inr ?_) (keepsPositions_cons _ q₆ (.inr ?_) (keepsPositions_cons _ q₇ (.inr ?_)
          (keepsPositions_cons _ q₈ (.inl ?_) (keepsPositions_cons _ q₉ (.inr ?_) ⟨rfl, rfl⟩))))))))))
    · simp [Call.publisher, b₂, PublicationStage.expected]
    · simp [appends, a₃]
    · simp [Call.publisher, b₄, PublicationStage.expected]
    · simp [Call.publisher, a₅, PublicationStage.expected]
    · simp [Call.publisher, a₆, b₆, PublicationStage.expected]
    · simp [appends, b₇]
    · simp [Call.publisher, a₈, PublicationStage.expected]
  have hwal : ((start 2).runSessions twoWriters).wal = w₅ := by rw [hrun.2, v₉]
  refine ⟨hrun.1, ?_⟩
  simp [hwal, l₅, l₄, l₃, l₂, l₁, e₄, e₃, e₂, e₁, WalManager.new]

theorem positions_kept_twoWriters : (start 2).KeepsPositionsAlong twoWriters ∧
    ((start 2).runSessions twoWriters).wal.entries.map (fun e => (e.lsn, e.xid)) =
      [(0, 2), (36, 2), (8285, 3), (8321, 2), (8357, 3)] ∧
    (∀ publisher fault, ¬((start 2).runSessions twoWriters).PositionChanged publisher fault) ∧
      ∀ e ∈ ((start 2).runSessions twoWriters).wal.entries, InPlace e := by
  have h : (start 2).KeepsPositionsAlong twoWriters :=
    keepsPositions_along twoWriters (fun _ _ => rfl) (by decide) twoWriters_run.1
  exact ⟨h, twoWriters_run.2, positions_kept 2 twoWriters h⟩

end PageStore
end MiniPostgres
