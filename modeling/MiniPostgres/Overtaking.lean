import MiniPostgres.Positions
/-!
# Overtaking — two publications of one page

`_set_version` of VACUUM's `prune_chain` publishes without the lock of the table, beside an INSERT that has the lock and, under
EXPLAIN ANALYZE, no lease.  Whatever the order of their steps, a page in a frame or a file stands in the log at its LSN.  The one
that has logged its image first and comes to its frame last finds a higher LSN there, and raises with its image in the log.
-/
namespace MiniPostgres

/-- The LSN of an image that is in the log and whose frame is not marked dirty yet. -/
def PublicationStage.pending : PublicationStage → Option Nat
  | .replacing lsn _ => some lsn
  | .marking lsn     => some lsn
  | _                => none

namespace PageStore

/-- The `replace_bytes` and `mark_dirty` that publications have come to return. -/
def Installs (s : PageStore) : Prop :=
  ∀ publisher t, s.tasks publisher = some t →
    (∀ lsn encoded, t.stage = .replacing lsn encoded → ∃ pool, s.pool.guardReplaceBytes t.guard encoded = .ok pool) ∧
    ∀ lsn, t.stage = .marking lsn → ∃ pool, s.pool.guardMarkDirty t.guard lsn = .ok pool

/-- In every state of the run. -/
def InstallsAlong (s : PageStore) : List Call → Prop
  | []         => s.Installs
  | c :: calls => s.Installs ∧ (s.step c).InstallsAlong calls

/-- The call installs a page past a logged image of it that another publication has still to install or to mark. -/
def Overtakes (s : PageStore) (c : Call) : Prop :=
  ∃ publisher t lsn encoded, c.publisher = some publisher ∧ s.tasks publisher = some t ∧ t.stage = .replacing lsn encoded ∧
    ∃ other u pending, other ≠ publisher ∧ s.tasks other = some u ∧ u.guard.key = t.guard.key ∧
      u.stage.pending = some pending ∧ pending < lsn

def NoneOvertaken (s : PageStore) : List Call → Prop
  | []         => True
  | c :: calls => ¬s.Overtakes c ∧ (s.step c).NoneOvertaken calls

/-- No frame is past an image that is still to come to it. -/
def Current (s : PageStore) : Prop :=
  ∀ publisher t lsn, s.tasks publisher = some t → t.stage.pending = some lsn → (s.pool.frames t.guard.frameId).pageLsn ≤ lsn

variable {s : PageStore} {publisher : Publisher} {t : Publication}

theorem returns_iff {c : Prop} [Decidable c] {cls : ErrorClass} {message : String} {pool : BufferPool} :
    (∃ p, (if c then raise cls message else .ok pool : Result BufferPool) = .ok p) ↔ ¬c := by
  by_cases hc : c
  · rw [if_pos hc]
    exact ⟨fun ⟨p, hp⟩ => absurd hp raise_ne_ok, fun hn => absurd hc hn⟩
  · rw [if_neg hc]
    exact ⟨fun _ => hc, fun _ => ⟨pool, rfl⟩⟩

/-- **The LSN of the frame decides** whether a publication's image is installed. -/
theorem installs_iff (h : Inv s) : s.Installs ↔ s.Current := by
  constructor
  · intro hi publisher t lsn ht hp
    obtain ⟨hreplace, hmark⟩ := hi publisher t ht
    cases hs : t.stage with
    | replacing lsn' encoded =>
      rw [hs] at hp
      cases hp
      have hok := hreplace lsn encoded hs
      rw [h.replaces ht hs, returns_iff] at hok
      exact Nat.le_of_not_lt hok
    | marking lsn' =>
      rw [hs] at hp
      cases hp
      have hok := hmark lsn hs
      rw [h.marks ht hs, returns_iff] at hok
      exact Nat.le_of_not_lt hok
    | _ =>
      rw [hs] at hp
      cases hp
  · intro hc publisher t ht
    refine ⟨fun lsn encoded hs => ?_, fun lsn hs => ?_⟩
    · rw [h.replaces ht hs, returns_iff]
      exact Nat.not_lt.2 (hc publisher t lsn ht (by rw [hs]; rfl))
    · rw [h.marks ht hs, returns_iff]
      exact Nat.not_lt.2 (hc publisher t lsn ht (by rw [hs]; rfl))

/-! ## What a call leaves of the frames and the publications -/

theorem Inv.fill_page (h : Inv s) (i : Nat) (key : RelationPage) (fault : Bool) (j : Nat) :
    (s.fill i key fault).1.pool.page j = s.pool.page j := (h.fill i key fault).1.pages j

theorem Inv.fetchPage_page (h : Inv s) (key : RelationPage) (fault : Bool) {g : PageGuard} (hg : g ∈ s.guards) :
    (s.fetchPage key fault).1.pool.page g.frameId = s.pool.page g.frameId := by
  unfold PageStore.fetchPage
  split
  · simp only [BufferPool.page, BufferPool.pin, BufferPool.setFrame, Function.update_apply]
    split
    · rename_i he; rw [he]
    · rfl
  · obtain ⟨pool, choice, hsel, hheld, hframes, -, hchoice⟩ := h.pool.selectFrame
    have hpage : ∀ i, pool.page i = s.pool.page i := fun i => by simp only [BufferPool.page, hframes]
    have hinv : Inv { s with pool := pool } := h.repooled hheld hpage h.owned
    rw [hsel]
    cases choice with
    | none => exact hpage _
    | some chosen =>
      obtain ⟨i, free⟩ := chosen
      obtain ⟨hpin, -, -⟩ := hchoice i free rfl
      have hfill := hinv.fill_page i key fault
      simp only
      split
      · rename_i s' e heq
        rw [heq] at hfill
        have hback : (s'.pool.giveBack i free).page g.frameId = s'.pool.page g.frameId := by
          unfold BufferPool.giveBack
          split <;> rfl
        exact hback.trans ((hfill _).trans (hpage _))
      · rename_i s' bytes lsn heq
        rw [heq] at hfill
        have hne := h.pool.unguarded hpin hg
        have hload : (s'.pool.load i key bytes lsn).page g.frameId = s'.pool.page g.frameId := by
          simp only [BufferPool.page, BufferPool.load, Function.update_of_ne hne]
        exact hload.trans ((hfill _).trans (hpage _))

theorem Inv.flushFrames_page (fault : Nat → Bool) : ∀ (frames : List Nat) {s : PageStore}, Inv s → ∀ j,
    (PageStore.flushFrames fault frames s).1.pool.page j = s.pool.page j
  | [], _, _, _ => rfl
  | i :: rest, s, h, j => by
    have hfl := h.flushFrame i (fault i)
    unfold PageStore.flushFrames
    split
    · rename_i s' e heq
      rw [heq] at hfl
      exact hfl.pages j
    · rename_i s' u heq
      rw [heq] at hfl
      exact (flushFrames_page fault rest hfl.inv j).trans (hfl.pages j)

/-- **Only a publication changes a page under a guard.** -/
theorem Inv.step_page (h : Inv s) {c : Call} (hc : c.publisher = none) {g : PageGuard} (hg : g ∈ s.guards) :
    (s.step c).pool.page g.frameId = s.pool.page g.frameId := by
  cases c with
  | fetch key fault => exact h.fetchPage_page key fault hg
  | newPage relation kind fault =>
    simp only [step, PageStore.newPage]
    split
    · rfl
    · rename_i disk key hall
      exact (h.allocated hall).fetchPage_page key fault hg
  | release guard =>
    simp only [step, PageStore.release]
    split
    · rename_i hmem
      obtain ⟨pool, hrel, -, hpage⟩ := h.pool.releaseGuard (List.diff_subset _ _ hmem)
      rw [hrel]
      exact hpage _
    · rfl
  | flushPage key fault =>
    simp only [step, PageStore.flushPage]
    split
    · rfl
    · exact (h.flushFrame _ fault).pages _
  | flushAll fault => exact h.flushFrames_page fault _ _
  | publish guard locked xid kind body =>
    simp only [step, PageStore.publish]
    split <;> rfl
  | advance publisher fault => cases hc
  | log xid record fault => rfl
  | flushWal required fault => rfl

theorem frameLsn_eq {p q : BufferPool} {i : Nat} (h : p.page i = q.page i) : (p.frames i).pageLsn = (q.frames i).pageLsn :=
  congrArg (fun page => page.2.2) h

theorem step_pending {c : Call} (hc : c.publisher = none) {p : Publisher} {u : Publication} (hu : (s.step c).tasks p = some u)
    {lsn : Nat} (hp : u.stage.pending = some lsn) : s.tasks p = some u := by
  by_cases htask : c.task = some p
  · cases c with
    | publish guard locked xid kind body =>
      cases htask
      simp only [step, publish] at hu
      split at hu
      · simp only [Function.update_self] at hu
        cases hu
        cases hp
      · exact hu
    | advance publisher fault => cases hc
    | _ => cases htask
  · rw [step_tasks htask] at hu
    exact hu

theorem current_other (h : Inv s) (hs : s.Current) {c : Call} (hc : c.publisher = none) : (s.step c).Current := by
  intro p u lsn hu hp
  have hold := step_pending hc hu hp
  rw [frameLsn_eq (h.step_page hc (h.guard hold))]
  exact hs p u lsn hold hp

/-! ## What a publication's step leaves of the others -/

/-- Under the LSNs of the frames as they are, only the publication that moves has to be looked at. -/
theorem current_moveTo (hs : s.Current) {s' : PageStore} {stage : PublicationStage} (htasks : s'.tasks = s.tasks)
    (hlsn : ∀ i, (s'.pool.frames i).pageLsn = (s.pool.frames i).pageLsn)
    (hnew : ∀ lsn, stage.pending = some lsn → (s.pool.frames t.guard.frameId).pageLsn ≤ lsn) :
    (s'.moveTo publisher t stage).Current := by
  intro p u lsn hu hp
  simp only [moveTo, htasks, Function.update_apply] at hu
  simp only [moveTo, hlsn]
  split at hu
  · cases hu
    exact hnew lsn hp
  · exact hs p u lsn hu hp

theorem current_quiet (hs : s.Current) {s' : PageStore} {stage : PublicationStage} (htasks : s'.tasks = s.tasks)
    (hpool : s'.pool = s.pool) (hnone : stage.pending = none) : (s'.moveTo publisher t stage).Current := by
  refine current_moveTo hs htasks (fun i => by rw [hpool]) (fun lsn hp => ?_)
  rw [hnone] at hp
  cases hp

/-- No image of an index page has an LSN. -/
theorem current_advanceOpened (h : Inv s) (hs : s.Current) (ht : s.tasks publisher = some t) (fault : Option Nat) :
    (s.advanceOpened publisher t fault).Current := by
  have hback := h.frames _ _ (h.pool.held _ (h.guard ht))
  unfold advanceOpened
  split
  · split
    · exact current_quiet hs rfl rfl rfl
    · split
      · exact current_quiet hs rfl rfl rfl
      · exact current_quiet hs rfl rfl rfl
  · rename_i hfork
    split
    · exact current_quiet hs rfl rfl rfl
    · refine current_moveTo hs rfl (fun _ => rfl) (fun lsn hp => ?_)
      cases hp
      refine Nat.le_of_not_lt (fun hpos => ?_)
      cases hfork.symm.trans (hback.heap hpos)

/-- The record has got the LSN that is in the image, and no frame is past the end of the log. -/
theorem current_advanceLogging (h : Inv s) (hs : s.Current) (ht : s.tasks publisher = some t) (pageLsn : Nat)
    (encoded : ByteString) (fault : Option Nat) : (s.advanceLogging publisher t pageLsn encoded fault).Current := by
  have hback := h.frames _ _ (h.pool.held _ (h.guard ht))
  unfold advanceLogging
  split
  · rename_i hlen
    obtain ⟨-, -, hput⟩ :=
      h.log.append t.xid (.heapPageImages [(t.guard.key, ⟨encoded, hlen⟩)] (List.cons_ne_nil _ _)) fault
    split
    · exact current_quiet hs rfl rfl rfl
    · rename_i w actual hw
      rw [hw] at hput
      split
      · exact current_quiet hs rfl rfl rfl
      · rename_i hactual
        refine current_moveTo hs rfl (fun _ => rfl) (fun lsn hp => ?_)
        cases hp
        rw [← not_not.1 hactual, (hput actual rfl).1]
        exact hback.lsn_le h.log
  · exact current_quiet hs rfl rfl rfl

/-- **A publication that does not install its page** takes no frame past the others' images. -/
theorem current_advance (h : Inv s) (hs : s.Current) (ht : s.tasks publisher = some t) (fault : Option Nat)
    (hstage : ∀ lsn encoded, t.stage ≠ .replacing lsn encoded) : (s.advance publisher t fault).Current := by
  unfold advance
  split
  · exact current_advanceOpened h hs ht fault
  · unfold advanceBegun
    split
    · exact current_quiet hs rfl rfl rfl
    · exact current_quiet hs rfl rfl rfl
  · exact current_advanceLogging h hs ht _ _ fault
  · rename_i lsn encoded hreplace
    exact absurd hreplace (hstage lsn encoded)
  · rename_i lsn hmark
    rw [h.marks ht hmark]
    by_cases hlt : lsn < (s.pool.frames t.guard.frameId).pageLsn
    · rw [if_pos hlt]
      exact current_quiet hs rfl rfl rfl
    · rw [if_neg hlt]
      refine current_moveTo hs rfl (fun i => ?_) (fun lsn hp => by cases hp)
      simp only [BufferPool.setFrame, Function.update_apply]
      split
      · rename_i hi; rw [hi]
      · rfl
  · obtain ⟨pool, hrel, -, hpage⟩ := h.pool.releaseGuard (h.guard ht)
    rw [hrel]
    intro p u lsn hu hp
    simp only at hu
    rw [frameLsn_eq (hpage _)]
    exact hs p u lsn (mem_of_released hu) hp

theorem advance_replacing (h : Inv s) (ht : s.tasks publisher = some t) (fault : Option Nat) {lsn : Nat} {encoded : ByteString}
    (hstage : t.stage = .replacing lsn encoded) (hle : (s.pool.frames t.guard.frameId).pageLsn ≤ lsn) :
    ∃ f, f.pageLsn = lsn ∧ s.advance publisher t fault =
      ({ s with pool := s.pool.setFrame t.guard.frameId f } : PageStore).moveTo publisher t (.marking lsn) := by
  refine ⟨{ s.pool.frames t.guard.frameId with pageBytes := encoded, pageLsn := lsn }, rfl, ?_⟩
  simp only [advance, hstage, h.replaces ht hstage, if_neg (Nat.not_lt.2 hle)]

/-- **A publication that installs its page** leaves the others theirs unless it overtakes one. -/
theorem current_replace (h : Inv s) (hs : s.Current) (ht : s.tasks publisher = some t) (fault : Option Nat) {lsn : Nat}
    {encoded : ByteString} (hstage : t.stage = .replacing lsn encoded) :
    (s.advance publisher t fault).Current ↔ ¬s.Overtakes (.advance publisher fault) := by
  have hle : (s.pool.frames t.guard.frameId).pageLsn ≤ lsn := hs publisher t lsn ht (by rw [hstage]; rfl)
  obtain ⟨f, hlsn, hnext⟩ := advance_replacing h ht fault hstage hle
  have hkey : ∀ {p u}, s.tasks p = some u → (u.guard.frameId = t.guard.frameId ↔ u.guard.key = t.guard.key) :=
    fun hu => h.pool.sameFrame (h.guard hu) (h.guard ht)
  rw [hnext]
  constructor
  · rintro hcur ⟨p, t', lsn', encoded', hp, ht', hstage', other, u, q, hne, hu, hsame, hq, hlt⟩
    cases hp
    cases ht.symm.trans ht'
    cases hstage.symm.trans hstage'
    have hu' : (({ s with pool := s.pool.setFrame t.guard.frameId f } : PageStore).moveTo publisher t
      (.marking lsn)).tasks other =
        some u := by
      simp only [moveTo, Function.update_of_ne hne]
      exact hu
    have hfail := hcur other u q hu' hq
    simp only [moveTo, (hkey hu).2 hsame, BufferPool.setFrame, Function.update_self, hlsn] at hfail
    exact absurd hlt (Nat.not_lt.2 hfail)
  · intro hnot p u q hu hq
    simp only [moveTo, Function.update_apply] at hu
    simp only [moveTo, BufferPool.setFrame, Function.update_apply]
    split at hu
    · cases hu
      cases hq
      rw [if_pos rfl, hlsn]
    · rename_i hne
      split
      · rename_i hframe
        rw [hlsn]
        refine Nat.le_of_not_lt (fun hlt => hnot ?_)
        exact ⟨publisher, t, lsn, encoded, rfl, ht, hstage, p, u, q, hne, hu, (hkey hu).1 hframe, hq, hlt⟩
      · exact hs p u q hu hq

/-- **One call keeps the frames behind the logged images** exactly if it overtakes none. -/
theorem current_step (h : Inv s) (hs : s.Current) (c : Call) : (s.step c).Current ↔ ¬s.Overtakes c := by
  cases hc : c.publisher with
  | none =>
    refine iff_of_true (current_other h hs hc) ?_
    rintro ⟨p, t, lsn, encoded, hp, -⟩
    cases hc.symm.trans hp
  | some publisher =>
    cases c with
    | advance p fault =>
      cases hc
      simp only [step]
      cases ht : s.tasks publisher with
      | none =>
        refine iff_of_true hs ?_
        rintro ⟨p, t, lsn, encoded, hp, ht', -⟩
        cases hp
        cases ht.symm.trans ht'
      | some t =>
        by_cases hstage : ∃ lsn encoded, t.stage = .replacing lsn encoded
        · obtain ⟨lsn, encoded, hstage⟩ := hstage
          exact current_replace h hs ht fault hstage
        · refine iff_of_true (current_advance h hs ht fault (fun lsn encoded he => hstage ⟨lsn, encoded, he⟩)) ?_
          rintro ⟨p, t', lsn, encoded, hp, ht', he, -⟩
          cases hp
          cases ht.symm.trans ht'
          exact hstage ⟨lsn, encoded, he⟩
    | _ => cases hc

theorem InstallsAlong.now {calls : List Call} (h : s.InstallsAlong calls) : s.Installs := by
  cases calls with
  | nil => exact h
  | cons c calls => exact h.1

theorem installsAlong_iff : ∀ (calls : List Call) {s : PageStore}, Inv s → s.Current →
    (s.InstallsAlong calls ↔ s.NoneOvertaken calls)
  | [], _, h, hs => iff_of_true ((installs_iff h).2 hs) trivial
  | c :: calls, s, h, hs => by
    have hstep := current_step h hs c
    have hinv := inv_step h c
    constructor
    · rintro ⟨-, hrest⟩
      have hcur := (installs_iff hinv).1 hrest.now
      exact ⟨hstep.1 hcur, (installsAlong_iff calls hinv hcur).1 hrest⟩
    · rintro ⟨hnot, hrest⟩
      exact ⟨(installs_iff h).2 hs, (installsAlong_iff calls hinv (hstep.2 hnot)).2 hrest⟩

/-! ## The pages and their images -/

/-- An image record of the log, with its bytes in the file. -/
def HasImage (w : WalManager) (e : DecodedWalRecord) (lsn : Nat) (key : RelationPage) (bytes : ByteString) : Prop :=
  e ∈ w.entries ∧ ImageAt e lsn key bytes ∧ lsn < w.endLsn ∧
    encodeRecord e.lsn e.xid e.record = .ok (slice w.file e.lsn (e.endLsn - e.lsn))

theorem hasImage_of {w : WalManager} (ho : w.Ordered) {e : DecodedWalRecord} (he : e ∈ w.entries) {lsn : Nat}
    {key : RelationPage} {bytes : ByteString} (hi : ImageAt e lsn key bytes) : HasImage w e lsn key bytes := by
  have hends := ho.ends e he
  refine ⟨he, hi, by rw [← hi.1]; omega, ?_⟩
  rw [ho.logged.stream.encoded e he, Nat.sub_zero, slice_take (by omega)]

/-- **Every page stands in the log at its LSN.**  In every state that publications, evictions, page flushes and checkpoints
reach, in any order of their steps: a heap page of a frame or of a file decodes; if its LSN is not 0 then the record that starts
there is its image, byte for byte, and ends inside the log, for a page of a file inside the flushed part.  The `replace_bytes` and
`mark_dirty` of the run return exactly if no publication overtakes another. -/
theorem heap_pages_backed (frameCount : Nat) (calls : List Call) :
    let s := (start frameCount).run calls
    (∀ i key, (s.pool.frames i).key = some key → key.fork = .heap → ∃ page,
      decodePage key (s.pool.frames i).pageBytes = .ok page ∧ page.pageLsn = (s.pool.frames i).pageLsn ∧
        (0 < page.pageLsn → ∃ e, HasImage s.wal e page.pageLsn key (s.pool.frames i).pageBytes)) ∧
    (∀ key bytes, s.disk.pageAt key = some bytes → key.fork = .heap → ∃ page, decodePage key bytes = .ok page ∧
        (0 < page.pageLsn → ∃ e, HasImage s.wal e page.pageLsn key bytes ∧ e.endLsn ≤ s.wal.flushedLsn)) ∧
    ((start frameCount).InstallsAlong calls ↔ (start frameCount).NoneOvertaken calls) := by
  intro s
  have h : Inv s := inv_run frameCount calls
  refine ⟨fun i key hk _ => ?_, fun key bytes hb _ => ?_,
    installsAlong_iff calls (inv_start frameCount) (fun _ _ _ ht => by cases ht)⟩
  · have hback := h.frames i key hk
    obtain ⟨page, hdec, hlsn, -⟩ := hback.reencode
    refine ⟨page, hdec, hlsn, fun hpos => ?_⟩
    rw [hlsn] at hpos ⊢
    obtain ⟨e, he, hi⟩ := hback.logged hpos
    exact ⟨e, hasImage_of h.log he hi⟩
  · obtain ⟨lsn, hback, hdur⟩ := h.disk key bytes hb
    obtain ⟨page, hdec, hlsn, -⟩ := hback.reencode
    refine ⟨page, hdec, fun hpos => ?_⟩
    rw [hlsn] at hpos ⊢
    obtain ⟨e, he, hi, hf⟩ := hdur hpos
    exact ⟨e, hasImage_of h.log he hi, hf⟩

/-! ## Under the lock, and beside it -/

/-- Every publication of the run has the lock of its table. -/
def Call.underLock : Call → Bool
  | .publish _ locked _ _ _ => locked
  | _                       => true

/-- **The lock of the table keeps the order**: where `prune_chain` publishes under it too, nothing is overtaken. -/
theorem noneOvertaken_underLock : ∀ (calls : List Call) {s : PageStore}, Inv s → (∀ relation, s.tasks ⟨relation, false⟩ = none) →
    (∀ c ∈ calls, c.underLock = true) → s.NoneOvertaken calls
  | [], _, _, _, _ => trivial
  | c :: calls, s, h, hs, hc => by
    refine ⟨?_, noneOvertaken_underLock calls (inv_step h c) (fun relation => ?_) (fun d hd => hc d (List.mem_cons_of_mem _ hd))⟩
    · rintro ⟨p, t, lsn, encoded, -, ht, -, q, u, pending, hne, hu, hkey, -⟩
      have hlocked : ∀ {p u}, s.tasks p = some u → p = ⟨p.relation, true⟩ := by
        rintro ⟨relation, locked⟩ u hu
        cases locked with
        | true  => rfl
        | false => cases (hs relation).symm.trans hu
      apply hne
      rw [hlocked hu, hlocked ht, ← (h.tasks q u hu).relation, ← (h.tasks p t ht).relation, hkey]
    · by_cases htask : c.task = some ⟨relation, false⟩
      · have hlock := hc c List.mem_cons_self
        cases c with
        | publish guard locked xid kind body =>
          simp only [Call.task, Option.some.injEq, Publisher.mk.injEq] at htask
          rw [Call.underLock, htask.2] at hlock
          cases hlock
        | advance publisher fault =>
          cases htask
          simp only [step, hs]
        | _ => cases htask
      · rw [step_tasks htask]
        exact hs relation

/-- **A publication that another overtakes raises** when it comes to the frame, with its image in the log. -/
theorem overtaken (h : Inv s) (ht : s.tasks publisher = some t) {lsn : Nat} {encoded : ByteString}
    (hs : t.stage = .replacing lsn encoded) {other : Publisher} {u : Publication} (hu : s.tasks other = some u) {lsn' : Nat}
    {encoded' : ByteString} (hs' : u.stage = .replacing lsn' encoded') (hne : publisher ≠ other)
    (hframe : t.guard.frameId = u.guard.frameId) (hle : (s.pool.frames u.guard.frameId).pageLsn ≤ lsn') (hlt : lsn < lsn')
    {fault : Option Nat} {s' : PageStore} (hstep : s' = s.step (.advance other fault)) :
    s'.tasks publisher = some t ∧ s'.wal = s.wal ∧
      s'.pool.guardReplaceBytes t.guard encoded = raise .valueError "page replacement cannot decrease its LSN" := by
  have h' := inv_step h (.advance other fault)
  rw [← hstep] at h'
  obtain ⟨f, hlsn, hnext⟩ := advance_replacing h hu fault hs' hle
  have ht' : s'.tasks publisher = some t := by
    rw [hstep]
    exact (step_tasks (c := .advance other fault) (fun he => hne (Option.some.inj he).symm)).trans ht
  have hraised : (s'.pool.frames t.guard.frameId).pageLsn = lsn' := by
    simp only [hstep, step, hu, hnext, moveTo, BufferPool.setFrame, hframe, Function.update_self, hlsn]
  refine ⟨ht', by simp only [hstep, step, hu, hnext, moveTo], ?_⟩
  rw [h'.replaces ht' hs, if_pos (by rw [hraised]; exact hlt)]

/-- The page of the first table has two guards.  `prune_chain` without the lock and an INSERT with it both begin, and log their
images one after the other. -/
def bothLogged : List Call :=
  [.newPage firstTable none false, .fetch ⟨.heap, 1, 0⟩ false, .publish ⟨0, ⟨.heap, 1, 0⟩⟩ false 2 .heap [],
    .publish ⟨0, ⟨.heap, 1, 0⟩⟩ true 3 .heap [], .advance ⟨firstTable, false⟩ none, .advance ⟨firstTable, true⟩ none,
    .advance ⟨firstTable, false⟩ none, .advance ⟨firstTable, false⟩ none, .advance ⟨firstTable, true⟩ none,
    .advance ⟨firstTable, true⟩ none]

/-- The INSERT comes to the frame first. -/
def insertInstalled : List Call := bothLogged ++ [.advance ⟨firstTable, true⟩ none]

theorem run_concat (s : PageStore) (calls : List Call) (c : Call) : s.run (calls ++ [c]) = (s.run calls).step c :=
  List.foldl_append

theorem run_step {s₁ : PageStore} {c : Call} (h : s.step c = s₁) (calls : List Call) : s.run (c :: calls) = s₁.run calls := by
  rw [← h]
  rfl

theorem twoGuards : ∃ disk pool, ((start 1).step (.newPage firstTable none false)).step (.fetch ⟨.heap, 1, 0⟩ false) =
    ⟨.new, disk, pool, [⟨0, ⟨.heap, 1, 0⟩⟩, ⟨0, ⟨.heap, 1, 0⟩⟩], fun _ => none, fun _ => false⟩ ∧
      (pool.frames 0).pageLsn = 0 := by
  obtain ⟨page, -, hnew⟩ := @newPage_fresh (start 1) 1 0 [] rfl rfl rfl rfl
  have hfirst : firstTable = ⟨.heap, 1⟩ := rfl
  rw [step, step, hfirst, hnew]
  simp only [fetchPage, BufferPool.load, Function.update_self]
  exact ⟨_, _, rfl, rfl⟩

theorem bothLogged_run : ∃ s image₁ image₂, (start 1).run bothLogged = s ∧
    s.tasks ⟨firstTable, false⟩ = some ⟨⟨0, ⟨.heap, 1, 0⟩⟩, 2, .heap, [], .replacing 72 image₁⟩ ∧
    s.tasks ⟨firstTable, true⟩ = some ⟨⟨0, ⟨.heap, 1, 0⟩⟩, 3, .heap, [], .replacing 8321 image₂⟩ ∧
    (s.pool.frames 0).pageLsn = 0 ∧ ∃ e ∈ s.wal.entries, ImageAt e 72 ⟨.heap, 1, 0⟩ image₁ := by
  obtain ⟨disk, pool, hstart, hzero⟩ := twoGuards
  -- the records
  obtain ⟨w₁, h₁, e₁, -⟩ := @append_returns .new 2 .begin [] rfl (by decide) (by decide) (by decide)
  replace e₁ : w₁.endLsn = 36 := e₁
  obtain ⟨w₂, h₂, e₂, -⟩ := @append_returns w₁ 3 .begin [] rfl (by decide) (by rw [e₁]; decide) (by decide)
  replace e₂ : w₂.endLsn = 72 := by rw [e₂, e₁, headerSize, List.length_nil]
  obtain ⟨image₁, henc₁⟩ := encodePage_empty ⟨.heap, 1, 0⟩ .heap (show w₂.endLsn < 2 ^ 64 by rw [e₂]; decide)
  obtain ⟨body₁, hpay₁, hbody₁⟩ := payload_image ⟨.heap, 1, 0⟩ ⟨image₁, length_encodePage henc₁⟩
  obtain ⟨w₃, h₃, e₃, l₃⟩ := @append_returns w₂ 2 _ _ hpay₁ (by rw [hbody₁]; decide) (by rw [e₂]; decide) (by decide)
  replace e₃ : w₃.endLsn = 8321 := by rw [e₃, e₂, hbody₁, headerSize]
  obtain ⟨image₂, henc₂⟩ := encodePage_empty ⟨.heap, 1, 0⟩ .heap (show w₃.endLsn < 2 ^ 64 by rw [e₃]; decide)
  obtain ⟨body₂, hpay₂, hbody₂⟩ := payload_image ⟨.heap, 1, 0⟩ ⟨image₂, length_encodePage henc₂⟩
  obtain ⟨w₄, h₄, -, l₄⟩ := @append_returns w₃ 3 _ _ hpay₂ (by rw [hbody₂]; decide) (by rw [e₃]; decide) (by decide)
  -- the states, one call after the other
  have hne : (⟨firstTable, false⟩ : Publisher) ≠ ⟨firstTable, true⟩ := by decide
  obtain ⟨s₁, q₁⟩ :
    ∃ s₁, s₁ = (⟨.new, disk, pool, [⟨0, ⟨.heap, 1, 0⟩⟩, ⟨0, ⟨.heap, 1, 0⟩⟩], fun _ => none, fun _ => false⟩ : PageStore) :=
    ⟨_, rfl⟩
  rw [← q₁] at hstart
  obtain ⟨s₂, q₂, a₂, b₂, v₂, x₂, p₂⟩ : ∃ s₂, (s₁.step (.publish ⟨0, ⟨.heap, 1, 0⟩⟩ false 2 .heap [])).step
        (.publish ⟨0, ⟨.heap, 1, 0⟩⟩ true 3 .heap []) = s₂ ∧
      s₂.tasks ⟨firstTable, false⟩ = some ⟨⟨0, ⟨.heap, 1, 0⟩⟩, 2, .heap, [], .opened⟩ ∧
      s₂.tasks ⟨firstTable, true⟩ = some ⟨⟨0, ⟨.heap, 1, 0⟩⟩, 3, .heap, [], .opened⟩ ∧ s₂.wal = .new ∧
      (s₂.hasWrites = fun _ => false) ∧ s₂.pool = pool := by
    refine ⟨_, rfl, ?_⟩
    rw [q₁]
    simp [step, publish, readerGuards, ownGuards, RelationPage.relation, firstTable]
  obtain ⟨s₃, q₃⟩ : ∃ s₃, s₂.step (.advance ⟨firstTable, false⟩ none) = s₃ := ⟨_, rfl⟩
  obtain ⟨a₃, o₃, v₃, x₃, p₃⟩ := q₃ ▸ step_opened a₂ rfl rfl (by rw [x₂]) (by rw [v₂]; exact h₁)
  obtain ⟨s₄, q₄⟩ : ∃ s₄, s₃.step (.advance ⟨firstTable, true⟩ none) = s₄ := ⟨_, rfl⟩
  obtain ⟨b₄, o₄, v₄, -, p₄⟩ := q₄ ▸ step_opened ((o₃ _ hne.symm).trans b₂) rfl rfl (by rw [x₃, x₂]; rfl) (by rw [v₃]; exact h₂)
  obtain ⟨s₅, q₅⟩ : ∃ s₅, s₄.step (.advance ⟨firstTable, false⟩ none) = s₅ := ⟨_, rfl⟩
  obtain ⟨a₅, o₅, v₅, -, p₅⟩ := q₅ ▸ step_begun ((o₄ _ hne).trans a₃) rfl (by rw [v₄]; exact henc₁)
  rw [v₄] at a₅ v₅
  obtain ⟨s₆, q₆⟩ : ∃ s₆, s₅.step (.advance ⟨firstTable, false⟩ none) = s₆ := ⟨_, rfl⟩
  obtain ⟨a₆, o₆, v₆, -, p₆⟩ := q₆ ▸ step_logging a₅ rfl (length_encodePage henc₁) (by rw [v₅]; exact h₃)
  obtain ⟨s₇, q₇⟩ : ∃ s₇, s₆.step (.advance ⟨firstTable, true⟩ none) = s₇ := ⟨_, rfl⟩
  obtain ⟨b₇, o₇, v₇, -, p₇⟩ := q₇ ▸ step_begun ((o₆ _ hne.symm).trans ((o₅ _ hne.symm).trans b₄)) rfl (by rw [v₆]; exact henc₂)
  rw [v₆] at b₇ v₇
  obtain ⟨s₈, q₈⟩ : ∃ s₈, s₇.step (.advance ⟨firstTable, true⟩ none) = s₈ := ⟨_, rfl⟩
  obtain ⟨b₈, o₈, v₈, -, p₈⟩ := q₈ ▸ step_logging b₇ rfl (length_encodePage henc₂) (by rw [v₇]; exact h₄)
  have a₈ := (o₈ _ hne).trans ((o₇ _ hne).trans a₆)
  have hrun : (start 1).run bothLogged = s₈ :=
    (run_step rfl _).trans ((run_step hstart _).trans ((run_step rfl _).trans ((run_step q₂ _).trans ((run_step q₃ _).trans
      ((run_step q₄ _).trans ((run_step q₅ _).trans ((run_step q₆ _).trans ((run_step q₇ _).trans (run_step q₈ _)))))))))
  rw [e₂] at a₈
  rw [e₃] at b₈
  refine ⟨s₈, image₁, image₂, hrun, a₈, b₈, ?_, ⟨w₂.endLsn, w₃.endLsn, 2,
    .heapPageImages [(⟨.heap, 1, 0⟩, ⟨image₁, length_encodePage henc₁⟩)]
    (List.cons_ne_nil _ _)⟩, ?_, e₂, _, _, rfl, rfl⟩
  · rw [p₈, p₇, p₆, p₅, p₄, p₃, p₂]
    exact hzero
  · rw [v₈, l₄, l₃]
    exact List.mem_append_left _ (List.mem_append_right _ (List.mem_singleton_self _))

theorem insertInstalled_run :
    (start 1).run insertInstalled = ((start 1).run bothLogged).step (.advance ⟨firstTable, true⟩ none) := by
  rw [insertInstalled, run_concat]

/-- **`prune_chain` is overtaken**: its image is in the log, and its `replace_bytes` raises. -/
theorem prune_overtaken : ∃ t encoded, ((start 1).run insertInstalled).tasks ⟨firstTable, false⟩ = some t ∧ t.xid = 2 ∧
    t.stage = .replacing 72 encoded ∧ (∃ e ∈ ((start 1).run insertInstalled).wal.entries, ImageAt e 72 ⟨.heap, 1, 0⟩ encoded) ∧
      ((start 1).run insertInstalled).pool.guardReplaceBytes t.guard encoded =
        raise .valueError "page replacement cannot decrease its LSN" := by
  obtain ⟨s, image₁, image₂, hs, ha, hb, hzero, himage⟩ := bothLogged_run
  have hinv := inv_run 1 bothLogged
  have hrun := insertInstalled_run
  rw [hs] at hinv hrun
  rw [hrun]
  obtain ⟨ha', hwal, hraise⟩ := overtaken hinv ha rfl hb rfl (by decide) rfl (by rw [hzero]; exact Nat.zero_le _) (by decide) rfl
  rw [← hwal] at himage
  exact ⟨_, image₁, ha', rfl, rfl, himage, hraise⟩

end PageStore
end MiniPostgres
