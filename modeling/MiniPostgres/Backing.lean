import MiniPostgres.BufferPool
/-!
# Backing — every page stands in the log at its LSN

`BufferPool` over the files and the log, and the publications of `HeapTable._publish_page` and `BTree._replace_guard` on top of
it.  A publication reads `end_lsn`, encodes its page with that LSN, appends the image, installs it and marks the frame dirty;
between any two of its steps other threads fetch, evict, flush, append and checkpoint.  The lock of a table keeps its mutations
apart; `_set_version` of VACUUM's `prune_chain` runs without it, and the lease of the table leaves one VACUUM to a relation.
-/
namespace MiniPostgres

namespace WalManager

/-- `flush`; with `fault`, the `fsync` raises. -/
def flush (w : WalManager) (requiredLsn : Option Nat) (fault : Bool) : WalManager × Result Unit :=
  if requiredLsn.any (fun lsn => w.endLsn < lsn) then (w, raise .valueError "cannot flush beyond the WAL end")
  else if w.flushedLsn < w.endLsn then
    if fault then (w, raise .osError "fsync failed") else ({ w with flushedLsn := w.endLsn }, .ok ())
  else (w, .ok ())

end WalManager

/-- Where a publication stands. -/
inductive PublicationStage
  | opened
  | begun
  | logging (pageLsn : Nat) (encoded : ByteString)
  | replacing (pageLsn : Nat) (encoded : ByteString)
  | marking (pageLsn : Nat)
  | leaving
  deriving DecidableEq

/-- A mutation that holds its page's guard and has the page's new body; `kind` is read on an index page only. -/
structure Publication where
  guard : PageGuard
  xid   : Nat
  kind  : PageKind
  body  : ByteString
  stage : PublicationStage
  deriving DecidableEq

/-- The thread that has the lock of the relation's table, or `prune_chain`, which has none. -/
structure Publisher where
  relation : RelationId
  locked   : Bool
  deriving DecidableEq

/-- The other publication of the relation. -/
def Publisher.twin (publisher : Publisher) : Publisher := { publisher with locked := !publisher.locked }

structure PageStore where
  wal       : WalManager
  disk      : RelationFiles
  pool      : BufferPool
  guards    : List PageGuard
  tasks     : Publisher → Option Publication
  hasWrites : Nat → Bool

namespace PageStore

def start (frameCount : Nat) : PageStore := ⟨.new, fun _ => [], .new frameCount, [], fun _ => none, fun _ => false⟩

/-! ## The pool's calls -/

/-- `_flush_frame`: the log first, then the page. -/
def flushFrame (s : PageStore) (frameId : Nat) (fault : Bool) : PageStore × Result Unit :=
  let frame := s.pool.frames frameId
  if frame.dirty = false then (s, .ok ())
  else
    match frame.key with
    | none     => (s, raise .runtimeError "a dirty frame has no key")
    | some key =>
      match s.wal.flush (some frame.pageLsn) fault with
      | (wal, .error e) => ({ s with wal := wal }, .error e)
      | (wal, .ok _)    =>
        match s.disk.writePage key frame.pageBytes with
        | .error e => ({ s with wal := wal }, .error e)
        | .ok disk => ({ s with wal := wal, disk := disk, pool := s.pool.setFrame frameId { frame with dirty := false } }, .ok ())

/-- The part of `fetch_page` that may raise: the victim is flushed and the page is read. -/
def fill (s : PageStore) (frameId : Nat) (key : RelationPage) (fault : Bool) : PageStore × Result (ByteString × Nat) :=
  match (if (s.pool.frames frameId).key.isSome then s.flushFrame frameId fault else (s, .ok ())) with
  | (s, .error e) => (s, .error e)
  | (s, .ok _)    =>
    match s.disk.readPage key with
    | .error e => (s, .error e)
    | .ok page =>
      match decodePage key page with
      | .error e     => (s, .error e)
      | .ok decoded => (s, .ok (page, decoded.pageLsn))

def fetchPage (s : PageStore) (key : RelationPage) (fault : Bool) : PageStore × Result PageGuard :=
  match s.pool.pageTable key with
  | some frameId => ({ s with pool := s.pool.pin frameId, guards := ⟨frameId, key⟩ :: s.guards }, .ok ⟨frameId, key⟩)
  | none         =>
    match s.pool.selectFrame with
    | (pool, none)                         => ({ s with pool := pool }, raise .bufferPoolFull "all buffer frames are pinned")
    | (pool, some (frameId, fromFreeList)) =>
      match ({ s with pool := pool } : PageStore).fill frameId key fault with
      | (s, .error e)           => ({ s with pool := s.pool.giveBack frameId fromFreeList }, .error e)
      | (s, .ok (page, pageLsn)) =>
        ({ s with pool := s.pool.load frameId key page pageLsn, guards := ⟨frameId, key⟩ :: s.guards }, .ok ⟨frameId, key⟩)

def newPage (s : PageStore) (relation : RelationId) (kind : Option PageKind) (fault : Bool) : PageStore × Result PageGuard :=
  match s.disk.allocatePage relation kind with
  | .error e        => (s, .error e)
  | .ok (disk, key) => ({ s with disk := disk } : PageStore).fetchPage key fault

def flushPage (s : PageStore) (key : RelationPage) (fault : Bool) : PageStore × Result Unit :=
  match s.pool.pageTable key with
  | none         => (s, raise .keyError "page is not resident")
  | some frameId => s.flushFrame frameId fault

/-- The loop of `flush_all` over the frames that are left. -/
def flushFrames (fault : Nat → Bool) : List Nat → PageStore → PageStore × Result Unit
  | [], s            => (s, .ok ())
  | frameId :: rest, s =>
    match s.flushFrame frameId (fault frameId) with
    | (s, .error e) => (s, .error e)
    | (s, .ok _)    => flushFrames fault rest s

def flushAll (s : PageStore) (fault : Nat → Bool) : PageStore × Result Unit :=
  flushFrames fault (List.range s.pool.frameCount) s

/-! ## Publications -/

def moveTo (s : PageStore) (publisher : Publisher) (t : Publication) (stage : PublicationStage) : PageStore :=
  { s with tasks := Function.update s.tasks publisher (some { t with stage := stage }) }

def ownGuards (s : PageStore) (relation : RelationId) : List PageGuard :=
  ((s.tasks ⟨relation, true⟩).map Publication.guard).toList ++ ((s.tasks ⟨relation, false⟩).map Publication.guard).toList

/-- The guards whose release is not a publication's own. -/
def readerGuards (s : PageStore) (relation : RelationId) : List PageGuard := s.guards.diff (s.ownGuards relation)

def release (s : PageStore) (guard : PageGuard) : PageStore :=
  if guard ∈ s.readerGuards guard.key.relation then
    match s.pool.releaseGuard guard with
    | .error _ => s
    | .ok pool => { s with pool := pool, guards := s.guards.erase guard }
  else s

/-- A writer that holds a guard has the page's new body. -/
def publish (s : PageStore) (guard : PageGuard) (locked : Bool) (xid : Nat) (kind : PageKind) (body : ByteString) : PageStore :=
  if guard ∈ s.readerGuards guard.key.relation ∧ s.tasks ⟨guard.key.relation, locked⟩ = none then
    { s with tasks := Function.update s.tasks ⟨guard.key.relation, locked⟩ (some ⟨guard, xid, kind, body, .opened⟩) }
  else s

/-- The first write of a transaction appends its BEGIN record; an index page needs none and has the LSN 0. -/
def advanceOpened (s : PageStore) (publisher : Publisher) (t : Publication) (fault : Option Nat) : PageStore :=
  match t.guard.key.fork with
  | .heap =>
    if s.hasWrites t.xid then s.moveTo publisher t .begun
    else
      match s.wal.append t.xid .begin fault with
      | (wal, .error _) => ({ s with wal := wal } : PageStore).moveTo publisher t .leaving
      | (wal, .ok _)    =>
        ({ s with wal := wal, hasWrites := Function.update s.hasWrites t.xid true } : PageStore).moveTo publisher t .begun
  | .btree =>
    match encodePage t.guard.key t.kind 0 t.body with
    | .error _    => s.moveTo publisher t .leaving
    | .ok encoded => s.moveTo publisher t (.replacing 0 encoded)

/-- The page is encoded with the LSN its record is going to have. -/
def advanceBegun (s : PageStore) (publisher : Publisher) (t : Publication) : PageStore :=
  match encodePage t.guard.key .heap s.wal.endLsn t.body with
  | .error _    => s.moveTo publisher t .leaving
  | .ok encoded => s.moveTo publisher t (.logging s.wal.endLsn encoded)

def advanceLogging (s : PageStore) (publisher : Publisher) (t : Publication) (pageLsn : Nat) (encoded : ByteString)
    (fault : Option Nat) : PageStore :=
  if h : encoded.length = walPageSize then
    match s.wal.append t.xid (.heapPageImages [(t.guard.key, ⟨encoded, h⟩)] (List.cons_ne_nil _ _)) fault with
    | (wal, .error _)      => ({ s with wal := wal } : PageStore).moveTo publisher t .leaving
    | (wal, .ok actualLsn) =>
      ({ s with wal := wal } : PageStore).moveTo publisher t
        (if actualLsn ≠ pageLsn then .leaving else .replacing pageLsn encoded)
  else s.moveTo publisher t .leaving

/-- One step of a publication; an exception leaves it with its guard to release. -/
def advance (s : PageStore) (publisher : Publisher) (t : Publication) (fault : Option Nat) : PageStore :=
  match t.stage with
  | .opened                  => s.advanceOpened publisher t fault
  | .begun                   => s.advanceBegun publisher t
  | .logging pageLsn encoded => s.advanceLogging publisher t pageLsn encoded fault
  | .replacing pageLsn encoded =>
    match s.pool.guardReplaceBytes t.guard encoded with
    | .error _ => s.moveTo publisher t .leaving
    | .ok pool => ({ s with pool := pool } : PageStore).moveTo publisher t (.marking pageLsn)
  | .marking pageLsn =>
    match s.pool.guardMarkDirty t.guard pageLsn with
    | .error _ => s.moveTo publisher t .leaving
    | .ok pool => ({ s with pool := pool } : PageStore).moveTo publisher t .leaving
  | .leaving =>
    match s.pool.releaseGuard t.guard with
    | .error _ => { s with tasks := Function.update s.tasks publisher none }
    | .ok pool =>
      { s with pool := pool, guards := s.guards.erase t.guard, tasks := Function.update s.tasks publisher none }

/-- What the threads of a database do to its pages and its log.  A checkpoint is `flushWal`, `flushAll`, `log` of its record and
`flushWal`; a commit is `log` and `flushWal`. -/
inductive Call
  | fetch (key : RelationPage) (fault : Bool)
  | newPage (relation : RelationId) (kind : Option PageKind) (fault : Bool)
  | release (guard : PageGuard)
  | flushPage (key : RelationPage) (fault : Bool)
  | flushAll (fault : Nat → Bool)
  | publish (guard : PageGuard) (locked : Bool) (xid : Nat) (kind : PageKind) (body : ByteString)
  | advance (publisher : Publisher) (fault : Option Nat)
  | log (xid : Nat) (record : RawRecord) (fault : Option Nat)
  | flushWal (requiredLsn : Option Nat) (fault : Bool)

def step (s : PageStore) : Call → PageStore
  | .fetch key fault             => (s.fetchPage key fault).1
  | .newPage relation kind fault => (s.newPage relation kind fault).1
  | .release guard               => s.release guard
  | .flushPage key fault         => (s.flushPage key fault).1
  | .flushAll fault              => (s.flushAll fault).1
  | .publish guard locked xid kind body => s.publish guard locked xid kind body
  | .advance publisher fault     =>
    match s.tasks publisher with
    | none   => s
    | some t => s.advance publisher t fault
  | .log xid record fault        => { s with wal := (s.wal.append xid record fault).1 }
  | .flushWal requiredLsn fault  => { s with wal := (s.wal.flush requiredLsn fault).1 }

def run (s : PageStore) (calls : List Call) : PageStore := calls.foldl step s

end PageStore

/-! ## The log -/

namespace WalManager

variable {w : WalManager}

/-- The stream of the entries, with every entry inside `end_lsn`. -/
structure Ordered (w : WalManager) : Prop where
  logged  : Logged w
  flushed : w.flushedLsn ≤ w.endLsn
  ends    : ∀ e ∈ w.entries, e.lsn < e.endLsn ∧ e.endLsn ≤ w.endLsn

/-- The log only grows. -/
structure Grows (w w' : WalManager) : Prop where
  entries : ∀ e ∈ w.entries, e ∈ w'.entries
  stop    : w.endLsn ≤ w'.endLsn
  flushed : w.flushedLsn ≤ w'.flushedLsn

theorem Grows.refl (w : WalManager) : Grows w w := ⟨fun _ he => he, Nat.le_refl _, Nat.le_refl _⟩

/-- **An append keeps the order**, and its record starts where the log ended. -/
theorem Ordered.append (h : Ordered w) (xid : Nat) (record : RawRecord) (fault : Option Nat) :
    Ordered (w.append xid record fault).1 ∧ Grows w (w.append xid record fault).1 ∧
      ∀ lsn, (w.append xid record fault).2 = .ok lsn →
        lsn = w.endLsn ∧ ∃ e ∈ (w.append xid record fault).1.entries, e.lsn = lsn ∧ e.record = record := by
  have hlog := (h.logged.append xid record fault).1
  rcases append_cases w xid record fault with ⟨⟨e, he⟩, hw⟩ | ⟨body, bytes, e, ha⟩
  · have hsame : (w.append xid record fault).1.entries = w.entries ∧ (w.append xid record fault).1.endLsn = w.endLsn ∧
        (w.append xid record fault).1.flushedLsn = w.flushedLsn := by
      rcases hw with hw | ⟨data, hw⟩ <;> rw [hw] <;> exact ⟨rfl, rfl, rfl⟩
    obtain ⟨h1, h2, h3⟩ := hsame
    refine ⟨⟨hlog, by rw [h2, h3]; exact h.flushed, by rw [h1, h2]; exact h.ends⟩,
      ⟨by rw [h1]; exact fun _ he => he, Nat.le_of_eq h2.symm, Nat.le_of_eq h3.symm⟩, fun lsn hok => ?_⟩
    rw [he] at hok
    cases hok
  · rw [ha] at hlog ⊢
    have hlen := e.length
    have hsize : headerSize = 36 := rfl
    refine ⟨⟨hlog, Nat.le_trans h.flushed (Nat.le_add_right _ _), fun f hf => ?_⟩,
      ⟨fun f hf => List.mem_append_left _ hf, Nat.le_add_right _ _, Nat.le_refl _⟩, fun lsn hok => ?_⟩
    · rcases List.mem_append.1 hf with hf | hf
      · exact ⟨(h.ends f hf).1, Nat.le_trans (h.ends f hf).2 (Nat.le_add_right _ _)⟩
      · rw [List.mem_singleton.1 hf]
        exact ⟨by simp only; omega, Nat.le_refl _⟩
    · cases hok
      exact ⟨rfl, _, List.mem_append_right _ (List.mem_singleton_self _), rfl, rfl⟩

/-- **A flush that returns leaves no record behind.** -/
theorem Ordered.flush (h : Ordered w) (required : Option Nat) (fault : Bool) :
    Ordered (w.flush required fault).1 ∧ Grows w (w.flush required fault).1 ∧
      ((w.flush required fault).2 = .ok () → (w.flush required fault).1.flushedLsn = (w.flush required fault).1.endLsn) := by
  unfold WalManager.flush
  split
  · exact ⟨h, .refl w, fun hr => absurd hr raise_ne_ok⟩
  · split
    · split
      · exact ⟨h, .refl w, fun hr => absurd hr raise_ne_ok⟩
      · exact ⟨⟨⟨h.logged.stream, h.logged.within⟩, Nat.le_refl _, h.ends⟩, ⟨fun _ he => he, Nat.le_refl _, h.flushed⟩,
          fun _ => rfl⟩
    · rename_i hnot
      exact ⟨h, .refl w, fun _ => Nat.le_antisymm h.flushed (Nat.le_of_not_lt hnot)⟩

end WalManager

/-- An entry is the image record of a page at an LSN. -/
def ImageAt (e : DecodedWalRecord) (lsn : Nat) (key : RelationPage) (bytes : ByteString) : Prop :=
  e.lsn = lsn ∧ ∃ image h, e.record = .heapPageImages [(key, image)] h ∧ image.val = bytes

/-- The bytes encode a page with that LSN, and the log has their image there unless the LSN is 0. -/
structure Backed (w : WalManager) (key : RelationPage) (bytes : ByteString) (lsn : Nat) : Prop where
  encoded : ∃ kind body, encodePage key kind lsn body = .ok bytes
  heap    : 0 < lsn → key.fork = .heap
  logged  : 0 < lsn → ∃ e ∈ w.entries, ImageAt e lsn key bytes

/-- The image is in the part of the log that a crash leaves. -/
def Durable (w : WalManager) (key : RelationPage) (bytes : ByteString) (lsn : Nat) : Prop :=
  0 < lsn → ∃ e ∈ w.entries, ImageAt e lsn key bytes ∧ e.endLsn ≤ w.flushedLsn

section Backing

variable {w w' : WalManager} {key : RelationPage} {bytes : ByteString} {lsn : Nat}

theorem Backed.mono (h : Backed w key bytes lsn) (hg : w.Grows w') : Backed w' key bytes lsn := by
  refine ⟨h.encoded, h.heap, fun hl => ?_⟩
  obtain ⟨e, he, hi⟩ := h.logged hl
  exact ⟨e, hg.entries e he, hi⟩

theorem Durable.mono (h : Durable w key bytes lsn) (hg : w.Grows w') : Durable w' key bytes lsn := by
  intro hl
  obtain ⟨e, he, hi, hf⟩ := h hl
  exact ⟨e, hg.entries e he, hi, Nat.le_trans hf hg.flushed⟩

theorem Backed.lsn_le (h : Backed w key bytes lsn) (ho : w.Ordered) : lsn ≤ w.endLsn := by
  rcases Nat.eq_zero_or_pos lsn with hz | hl
  · omega
  · obtain ⟨e, he, hi⟩ := h.logged hl
    have := ho.ends e he
    have := hi.1
    omega

theorem Backed.durable (h : Backed w key bytes lsn) (ho : w.Ordered) (hf : w.flushedLsn = w.endLsn) :
    Durable w key bytes lsn := by
  intro hl
  obtain ⟨e, he, hi⟩ := h.logged hl
  exact ⟨e, he, hi, by rw [hf]; exact (ho.ends e he).2⟩

theorem Backed.reencode (h : Backed w key bytes lsn) : ∃ decoded, decodePage key bytes = .ok decoded ∧
    decoded.pageLsn = lsn ∧ encodePage key decoded.kind lsn decoded.body = .ok bytes := by
  obtain ⟨kind, body, he⟩ := h.encoded
  exact ⟨_, decodePage_encodePage he, rfl, he⟩

end Backing

/-! ## The files -/

namespace RelationFiles

theorem writePage_ok {disk disk' : RelationFiles} {key : RelationPage} {bytes : ByteString}
    (h : disk.writePage key bytes = .ok disk') (k : RelationPage) {b : ByteString} (hb : disk'.pageAt k = some b) :
    (k = key ∧ b = bytes) ∨ disk.pageAt k = some b := by
  rw [(writePage_pageAt h).2] at hb
  split at hb
  · rename_i hk
    cases hb
    exact .inl ⟨hk, rfl⟩
  · exact .inr hb

theorem allocatePage_ok {disk disk' : RelationFiles} {relation : RelationId} {kind : Option PageKind} {key : RelationPage}
    (h : disk.allocatePage relation kind = .ok (disk', key)) (k : RelationPage) {b : ByteString}
    (hb : disk'.pageAt k = some b) : (∃ kind, encodePage k kind 0 [] = .ok b) ∨ disk.pageAt k = some b := by
  obtain ⟨-, encoded, henc, hat⟩ := allocatePage_pageAt h
  rw [hat] at hb
  split at hb
  · rename_i hk
    cases hb
    rw [hk]
    exact .inl ⟨_, henc⟩
  · exact .inr hb

end RelationFiles

/-! ## The invariant -/

namespace PageStore

/-- What holds between the steps of a publication, of the log and of the page in its frame.  Another publication of the page may
raise the LSN of the frame. -/
def StageOk (w : WalManager) (page : Option RelationPage × ByteString × Nat) (t : Publication) : Prop :=
  match t.stage with
  | .opened                    => True
  | .begun                     => t.guard.key.fork = .heap
  | .logging pageLsn encoded   => t.guard.key.fork = .heap ∧ encodePage t.guard.key .heap pageLsn t.body = .ok encoded
  | .replacing pageLsn encoded => Backed w t.guard.key encoded pageLsn
  | .marking pageLsn           => pageLsn ≤ page.2.2
  | .leaving                   => True

structure TaskOk (s : PageStore) (publisher : Publisher) (t : Publication) : Prop where
  relation : t.guard.key.relation = publisher.relation
  stage    : StageOk s.wal (s.pool.page t.guard.frameId) t

structure Inv (s : PageStore) : Prop where
  log    : s.wal.Ordered
  pool   : s.pool.Held s.guards
  owned  : ∀ guard, (s.ownGuards guard.key.relation).count guard ≤ s.guards.count guard
  frames : ∀ i key, (s.pool.frames i).key = some key → Backed s.wal key (s.pool.frames i).pageBytes (s.pool.frames i).pageLsn
  disk   : ∀ key bytes, s.disk.pageAt key = some bytes → ∃ lsn, Backed s.wal key bytes lsn ∧ Durable s.wal key bytes lsn
  tasks  : ∀ publisher t, s.tasks publisher = some t → TaskOk s publisher t

theorem StageOk.mono {w w' : WalManager} {page : Option RelationPage × ByteString × Nat} {t : Publication}
    (h : StageOk w page t) (hg : w.Grows w') : StageOk w' page t := by
  unfold StageOk at h ⊢
  cases hs : t.stage with
  | replacing pageLsn encoded =>
    rw [hs] at h
    exact h.mono hg
  | _ => rw [hs] at h; exact h

theorem StageOk.raised {w : WalManager} {page page' : Option RelationPage × ByteString × Nat} {t : Publication}
    (h : StageOk w page t) (hle : page.2.2 ≤ page'.2.2) : StageOk w page' t := by
  unfold StageOk at h ⊢
  cases hs : t.stage with
  | marking pageLsn =>
    rw [hs] at h
    exact Nat.le_trans h hle
  | _ => rw [hs] at h; exact h

variable {s : PageStore}

/-! ### The guards of the publications -/

theorem count_ownGuards (s : PageStore) (publisher : Publisher) (guard : PageGuard) :
    (s.ownGuards publisher.relation).count guard = ((s.tasks publisher).map Publication.guard).toList.count guard +
      ((s.tasks publisher.twin).map Publication.guard).toList.count guard := by
  obtain ⟨relation, locked⟩ := publisher
  cases locked with
  | true  => exact List.count_append
  | false => exact List.count_append.trans (Nat.add_comm _ _)

theorem count_self {publisher : Publisher} {t : Publication} (ht : s.tasks publisher = some t) (guard : PageGuard) :
    ((s.tasks publisher).map Publication.guard).toList.count guard = if t.guard = guard then 1 else 0 := by
  rw [ht]
  simp [List.count_singleton]

theorem ownGuards_of_ne {publisher : Publisher} {task : Option Publication} {relation : RelationId}
    (hr : relation ≠ publisher.relation) :
    ({ s with tasks := Function.update s.tasks publisher task } : PageStore).ownGuards relation = s.ownGuards relation := by
  have hne : ∀ locked, (⟨relation, locked⟩ : Publisher) ≠ publisher := fun locked he => hr (congrArg Publisher.relation he)
  simp only [ownGuards, Function.update_of_ne (hne _)]

theorem ownGuards_moveTo {publisher : Publisher} {t : Publication} (ht : s.tasks publisher = some t) (stage : PublicationStage)
    (relation : RelationId) : (s.moveTo publisher t stage).ownGuards relation = s.ownGuards relation := by
  have hmap : ∀ p, (Function.update s.tasks publisher (some { t with stage := stage }) p).map Publication.guard =
      (s.tasks p).map Publication.guard := by
    intro p
    rw [Function.update_apply]
    split
    · rename_i hp
      rw [hp, ht, Option.map_some, Option.map_some]
    · rfl
  simp only [ownGuards, moveTo, hmap]

theorem inv_start (frameCount : Nat) : Inv (start frameCount) := by
  refine ⟨⟨WalManager.logged_new, Nat.le_refl _, by simp [start, WalManager.new]⟩, BufferPool.held_new frameCount,
    fun _ => Nat.le_refl _, ?_, ?_, ?_⟩
  · intro i key hk
    cases hk
  · intro key bytes hb
    simp [start, RelationFiles.pageAt] at hb
  · intro publisher t ht
    cases ht

namespace Inv

theorem guard (h : Inv s) {publisher : Publisher} {t : Publication} (ht : s.tasks publisher = some t) : t.guard ∈ s.guards := by
  have hcount := h.owned t.guard
  rw [(h.tasks publisher t ht).relation, count_ownGuards, count_self ht, if_pos rfl] at hcount
  exact List.count_pos_iff.1 (by omega)

theorem logGrown (h : Inv s) {w : WalManager} (ho : w.Ordered) (hg : s.wal.Grows w) : Inv { s with wal := w } := by
  refine ⟨ho, h.pool, h.owned, fun i key hk => (h.frames i key hk).mono hg, fun key bytes hb => ?_, fun publisher t ht => ?_⟩
  · obtain ⟨lsn, hback, hdur⟩ := h.disk key bytes hb
    exact ⟨lsn, hback.mono hg, hdur.mono hg⟩
  · have hok := h.tasks publisher t ht
    exact ⟨hok.relation, hok.stage.mono hg⟩

theorem repooled (h : Inv s) {pool : BufferPool} {guards : List PageGuard} (hp : pool.Held guards)
    (hpage : ∀ i, pool.page i = s.pool.page i)
    (hg : ∀ guard, (s.ownGuards guard.key.relation).count guard ≤ guards.count guard) :
    Inv { s with pool := pool, guards := guards } := by
  refine ⟨h.log, hp, hg, fun i key hk => ?_, h.disk, fun publisher t ht => ?_⟩
  · have hsame := hpage i
    simp only [BufferPool.page, Prod.mk.injEq] at hsame
    rw [hsame.2.1, hsame.2.2]
    exact h.frames i key (by rw [← hsame.1]; exact hk)
  · have hok := h.tasks publisher t ht
    refine ⟨hok.relation, ?_⟩
    simp only [hpage]
    exact hok.stage

theorem rewritten (h : Inv s) {disk : RelationFiles}
    (hd : ∀ key bytes, disk.pageAt key = some bytes →
      (∃ lsn, Backed s.wal key bytes lsn ∧ Durable s.wal key bytes lsn) ∨ s.disk.pageAt key = some bytes) :
    Inv { s with disk := disk } := by
  refine ⟨h.log, h.pool, h.owned, h.frames, fun key bytes hb => ?_, fun publisher t ht => ?_⟩
  · rcases hd key bytes hb with hnew | hold
    · exact hnew
    · exact h.disk key bytes hold
  · have hok := h.tasks publisher t ht
    exact ⟨hok.relation, hok.stage⟩

end Inv

/-- What a flush leaves of the pool. -/
structure Flushed (s s' : PageStore) : Prop where
  inv    : Inv s'
  guards : s'.guards = s.guards
  table  : s'.pool.pageTable = s.pool.pageTable
  free   : s'.pool.freeFrames = s.pool.freeFrames
  pages  : ∀ i, s'.pool.page i = s.pool.page i
  pins   : ∀ i, (s'.pool.frames i).pinCount = (s.pool.frames i).pinCount

/-- **The log is flushed before a page is written.** -/
theorem Inv.flushFrame (h : Inv s) (i : Nat) (fault : Bool) : Flushed s (s.flushFrame i fault).1 := by
  have hsame : Flushed s s := ⟨h, rfl, rfl, rfl, fun _ => rfl, fun _ => rfl⟩
  unfold PageStore.flushFrame
  simp only
  split
  · exact hsame
  · split
    · exact hsame
    · rename_i key hkey
      obtain ⟨ho, hg, hend⟩ := h.log.flush (some (s.pool.frames i).pageLsn) fault
      have hwal := h.logGrown ho hg
      split
      · rename_i w e hw
        rw [hw] at hwal
        exact ⟨hwal, rfl, rfl, rfl, fun _ => rfl, fun _ => rfl⟩
      · rename_i w u hw
        rw [hw] at ho hend hwal
        split
        · exact ⟨hwal, rfl, rfl, rfl, fun _ => rfl, fun _ => rfl⟩
        · rename_i disk hd
          have hdisk : Inv { s with wal := w, disk := disk } := by
            refine hwal.rewritten (fun k b hb => ?_)
            rcases RelationFiles.writePage_ok hd k hb with ⟨rfl, rfl⟩ | hold
            · have hback := hwal.frames i k hkey
              exact .inl ⟨_, hback, hback.durable ho (hend rfl)⟩
            · exact .inr hold
          have hpage : ∀ j, (s.pool.setFrame i { s.pool.frames i with dirty := false }).page j = s.pool.page j := by
            intro j
            simp only [BufferPool.page, BufferPool.setFrame, Function.update_apply]
            split
            · rename_i hj; rw [hj]
            · rfl
          refine ⟨hdisk.repooled (h.pool.setFrame rfl rfl) hpage h.owned, rfl, rfl, rfl, hpage, ?_⟩
          intro j
          simp only [BufferPool.setFrame, Function.update_apply]
          split
          · rename_i hj; rw [hj]
          · rfl

theorem Inv.fill (h : Inv s) (i : Nat) (key : RelationPage) (fault : Bool) : Flushed s (s.fill i key fault).1 ∧
    ∀ bytes lsn, (s.fill i key fault).2 = .ok (bytes, lsn) → Backed (s.fill i key fault).1.wal key bytes lsn := by
  have hflush : Flushed s (if (s.pool.frames i).key.isSome then s.flushFrame i fault else (s, .ok ())).1 := by
    split
    · exact h.flushFrame i fault
    · exact ⟨h, rfl, rfl, rfl, fun _ => rfl, fun _ => rfl⟩
  unfold PageStore.fill
  split
  · rename_i s' e heq
    rw [heq] at hflush
    exact ⟨hflush, fun _ _ he => (by cases he)⟩
  · rename_i s' u heq
    rw [heq] at hflush
    split
    · exact ⟨hflush, fun _ _ he => (by cases he)⟩
    · rename_i page hpage
      split
      · exact ⟨hflush, fun _ _ he => (by cases he)⟩
      · rename_i decoded hdec
        refine ⟨hflush, fun bytes lsn he => ?_⟩
        cases he
        obtain ⟨lsn, hback, -⟩ := hflush.inv.disk key page (RelationFiles.readPage_ok hpage).1
        obtain ⟨decoded', hdec', hlsn, -⟩ := hback.reencode
        cases hdec.symm.trans hdec'
        rw [hlsn]
        exact hback

/-- **A fetch keeps it**, whether the page is resident, takes a frame over or cannot be read. -/
theorem Inv.fetchPage (h : Inv s) (key : RelationPage) (fault : Bool) : Inv (s.fetchPage key fault).1 := by
  unfold PageStore.fetchPage
  split
  · rename_i i hi
    refine h.repooled (h.pool.pin hi) (fun j => ?_) (fun g => Nat.le_trans (h.owned g) List.count_le_count_cons)
    simp only [BufferPool.page, BufferPool.pin, BufferPool.setFrame, Function.update_apply]
    split
    · rename_i hj; rw [hj]
    · rfl
  · rename_i habsent
    obtain ⟨pool, choice, hsel, hheld, hframes, htable, hchoice⟩ := h.pool.selectFrame
    rw [hsel]
    have hinv : Inv { s with pool := pool } :=
      h.repooled hheld (fun i => by simp only [BufferPool.page, hframes]) h.owned
    cases choice with
    | none => exact hinv
    | some chosen =>
      obtain ⟨i, free⟩ := chosen
      obtain ⟨hpin, hfree, hnone⟩ := hchoice i free rfl
      obtain ⟨hfl, hread⟩ := hinv.fill i key fault
      simp only
      split
      · rename_i s' e heq
        rw [heq] at hfl
        have hkeep : ∀ j, (s'.pool.frames j).key = (s.pool.frames j).key := by
          intro j
          have hpage := hfl.pages j
          simp only [BufferPool.page, Prod.mk.injEq, hframes] at hpage
          exact hpage.1
        refine hfl.inv.repooled ?_ (fun j => ?_) hfl.inv.owned
        · refine hfl.inv.pool.giveBack ?_ (by rw [hfl.free]; exact hfree) (fun hf => by rw [hkeep]; exact hnone hf)
          rw [hfl.pins, hframes]
          exact hpin
        · unfold BufferPool.giveBack
          split <;> rfl
      · rename_i s' bytes lsn heq
        rw [heq] at hfl hread
        have hback := hread bytes lsn rfl
        have hpin' : (s'.pool.frames i).pinCount = 0 := by
          rw [hfl.pins, hframes]
          exact hpin
        have hheld' : (s'.pool.load i key bytes lsn).Held (⟨i, key⟩ :: s'.guards) :=
          hfl.inv.pool.load hpin' (by rw [hfl.free]; exact hfree) (by rw [hfl.table, htable]; exact habsent) bytes lsn
        refine ⟨hfl.inv.log, hheld', fun g => Nat.le_trans (hfl.inv.owned g) List.count_le_count_cons, fun j k hk => ?_,
          hfl.inv.disk, fun p t ht => ?_⟩
        · simp only [BufferPool.load, Function.update_apply] at hk ⊢
          by_cases hj : j = i
          · rw [if_pos hj] at hk ⊢
            cases hk
            exact hback
          · rw [if_neg hj] at hk ⊢
            exact hfl.inv.frames j k hk
        · have hok := hfl.inv.tasks p t ht
          refine ⟨hok.relation, ?_⟩
          have hne := hfl.inv.pool.unguarded hpin' (hfl.inv.guard ht)
          simp only [BufferPool.page, BufferPool.load, Function.update_of_ne hne]
          exact hok.stage

theorem Inv.allocated (h : Inv s) {relation : RelationId} {kind : Option PageKind} {disk : RelationFiles} {key : RelationPage}
    (hall : s.disk.allocatePage relation kind = .ok (disk, key)) : Inv { s with disk := disk } := by
  refine h.rewritten (fun k b hb => ?_)
  rcases RelationFiles.allocatePage_ok hall k hb with ⟨kind', henc⟩ | hold
  · exact .inl ⟨0, ⟨⟨kind', [], henc⟩, fun hz => absurd hz (Nat.lt_irrefl 0), fun hz => absurd hz (Nat.lt_irrefl 0)⟩,
      fun hz => absurd hz (Nat.lt_irrefl 0)⟩
  · exact .inr hold

theorem Inv.newPage (h : Inv s) (relation : RelationId) (kind : Option PageKind) (fault : Bool) :
    Inv (s.newPage relation kind fault).1 := by
  unfold PageStore.newPage
  split
  · exact h
  · rename_i disk key hall
    exact (h.allocated hall).fetchPage key fault

theorem Inv.flushPage (h : Inv s) (key : RelationPage) (fault : Bool) : Inv (s.flushPage key fault).1 := by
  unfold PageStore.flushPage
  split
  · exact h
  · exact (h.flushFrame _ fault).inv

theorem Inv.flushFrames (fault : Nat → Bool) : ∀ (frames : List Nat) {s : PageStore}, Inv s → Inv (flushFrames fault frames s).1
  | [], _, h => h
  | i :: rest, s, h => by
    have hfl := (h.flushFrame i (fault i)).inv
    unfold PageStore.flushFrames
    split
    · rename_i s' e heq
      rw [heq] at hfl
      exact hfl
    · rename_i s' u heq
      rw [heq] at hfl
      exact Inv.flushFrames fault rest hfl

theorem Inv.release (h : Inv s) (guard : PageGuard) : Inv (s.release guard) := by
  unfold PageStore.release
  split
  · rename_i hmem
    obtain ⟨pool, hrel, hheld, hpage⟩ := h.pool.releaseGuard (List.diff_subset _ _ hmem)
    rw [hrel]
    refine h.repooled hheld hpage (fun g => ?_)
    have hown := h.owned g
    by_cases he : g = guard
    · have hleft := List.count_pos_iff.2 hmem
      rw [readerGuards, List.count_diff] at hleft
      rw [he] at hown ⊢
      rw [List.count_erase_self]
      omega
    · rw [List.count_erase_of_ne he]
      exact hown
  · exact h

theorem Inv.retasked (h : Inv s) {publisher : Publisher} {t : Publication} (hok : TaskOk s publisher t)
    (hown : ∀ guard, (({ s with tasks := Function.update s.tasks publisher (some t) } : PageStore).ownGuards
      guard.key.relation).count guard ≤ s.guards.count guard) :
    Inv { s with tasks := Function.update s.tasks publisher (some t) } := by
  refine ⟨h.log, h.pool, hown, h.frames, h.disk, fun p t' ht' => ?_⟩
  simp only [Function.update_apply] at ht'
  split at ht'
  · rename_i hp
    cases ht'
    rw [hp]
    exact ⟨hok.relation, hok.stage⟩
  · have hold := h.tasks p t' ht'
    exact ⟨hold.relation, hold.stage⟩

theorem Inv.publish (h : Inv s) (guard : PageGuard) (locked : Bool) (xid : Nat) (kind : PageKind) (body : ByteString) :
    Inv (s.publish guard locked xid kind body) := by
  unfold PageStore.publish
  split
  · rename_i hg
    obtain ⟨hmem, hnone⟩ := hg
    have hleft := List.count_pos_iff.2 hmem
    rw [readerGuards, List.count_diff] at hleft
    refine h.retasked ⟨rfl, trivial⟩ (fun g => ?_)
    have hown := h.owned g
    by_cases hr : g.key.relation = guard.key.relation
    · -- the new publication takes a guard that neither of the relation has
      have hold := count_ownGuards s ⟨guard.key.relation, locked⟩ g
      have hne : (⟨guard.key.relation, locked⟩ : Publisher).twin ≠ ⟨guard.key.relation, locked⟩ := by
        simp [Publisher.twin]
      rw [hnone] at hold
      rw [hr] at hown ⊢
      rw [count_ownGuards _ ⟨guard.key.relation, locked⟩]
      simp only [Function.update_self, Function.update_of_ne hne, Option.map_none, Option.map_some, Option.toList_none,
        Option.toList_some, List.count_nil, List.count_singleton, Nat.zero_add] at hold ⊢
      split
      · rename_i he
        rw [beq_iff_eq] at he
        rw [← he] at hold ⊢
        omega
      · omega
    · rw [ownGuards_of_ne hr]
      exact hown
  · exact h

theorem Inv.moveTo (h : Inv s) {publisher : Publisher} {t : Publication} (ht : s.tasks publisher = some t)
    {stage : PublicationStage} (hs : StageOk s.wal (s.pool.page t.guard.frameId) { t with stage := stage }) :
    Inv (s.moveTo publisher t stage) :=
  h.retasked ⟨(h.tasks publisher t ht).relation, hs⟩
    (fun g => Nat.le_trans (Nat.le_of_eq (congrArg _ (ownGuards_moveTo ht stage _))) (h.owned g))

/-- A publication changes its own page, under its key and its pins, and does not take the LSN back. -/
theorem Inv.setPage (h : Inv s) {publisher : Publisher} {t : Publication} (ht : s.tasks publisher = some t) {f : PoolFrame}
    (hk : f.key = (s.pool.frames t.guard.frameId).key) (hp : f.pinCount = (s.pool.frames t.guard.frameId).pinCount)
    (hle : (s.pool.frames t.guard.frameId).pageLsn ≤ f.pageLsn)
    (hback : Backed s.wal t.guard.key f.pageBytes f.pageLsn) {stage : PublicationStage}
    (hs : StageOk s.wal (f.key, f.pageBytes, f.pageLsn) { t with stage := stage }) :
    Inv (({ s with pool := s.pool.setFrame t.guard.frameId f } : PageStore).moveTo publisher t stage) := by
  have hok := h.tasks publisher t ht
  have hkey := h.pool.held _ (h.guard ht)
  refine ⟨h.log, h.pool.setFrame hk hp, fun g => ?_, fun i k hi => ?_, h.disk, fun p t' ht' => ?_⟩
  · exact Nat.le_trans (Nat.le_of_eq (congrArg _ (ownGuards_moveTo ht stage _))) (h.owned g)
  · simp only [PageStore.moveTo, BufferPool.setFrame, Function.update_apply] at hi ⊢
    split at hi
    · rename_i he
      rw [if_pos he]
      rw [hk, hkey] at hi
      cases hi
      exact hback
    · rename_i he
      rw [if_neg he]
      exact h.frames i k hi
  · simp only [PageStore.moveTo, Function.update_apply] at ht'
    split at ht'
    · rename_i hr
      cases ht'
      refine ⟨by rw [hr]; exact hok.relation, ?_⟩
      simp only [PageStore.moveTo, BufferPool.page, BufferPool.setFrame, Function.update_self]
      exact hs
    · have hok' := h.tasks p t' ht'
      refine ⟨hok'.relation, hok'.stage.raised ?_⟩
      simp only [PageStore.moveTo, BufferPool.page, BufferPool.setFrame, Function.update_apply]
      split
      · rename_i he
        rw [he]
        exact hle
      · exact Nat.le_refl _

theorem Inv.replaces (h : Inv s) {publisher : Publisher} {t : Publication} (ht : s.tasks publisher = some t) {lsn : Nat}
    {encoded : ByteString} (hs : t.stage = .replacing lsn encoded) : s.pool.guardReplaceBytes t.guard encoded =
      if lsn < (s.pool.frames t.guard.frameId).pageLsn then raise .valueError "page replacement cannot decrease its LSN"
      else .ok (s.pool.setFrame t.guard.frameId { s.pool.frames t.guard.frameId with pageBytes := encoded, pageLsn := lsn }) := by
  have hstage := (h.tasks publisher t ht).stage
  simp only [StageOk, hs] at hstage
  obtain ⟨decoded, hdec, hlsn, -⟩ := hstage.reencode
  unfold BufferPool.guardReplaceBytes
  simp only [h.pool.guardedFrame (h.guard ht), hdec, bind, Except.bind, hlsn]

theorem Inv.marks (h : Inv s) {publisher : Publisher} {t : Publication} (ht : s.tasks publisher = some t) {lsn : Nat}
    (hs : t.stage = .marking lsn) : s.pool.guardMarkDirty t.guard lsn =
      if lsn < (s.pool.frames t.guard.frameId).pageLsn then raise .valueError "dirty page LSN cannot decrease"
      else .ok (s.pool.setFrame t.guard.frameId { s.pool.frames t.guard.frameId with dirty := true }) := by
  have hle : lsn ≤ (s.pool.frames t.guard.frameId).pageLsn := by
    have hstage := (h.tasks publisher t ht).stage
    simp only [StageOk, hs] at hstage
    exact hstage
  unfold BufferPool.guardMarkDirty
  simp only [h.pool.guardedFrame (h.guard ht), bind, Except.bind]
  split
  · rfl
  · rename_i hnot
    obtain ⟨decoded, hdec, -, henc⟩ := (h.frames _ _ (h.pool.held _ (h.guard ht))).reencode
    have hsame : (s.pool.frames t.guard.frameId).pageLsn = lsn := Nat.le_antisymm (Nat.le_of_not_lt hnot) hle
    rw [hsame] at henc
    simp only [hdec, henc, hsame]

theorem Inv.advanceOpened (h : Inv s) {publisher : Publisher} {t : Publication} (ht : s.tasks publisher = some t)
    (fault : Option Nat) : Inv (s.advanceOpened publisher t fault) := by
  unfold PageStore.advanceOpened
  split
  · rename_i hfork
    split
    · exact h.moveTo ht hfork
    · obtain ⟨ho, hg, -⟩ := h.log.append t.xid .begin fault
      have hwal := h.logGrown ho hg
      split
      · rename_i w e hw
        rw [hw] at hwal
        exact hwal.moveTo ht trivial
      · rename_i w lsn hw
        rw [hw] at hwal
        have hmoved : Inv (({ s with wal := w } : PageStore).moveTo publisher t .begun) := hwal.moveTo ht hfork
        exact ⟨hmoved.log, hmoved.pool, hmoved.owned, hmoved.frames, hmoved.disk, fun p t' ht' =>
          ⟨(hmoved.tasks p t' ht').relation, (hmoved.tasks p t' ht').stage⟩⟩
  · split
    · exact h.moveTo ht trivial
    · rename_i encoded henc
      exact h.moveTo ht ⟨⟨t.kind, t.body, henc⟩, fun hz => absurd hz (Nat.lt_irrefl 0), fun hz => absurd hz (Nat.lt_irrefl 0)⟩

theorem Inv.advanceBegun (h : Inv s) {publisher : Publisher} {t : Publication} (ht : s.tasks publisher = some t)
    (hs : t.stage = .begun) : Inv (s.advanceBegun publisher t) := by
  have hfork := (h.tasks publisher t ht).stage
  simp only [StageOk, hs] at hfork
  unfold PageStore.advanceBegun
  split
  · exact h.moveTo ht trivial
  · rename_i encoded henc
    exact h.moveTo ht ⟨hfork, henc⟩

/-- The image is in the log under its own LSN, unless another thread's record has taken its place. -/
theorem Inv.advanceLogging (h : Inv s) {publisher : Publisher} {t : Publication} (ht : s.tasks publisher = some t) {lsn : Nat}
    {encoded : ByteString} (hs : t.stage = .logging lsn encoded) (fault : Option Nat) :
    Inv (s.advanceLogging publisher t lsn encoded fault) := by
  have hstage := (h.tasks publisher t ht).stage
  simp only [StageOk, hs] at hstage
  obtain ⟨hfork, henc⟩ := hstage
  unfold PageStore.advanceLogging
  split
  · rename_i hlen
    obtain ⟨ho, hg, hput⟩ :=
      h.log.append t.xid (.heapPageImages [(t.guard.key, ⟨encoded, hlen⟩)] (List.cons_ne_nil _ _)) fault
    have hwal := h.logGrown ho hg
    split
    · rename_i w e hw
      rw [hw] at hwal
      exact hwal.moveTo ht trivial
    · rename_i w actual hw
      rw [hw] at hwal hput
      refine hwal.moveTo ht ?_
      split
      · exact trivial
      · rename_i hactual
        obtain ⟨-, e, he, hlsn, hrec⟩ := hput actual rfl
        refine ⟨⟨.heap, t.body, henc⟩, fun _ => hfork, fun _ => ⟨e, he, ?_, _, _, hrec, rfl⟩⟩
        rw [hlsn]
        exact not_not.1 hactual
  · exact h.moveTo ht trivial

theorem mem_of_released {publisher p : Publisher} {t : Publication}
    (h : Function.update s.tasks publisher none p = some t) : s.tasks p = some t := by
  rw [Function.update_apply] at h
  split at h
  · cases h
  · exact h

/-- A publication that ends gives up its own guard and no other. -/
theorem Inv.owned_released (h : Inv s) {publisher : Publisher} {t : Publication} (ht : s.tasks publisher = some t)
    (g : PageGuard) :
    (({ s with tasks := Function.update s.tasks publisher none } : PageStore).ownGuards g.key.relation).count g ≤
      (s.guards.erase t.guard).count g := by
  have hg := h.owned g
  by_cases hr : g.key.relation = publisher.relation
  · have hne : publisher.twin ≠ publisher := fun he => by simpa [Publisher.twin] using congrArg Publisher.locked he
    rw [hr, count_ownGuards, count_self ht] at hg
    rw [hr, count_ownGuards]
    simp only [Function.update_self, Function.update_of_ne hne, Option.map_none, Option.toList_none, List.count_nil]
    rw [List.count_erase]
    simp only [beq_iff_eq]
    omega
  · rw [ownGuards_of_ne hr, List.count_erase_of_ne (fun he => hr (by rw [he]; exact (h.tasks publisher t ht).relation))]
    exact hg

theorem Inv.released (h : Inv s) {publisher : Publisher} {t : Publication} (ht : s.tasks publisher = some t) {pool : BufferPool}
    (hheld : pool.Held (s.guards.erase t.guard)) (hpage : ∀ i, pool.page i = s.pool.page i) :
    Inv { s with pool := pool, guards := s.guards.erase t.guard, tasks := Function.update s.tasks publisher none } := by
  have hdone : Inv { s with tasks := Function.update s.tasks publisher none } := by
    refine ⟨h.log, h.pool, fun g => Nat.le_trans (h.owned_released ht g) (List.Sublist.count_le g List.erase_sublist), h.frames,
      h.disk, fun p t' ht' => ?_⟩
    have hold := h.tasks p t' (mem_of_released ht')
    exact ⟨hold.relation, hold.stage⟩
  exact hdone.repooled hheld hpage (h.owned_released ht)

/-- **One step of a publication keeps it**, also where another publication of the page is under way. -/
theorem Inv.advance (h : Inv s) {publisher : Publisher} {t : Publication} (ht : s.tasks publisher = some t)
    (fault : Option Nat) : Inv (s.advance publisher t fault) := by
  have hleave : Inv (s.moveTo publisher t .leaving) := h.moveTo ht trivial
  have hstage := (h.tasks publisher t ht).stage
  unfold PageStore.advance
  split
  · exact h.advanceOpened ht fault
  · rename_i hs
    exact h.advanceBegun ht hs
  · rename_i lsn encoded hs
    exact h.advanceLogging ht hs fault
  · -- the page goes into its frame, unless the frame is past it
    rename_i lsn encoded hs
    simp only [StageOk, hs] at hstage
    rw [h.replaces ht hs]
    by_cases hlt : lsn < (s.pool.frames t.guard.frameId).pageLsn
    · rw [if_pos hlt]
      exact hleave
    · rw [if_neg hlt]
      refine h.setPage ht ?_ ?_ (Nat.le_of_not_lt hlt) ?_ ?_
      · rfl
      · rfl
      · exact hstage
      · exact Nat.le_refl lsn
  · -- encoded again, it is the same page
    rename_i lsn hs
    rw [h.marks ht hs]
    by_cases hlt : lsn < (s.pool.frames t.guard.frameId).pageLsn
    · rw [if_pos hlt]
      exact hleave
    · rw [if_neg hlt]
      refine h.setPage ht ?_ ?_ ?_ ?_ ?_
      · rfl
      · rfl
      · exact Nat.le_refl _
      · exact h.frames _ _ (h.pool.held _ (h.guard ht))
      · trivial
  · obtain ⟨pool, hrel, hheld, hpage⟩ := h.pool.releaseGuard (h.guard ht)
    rw [hrel]
    exact h.released ht hheld hpage

/-! ## Runs -/

theorem inv_step (h : Inv s) (c : Call) : Inv (s.step c) := by
  cases c with
  | fetch key fault => exact h.fetchPage key fault
  | newPage relation kind fault => exact h.newPage relation kind fault
  | release guard => exact h.release guard
  | flushPage key fault => exact h.flushPage key fault
  | flushAll fault => exact h.flushFrames fault _
  | publish guard locked xid kind body => exact h.publish guard locked xid kind body
  | advance publisher fault =>
    simp only [step]
    split
    · exact h
    · rename_i t ht
      exact h.advance ht fault
  | log xid record fault =>
    obtain ⟨ho, hg, -⟩ := h.log.append xid record fault
    exact h.logGrown ho hg
  | flushWal required fault =>
    obtain ⟨ho, hg, -⟩ := h.log.flush required fault
    exact h.logGrown ho hg

theorem Inv.run : ∀ (calls : List Call) {s : PageStore}, Inv s → Inv (s.run calls)
  | [], _, h         => h
  | c :: calls, _, h => Inv.run calls (inv_step h c)

theorem inv_run (frameCount : Nat) (calls : List Call) : Inv ((start frameCount).run calls) :=
  (inv_start frameCount).run calls

end PageStore
end MiniPostgres
