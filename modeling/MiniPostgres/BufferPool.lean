import MiniPostgres.Pages
import MiniPostgres.WalAppends
/-!
# BufferPool — frames, guards and the clock

`storage/buffer.py`, `storage/replacer.py` and the page I/O of `storage/disk.py`, over the bytes of the pages.  A relation file is
the list of its pages, the frames and the page table are functions, and an `fsync` that may fail is a flag of the call.  A frame
that a guard pins keeps its page: neither an eviction nor a flush changes its key, its bytes or its LSN.
-/
namespace MiniPostgres

structure RelationId where
  fork     : ForkKind
  objectId : UInt64
  deriving DecidableEq

def RelationPage.relation (key : RelationPage) : RelationId := ⟨key.fork, key.objectId⟩

/-! ## Relation files -/

abbrev RelationFiles := RelationId → List ByteString

namespace RelationFiles

def pageAt (disk : RelationFiles) (key : RelationPage) : Option ByteString := (disk key.relation)[key.pageId.toNat]?

def readPage (disk : RelationFiles) (key : RelationPage) : Result ByteString :=
  match disk.pageAt key with
  | none         => raise .corruptPage "short page read: expected 8192 bytes, got 0"
  | some encoded => do
    let _ ← decodePage key encoded
    .ok encoded

def writePage (disk : RelationFiles) (key : RelationPage) (encoded : ByteString) : Result RelationFiles := do
  let _ ← decodePage key encoded
  if (disk key.relation).length ≤ key.pageId.toNat then
    raise .corruptPage ("page " ++ toString key.pageId.toNat ++ " is not allocated")
  else .ok (Function.update disk key.relation ((disk key.relation).set key.pageId.toNat encoded))

/-- The kind of a page that is allocated without one. -/
def defaultKind : ForkKind → PageKind
  | .heap  => .heap
  | .btree => .btreeLeaf

def allocatePage (disk : RelationFiles) (relation : RelationId) (kind : Option PageKind) :
    Result (RelationFiles × RelationPage) :=
  if 2 ^ 64 ≤ (disk relation).length then raise .valueError "page_id must be an unsigned 64-bit integer"
  else do
    let key : RelationPage := ⟨relation.fork, relation.objectId, UInt64.ofNat (disk relation).length⟩
    let encoded ← encodePage key (kind.getD (defaultKind relation.fork)) 0 []
    .ok (Function.update disk relation (disk relation ++ [encoded]), key)

theorem page_ext {k k' : RelationPage} (hr : k.relation = k'.relation) (hp : k.pageId.toNat = k'.pageId.toNat) : k = k' := by
  obtain ⟨fork, object, page⟩ := k
  obtain ⟨fork', object', page'⟩ := k'
  simp only [RelationPage.relation, RelationId.mk.injEq] at hr
  cases hr.1
  cases hr.2
  cases UInt64.toNat_inj.1 hp
  rfl

variable {disk disk' : RelationFiles} {key : RelationPage} {bytes : ByteString}

theorem readPage_ok (h : disk.readPage key = .ok bytes) :
    disk.pageAt key = some bytes ∧ ∃ decoded, decodePage key bytes = .ok decoded := by
  unfold readPage at h
  split at h
  · exact absurd h raise_ne_ok
  · rename_i encoded hp
    obtain ⟨decoded, hd, h⟩ := bind_eq_ok.1 h
    cases h
    exact ⟨hp, decoded, hd⟩

theorem writePage_pageAt (h : disk.writePage key bytes = .ok disk') :
    (disk.pageAt key).isSome ∧ ∀ k, disk'.pageAt k = if k = key then some bytes else disk.pageAt k := by
  obtain ⟨_, -, h⟩ := bind_eq_ok.1 h
  split at h
  · exact absurd h raise_ne_ok
  · rename_i hlen
    cases h
    refine ⟨by rw [pageAt, List.getElem?_eq_getElem (Nat.lt_of_not_le hlen)]; rfl, fun k => ?_⟩
    simp only [pageAt, Function.update_apply]
    split
    · rename_i hr
      rw [hr, List.getElem?_set]
      split
      · rename_i hp
        rw [if_pos (by omega), if_pos (page_ext hr hp.symm)]
      · rename_i hp
        rw [if_neg (fun hk => hp (by rw [hk]))]
    · rename_i hr
      rw [if_neg (fun hk => hr (by rw [hk]))]

theorem allocatePage_pageAt {relation : RelationId} {kind : Option PageKind}
    (h : disk.allocatePage relation kind = .ok (disk', key)) : disk.pageAt key = none ∧
      ∃ encoded, encodePage key (kind.getD (defaultKind relation.fork)) 0 [] = .ok encoded ∧
        ∀ k, disk'.pageAt k = if k = key then some encoded else disk.pageAt k := by
  unfold allocatePage at h
  split at h
  · exact absurd h raise_ne_ok
  · rename_i hlen
    obtain ⟨encoded, henc, h⟩ := bind_eq_ok.1 h
    cases h
    have hid : (UInt64.ofNat (disk relation).length).toNat = (disk relation).length :=
      UInt64.toNat_ofNat_of_lt' (by simp only [UInt64.size]; omega)
    refine ⟨?_, encoded, henc, fun k => ?_⟩
    · simp only [pageAt, RelationPage.relation, hid]
      exact List.getElem?_eq_none (Nat.le_refl _)
    · simp only [pageAt, Function.update_apply]
      split
      · rename_i hr
        rw [hr]
        rcases Nat.lt_trichotomy k.pageId.toNat (disk relation).length with hlt | heq | hgt
        · rw [List.getElem?_append_left hlt, if_neg]
          intro hk
          rw [hk, hid] at hlt
          exact absurd hlt (Nat.lt_irrefl _)
        · rw [heq, List.getElem?_concat_length, if_pos]
          exact page_ext hr (by rw [heq, hid])
        · rw [List.getElem?_eq_none (by rw [List.length_append, List.length_singleton]; omega), if_neg,
            List.getElem?_eq_none (Nat.le_of_lt hgt)]
          intro hk
          rw [hk, hid] at hgt
          exact absurd hgt (Nat.lt_irrefl _)
      · rename_i hr
        rw [if_neg (fun hk => hr (by rw [hk]; rfl))]

end RelationFiles

/-! ## The clock -/

structure ClockReplacer where
  frameCount : Nat
  referenced : Nat → Bool
  evictable  : Nat → Bool
  hand       : Nat

namespace ClockReplacer

def new (frameCount : Nat) : ClockReplacer := ⟨frameCount, fun _ => false, fun _ => false, 0⟩

def recordAccess (c : ClockReplacer) (frameId : Nat) : ClockReplacer :=
  { c with referenced := Function.update c.referenced frameId true }

def markEvictable (c : ClockReplacer) (frameId : Nat) (evictable : Bool) : ClockReplacer :=
  { c with evictable := Function.update c.evictable frameId evictable }

/-- The loop of `evict`: a referenced frame gets a second chance. -/
def sweep : Nat → ClockReplacer → ClockReplacer × Option Nat
  | 0, c     => (c, none)
  | n + 1, c =>
    let frameId := c.hand
    let c := { c with hand := (c.hand + 1) % c.frameCount }
    if c.evictable frameId = false then sweep n c
    else if c.referenced frameId then sweep n { c with referenced := Function.update c.referenced frameId false }
    else (c.markEvictable frameId false, some frameId)

def evict (c : ClockReplacer) : ClockReplacer × Option Nat := sweep (c.frameCount * 2) c

/-- **A sweep takes the mark of its victim and of no other frame**, and its victim was evictable. -/
theorem sweep_cases : ∀ (n : Nat) (c : ClockReplacer),
    ((sweep n c).2 = none ∧ (sweep n c).1.evictable = c.evictable) ∨
      ∃ i, (sweep n c).2 = some i ∧ c.evictable i = true ∧ (sweep n c).1.evictable = Function.update c.evictable i false
  | 0, c     => .inl ⟨rfl, rfl⟩
  | n + 1, c => by
    unfold sweep
    simp only
    split
    · exact sweep_cases n { c with hand := (c.hand + 1) % c.frameCount }
    · rename_i hev
      split
      · exact sweep_cases n
          { c with hand := (c.hand + 1) % c.frameCount, referenced := Function.update c.referenced c.hand false }
      · exact .inr ⟨c.hand, rfl, by simpa using hev, rfl⟩

end ClockReplacer

/-! ## The pool -/

structure PoolFrame where
  key       : Option RelationPage
  pageBytes : ByteString
  pageLsn   : Nat
  pinCount  : Nat
  dirty     : Bool
  deriving DecidableEq

structure PageGuard where
  frameId : Nat
  key     : RelationPage
  deriving DecidableEq

structure BufferPool where
  frameCount : Nat
  frames     : Nat → PoolFrame
  pageTable  : RelationPage → Option Nat
  freeFrames : List Nat
  clock      : ClockReplacer

namespace BufferPool

def new (frameCount : Nat) : BufferPool :=
  ⟨frameCount, fun _ => ⟨none, [], 0, 0, false⟩, fun _ => none, List.range frameCount, .new frameCount⟩

/-- One frame changed in place. -/
def setFrame (p : BufferPool) (frameId : Nat) (frame : PoolFrame) : BufferPool :=
  { p with frames := Function.update p.frames frameId frame }

/-- `_select_frame`: the frame and whether it comes from the free list. -/
def selectFrame (p : BufferPool) : BufferPool × Option (Nat × Bool) :=
  match p.freeFrames with
  | frameId :: rest => ({ p with freeFrames := rest }, some (frameId, true))
  | []              =>
    let (clock, victim) := p.clock.evict
    ({ p with clock := clock }, victim.map (fun frameId => (frameId, false)))

/-- What `fetch_page` does with a frame it could not fill. -/
def giveBack (p : BufferPool) (frameId : Nat) (fromFreeList : Bool) : BufferPool :=
  if fromFreeList then { p with freeFrames := frameId :: p.freeFrames }
  else { p with clock := p.clock.markEvictable frameId true }

/-- A page that has been read takes a frame over. -/
def load (p : BufferPool) (frameId : Nat) (key : RelationPage) (pageBytes : ByteString) (pageLsn : Nat) : BufferPool :=
  let table := match (p.frames frameId).key with
    | some old => Function.update p.pageTable old none
    | none     => p.pageTable
  { p with
    frames    := Function.update p.frames frameId ⟨some key, pageBytes, pageLsn, 1, false⟩
    pageTable := Function.update table key (some frameId)
    clock     := (p.clock.recordAccess frameId).markEvictable frameId false }

def pin (p : BufferPool) (frameId : Nat) : BufferPool :=
  let frame := p.frames frameId
  { p.setFrame frameId { frame with pinCount := frame.pinCount + 1 } with
    clock := (p.clock.markEvictable frameId false).recordAccess frameId }

def guardedFrame (p : BufferPool) (guard : PageGuard) : Result PoolFrame :=
  let frame := p.frames guard.frameId
  if frame.key ≠ some guard.key ∨ frame.pinCount = 0 then
    raise .databaseClosed "page guard no longer owns a pinned frame"
  else .ok frame

def guardReplaceBytes (p : BufferPool) (guard : PageGuard) (pageBytes : ByteString) : Result BufferPool := do
  let frame ← p.guardedFrame guard
  let decoded ← decodePage guard.key pageBytes
  if decoded.pageLsn < frame.pageLsn then raise .valueError "page replacement cannot decrease its LSN"
  else .ok (p.setFrame guard.frameId { frame with pageBytes := pageBytes, pageLsn := decoded.pageLsn })

def guardMarkDirty (p : BufferPool) (guard : PageGuard) (pageLsn : Nat) : Result BufferPool := do
  let frame ← p.guardedFrame guard
  if pageLsn < frame.pageLsn then raise .valueError "dirty page LSN cannot decrease"
  else do
    let decoded ← decodePage guard.key frame.pageBytes
    let encoded ← encodePage guard.key decoded.kind pageLsn decoded.body
    .ok (p.setFrame guard.frameId { frame with pageBytes := encoded, pageLsn := pageLsn, dirty := true })

def releaseGuard (p : BufferPool) (guard : PageGuard) : Result BufferPool := do
  let frame ← p.guardedFrame guard
  let released := p.setFrame guard.frameId { frame with pinCount := frame.pinCount - 1 }
  .ok (if frame.pinCount - 1 = 0 then { released with clock := p.clock.markEvictable guard.frameId true } else released)

/-! ## Pins -/

/-- The page table names the frames' keys, every pin is a live guard's, and a frame in the free list or on offer to the clock
has no pin. -/
structure Held (p : BufferPool) (guards : List PageGuard) : Prop where
  table     : ∀ k i, p.pageTable k = some i ↔ (p.frames i).key = some k
  pins      : ∀ i, (p.frames i).pinCount = guards.countP (fun g => g.frameId = i)
  held      : ∀ g ∈ guards, (p.frames g.frameId).key = some g.key
  evictable : ∀ i, p.clock.evictable i = true → (p.frames i).pinCount = 0
  free      : ∀ i ∈ p.freeFrames, (p.frames i).key = none
  nodup     : p.freeFrames.Nodup

/-- The page of a frame, without its pins and its mark. -/
def page (p : BufferPool) (i : Nat) : Option RelationPage × ByteString × Nat :=
  ((p.frames i).key, (p.frames i).pageBytes, (p.frames i).pageLsn)

theorem held_new (frameCount : Nat) : Held (new frameCount) [] :=
  ⟨by simp [new], by simp [new], by simp, by simp [new, ClockReplacer.new], by simp [new], List.nodup_range⟩

namespace Held

variable {p : BufferPool} {guards : List PageGuard}

theorem pinned (h : Held p guards) {g : PageGuard} (hg : g ∈ guards) : 0 < (p.frames g.frameId).pinCount := by
  rw [h.pins, List.countP_pos_iff]
  exact ⟨g, hg, by simp⟩

theorem guardedFrame (h : Held p guards) {g : PageGuard} (hg : g ∈ guards) :
    p.guardedFrame g = .ok (p.frames g.frameId) := by
  have hpin := h.pinned hg
  unfold BufferPool.guardedFrame
  rw [if_neg]
  rintro (hk | hz)
  · exact hk (h.held g hg)
  · omega

theorem not_free (h : Held p guards) {i : Nat} (hi : i ∈ p.freeFrames) : (p.frames i).pinCount = 0 := by
  rw [h.pins, List.countP_eq_zero]
  intro g hg hgi
  have hkey := h.held g hg
  rw [show g.frameId = i by simpa using hgi, h.free i hi] at hkey
  cases hkey

theorem unguarded (h : Held p guards) {i : Nat} (hi : (p.frames i).pinCount = 0) {g : PageGuard} (hg : g ∈ guards) :
    g.frameId ≠ i := by
  intro he
  have := h.pinned hg
  rw [he] at this
  omega

theorem sameFrame (h : Held p guards) {g g' : PageGuard} (hg : g ∈ guards) (hg' : g' ∈ guards) :
    g.frameId = g'.frameId ↔ g.key = g'.key := by
  have hkey := h.held g hg
  have hkey' := h.held g' hg'
  constructor
  · intro he
    rw [he, hkey'] at hkey
    exact (Option.some.inj hkey).symm
  · intro he
    have hat := (h.table _ _).2 hkey
    rw [he, (h.table _ _).2 hkey'] at hat
    exact (Option.some.inj hat).symm

theorem setFrame (h : Held p guards) {i : Nat} {f : PoolFrame} (hk : f.key = (p.frames i).key)
    (hp : f.pinCount = (p.frames i).pinCount) : Held (p.setFrame i f) guards := by
  have hkey : ∀ j, ((p.setFrame i f).frames j).key = (p.frames j).key := by
    intro j
    simp only [BufferPool.setFrame, Function.update_apply]
    split
    · rename_i hj; rw [hk, hj]
    · rfl
  have hpin : ∀ j, ((p.setFrame i f).frames j).pinCount = (p.frames j).pinCount := by
    intro j
    simp only [BufferPool.setFrame, Function.update_apply]
    split
    · rename_i hj; rw [hp, hj]
    · rfl
  refine ⟨fun k j => ?_, fun j => ?_, fun g hg => ?_, fun j hj => ?_, fun j hj => ?_, h.nodup⟩
  · rw [hkey]; exact h.table k j
  · rw [hpin]; exact h.pins j
  · rw [hkey]; exact h.held g hg
  · rw [hpin]; exact h.evictable j hj
  · rw [hkey]; exact h.free j hj

theorem selectFrame (h : Held p guards) : ∃ q choice, p.selectFrame = (q, choice) ∧ Held q guards ∧ q.frames = p.frames ∧
    q.pageTable = p.pageTable ∧ ∀ i free, choice = some (i, free) →
      (p.frames i).pinCount = 0 ∧ i ∉ q.freeFrames ∧ (free = true → (p.frames i).key = none) := by
  cases hfree : p.freeFrames with
  | cons i rest =>
    have hn := h.nodup
    rw [hfree, List.nodup_cons] at hn
    have hmem : ∀ j ∈ rest, j ∈ p.freeFrames := fun j hj => by rw [hfree]; exact List.mem_cons_of_mem _ hj
    have hi : i ∈ p.freeFrames := by rw [hfree]; exact List.mem_cons_self
    refine ⟨{ p with freeFrames := rest }, some (i, true), by simp only [BufferPool.selectFrame, hfree],
      ⟨h.table, h.pins, h.held, h.evictable, fun j hj => h.free j (hmem j hj), hn.2⟩, rfl, rfl, ?_⟩
    rintro j free he
    cases he
    exact ⟨h.not_free hi, hn.1, fun _ => h.free i hi⟩
  | nil =>
    refine ⟨{ p with clock := p.clock.evict.1 }, p.clock.evict.2.map (fun i => (i, false)),
      by simp only [BufferPool.selectFrame, hfree], ?_, rfl, rfl, ?_⟩
    · refine ⟨h.table, h.pins, h.held, fun j hj => ?_, by simp [hfree], by simp [hfree]⟩
      rcases ClockReplacer.sweep_cases (p.clock.frameCount * 2) p.clock with ⟨-, he⟩ | ⟨i, -, -, he⟩
      · exact h.evictable j (by rw [← he]; exact hj)
      · refine h.evictable j ?_
        have hj' : Function.update p.clock.evictable i false j = true := by rw [← he]; exact hj
        rw [Function.update_apply] at hj'
        split at hj'
        · cases hj'
        · exact hj'
    · rintro i free he
      obtain ⟨j, hj, he⟩ := Option.map_eq_some_iff.1 he
      cases he
      refine ⟨?_, by simp [hfree], by simp⟩
      rcases ClockReplacer.sweep_cases (p.clock.frameCount * 2) p.clock with ⟨hno, -⟩ | ⟨i', hi', hev, -⟩
      · cases hj.symm.trans hno
      · cases hj.symm.trans hi'
        exact h.evictable i hev

theorem giveBack (h : Held p guards) {i : Nat} {free : Bool} (hp : (p.frames i).pinCount = 0) (hi : i ∉ p.freeFrames)
    (hk : free = true → (p.frames i).key = none) : Held (p.giveBack i free) guards := by
  unfold BufferPool.giveBack
  split
  · rename_i hf
    refine ⟨h.table, h.pins, h.held, h.evictable, fun j hj => ?_, List.nodup_cons.2 ⟨hi, h.nodup⟩⟩
    rcases List.mem_cons.1 hj with rfl | hj
    · exact hk hf
    · exact h.free j hj
  · refine ⟨h.table, h.pins, h.held, fun j hj => ?_, h.free, h.nodup⟩
    simp only [ClockReplacer.markEvictable, Function.update_apply] at hj
    split at hj
    · rename_i he; rw [he]; exact hp
    · exact h.evictable j hj

theorem load (h : Held p guards) {i : Nat} {key : RelationPage} (hp : (p.frames i).pinCount = 0) (hi : i ∉ p.freeFrames)
    (hkey : p.pageTable key = none) (bytes : ByteString) (lsn : Nat) :
    Held (p.load i key bytes lsn) (⟨i, key⟩ :: guards) := by
  have hfr : ∀ j, j ≠ i → (p.load i key bytes lsn).frames j = p.frames j := fun j hj => by
    simp only [BufferPool.load, Function.update_of_ne hj]
  have hself : (p.load i key bytes lsn).frames i = ⟨some key, bytes, lsn, 1, false⟩ := by
    simp only [BufferPool.load, Function.update_self]
  have htab : ∀ k, (p.load i key bytes lsn).pageTable k =
      if k = key then some i else if (p.frames i).key = some k then none else p.pageTable k := by
    intro k
    simp only [BufferPool.load, Function.update_apply]
    split
    · rfl
    · cases hold : (p.frames i).key with
      | none => simp
      | some old =>
        simp only [Function.update_apply, Option.some.injEq]
        by_cases hk : k = old
        · rw [if_pos hk, if_pos hk.symm]
        · rw [if_neg hk, if_neg (fun he => hk he.symm)]
  refine ⟨fun k j => ?_, fun j => ?_, fun g hg => ?_, fun j hj => ?_, fun j hj => ?_, h.nodup⟩
  · rw [htab]
    by_cases hj : j = i
    · rw [hj, hself]
      simp only [Option.some.injEq]
      by_cases hk : k = key
      · rw [if_pos hk, hk]; simp
      · rw [if_neg hk]
        constructor
        · intro he
          split at he
          · cases he
          · rename_i hne; exact absurd ((h.table k i).1 he) hne
        · exact fun he => absurd he.symm hk
    · rw [hfr j hj]
      by_cases hk : k = key
      · rw [if_pos hk]
        constructor
        · intro he; cases he; exact absurd rfl hj
        · intro he
          rw [hk, ← h.table, hkey] at he
          cases he
      · rw [if_neg hk]
        split
        · rename_i hold
          constructor
          · intro he; cases he
          · intro he
            have h1 := (h.table k j).2 he
            rw [(h.table k i).2 hold] at h1
            cases h1
            exact absurd rfl hj
        · exact h.table k j
  · rw [List.countP_cons]
    by_cases hj : j = i
    · rw [hj, hself, ← h.pins, hp]
      simp
    · rw [hfr j hj, h.pins, if_neg (by simpa using fun he => hj he.symm), Nat.add_zero]
  · rcases List.mem_cons.1 hg with rfl | hg
    · rw [hself]
    · rw [hfr _ (h.unguarded hp hg)]
      exact h.held g hg
  · simp only [BufferPool.load, ClockReplacer.markEvictable, ClockReplacer.recordAccess, Function.update_apply] at hj
    split at hj
    · cases hj
    · rename_i hne
      rw [hfr j hne]
      exact h.evictable j hj
  · have hne : j ≠ i := fun he => hi (by rw [← he]; exact hj)
    rw [hfr j hne]
    exact h.free j hj

theorem pin (h : Held p guards) {i : Nat} {key : RelationPage} (hkey : p.pageTable key = some i) :
    Held (p.pin i) (⟨i, key⟩ :: guards) := by
  have hk : ∀ j, ((p.pin i).frames j).key = (p.frames j).key := by
    intro j
    simp only [BufferPool.pin, BufferPool.setFrame, Function.update_apply]
    split
    · rename_i hj; rw [hj]
    · rfl
  refine ⟨fun k j => ?_, fun j => ?_, fun g hg => ?_, fun j hj => ?_, fun j hj => ?_, h.nodup⟩
  · rw [hk]; exact h.table k j
  · simp only [BufferPool.pin, BufferPool.setFrame, Function.update_apply, List.countP_cons]
    by_cases hj : j = i
    · rw [if_pos hj, hj, h.pins]; simp
    · rw [if_neg hj, h.pins, if_neg (by simpa using fun he => hj he.symm), Nat.add_zero]
  · rw [hk]
    rcases List.mem_cons.1 hg with rfl | hg
    · exact (h.table key i).1 hkey
    · exact h.held g hg
  · simp only [BufferPool.pin, BufferPool.setFrame, ClockReplacer.markEvictable, ClockReplacer.recordAccess,
      Function.update_apply] at hj ⊢
    split at hj
    · cases hj
    · rename_i hne
      rw [if_neg hne]
      exact h.evictable j hj
  · rw [hk]; exact h.free j hj

theorem releaseGuard (h : Held p guards) {g : PageGuard} (hg : g ∈ guards) :
    ∃ q, p.releaseGuard g = .ok q ∧ Held q (guards.erase g) ∧ ∀ i, q.page i = p.page i := by
  have hpin := h.pinned hg
  have hkey : ∀ j,
    ((p.setFrame g.frameId { p.frames g.frameId with pinCount := (p.frames g.frameId).pinCount - 1 }).frames j).key =
      (p.frames j).key := by
    intro j
    simp only [BufferPool.setFrame, Function.update_apply]
    split
    · rename_i hj; rw [hj]
    · rfl
  have hpins : ∀ j,
    ((p.setFrame g.frameId { p.frames g.frameId with pinCount := (p.frames g.frameId).pinCount - 1 }).frames j).pinCount =
      (guards.erase g).countP (fun g => g.frameId = j) := by
    intro j
    rw [List.countP_erase]
    simp only [BufferPool.setFrame, Function.update_apply, decide_eq_true_eq]
    by_cases hj : j = g.frameId
    · rw [if_pos hj, if_pos ⟨hg, hj.symm⟩, h.pins, hj]
    · rw [if_neg hj, if_neg (fun he => hj he.2.symm), h.pins, Nat.sub_zero]
  have hcore : ∀ clock : ClockReplacer,
      (∀ j, clock.evictable j = true → (guards.erase g).countP (fun g => g.frameId = j) = 0) →
      Held { p.setFrame g.frameId { p.frames g.frameId with pinCount := (p.frames g.frameId).pinCount - 1 } with clock := clock }
        (guards.erase g) := by
    intro clock hc
    refine ⟨fun k j => ?_, hpins, fun g' hg' => ?_, fun j hj => ?_, fun j hj => ?_, h.nodup⟩
    · rw [hkey]; exact h.table k j
    · rw [hkey]; exact h.held g' (List.mem_of_mem_erase hg')
    · rw [hpins]; exact hc j hj
    · rw [hkey]; exact h.free j hj
  have hold : ∀ j, p.clock.evictable j = true → (guards.erase g).countP (fun g => g.frameId = j) = 0 := by
    intro j hj
    have hle := (List.erase_sublist (a := g) (l := guards)).countP_le (p := fun g => decide (g.frameId = j))
    have hz := h.evictable j hj
    rw [h.pins] at hz
    omega
  have hpage : ∀ j clock, ({ p.setFrame g.frameId { p.frames g.frameId with pinCount := (p.frames g.frameId).pinCount - 1 } with
      clock := clock } : BufferPool).page j = p.page j := by
    intro j clock
    simp only [BufferPool.page, BufferPool.setFrame, Function.update_apply]
    split
    · rename_i hj; rw [hj]
    · rfl
  unfold BufferPool.releaseGuard
  simp only [h.guardedFrame hg, bind, Except.bind]
  split
  · rename_i hz
    refine ⟨_, rfl, hcore _ (fun j hj => ?_), fun i => hpage i _⟩
    simp only [ClockReplacer.markEvictable, Function.update_apply] at hj
    split at hj
    · rename_i he
      rw [← hpins, he]
      simp only [BufferPool.setFrame, Function.update_self]
      exact hz
    · exact hold j hj
  · exact ⟨_, rfl, hcore p.clock hold, fun i => hpage i p.clock⟩

end Held
end BufferPool
end MiniPostgres
