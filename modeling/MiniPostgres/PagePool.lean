import MiniPostgres.BufferPool
/-!
# PagePool — the books of the buffer pool

`BufferPool` over relation files of any contents, with a flush gate that may refuse and page I/O that may fail.  A call gives the
pool it leaves, also when it raises.  Whatever the calls were, the page table, the free list, the pins and the marks of the clock
agree: the frame that `fetch_page` takes out of the books while it works is put back on every way out.
-/
namespace MiniPostgres

/-! ## The clock finds a victim -/

namespace ClockReplacer

def distance (c : ClockReplacer) (i : Nat) : Nat := if c.hand ≤ i then i - c.hand else i + c.frameCount - c.hand

theorem distance_step {c : ClockReplacer} {i : Nat} (hh : c.hand < c.frameCount) (hi : i < c.frameCount) :
    (if c.hand = i then (⟨c.frameCount, c.referenced, c.evictable, (c.hand + 1) % c.frameCount⟩ : ClockReplacer).distance i + 1 =
        c.frameCount
      else (⟨c.frameCount, c.referenced, c.evictable, (c.hand + 1) % c.frameCount⟩ : ClockReplacer).distance i + 1 =
        c.distance i) := by
  have hmod : (c.hand + 1) % c.frameCount = if c.hand + 1 = c.frameCount then 0 else c.hand + 1 := by
    split
    · rename_i h; rw [h, Nat.mod_self]
    · exact Nat.mod_eq_of_lt (by omega)
  simp only [distance, hmod]
  split <;> split <;> split <;> (try split) <;> omega

/-- **A sweep that comes past a frame twice finds a victim.** -/
theorem sweep_none : ∀ (n : Nat) (c : ClockReplacer), c.hand < c.frameCount → (sweep n c).2 = none →
    ∀ i < c.frameCount, c.evictable i = true → n ≤ c.distance i + if c.referenced i then c.frameCount else 0
  | 0, _, _, _, _, _, _ => Nat.zero_le _
  | n + 1, c, hh, h, i, hi, hev => by
    have hstep := distance_step hh hi
    have hnext : (c.hand + 1) % c.frameCount < c.frameCount := Nat.mod_lt _ (by omega)
    unfold sweep at h
    simp only at h
    by_cases hc : c.hand = i
    · subst hc
      rw [if_pos rfl] at hstep
      rw [hev, if_neg (by simp)] at h
      by_cases hr : c.referenced c.hand = true
      · rw [if_pos hr] at h
        have hrest := sweep_none n _ hnext h c.hand hh hev
        simp only [Function.update_self, Bool.false_eq_true, if_false, Nat.add_zero] at hrest
        rw [if_pos hr]
        simp only [distance] at hrest hstep ⊢
        omega
      · rw [if_neg hr] at h
        cases h
    · rw [if_neg hc] at hstep
      split at h
      · have hrest := sweep_none n _ hnext h i hi hev
        simp only at hrest
        simp only [distance] at hrest hstep ⊢
        omega
      · split at h
        · have hrest := sweep_none n _ hnext h i hi hev
          simp only [Function.update_of_ne (Ne.symm hc)] at hrest
          simp only [distance] at hrest hstep ⊢
          omega
        · cases h

theorem sweep_frame : ∀ (n : Nat) (c : ClockReplacer), (sweep n c).1.frameCount = c.frameCount ∧
    (c.hand < c.frameCount → (sweep n c).1.hand < c.frameCount)
  | 0, _     => ⟨rfl, id⟩
  | n + 1, c => by
    have hnext : c.hand < c.frameCount → (c.hand + 1) % c.frameCount < c.frameCount :=
      fun h => Nat.mod_lt _ (by omega)
    unfold sweep
    simp only
    split
    · obtain ⟨h1, h2⟩ := sweep_frame n { c with hand := (c.hand + 1) % c.frameCount }
      exact ⟨h1, fun h => h2 (hnext h)⟩
    · split
      · obtain ⟨h1, h2⟩ := sweep_frame n
          { c with hand := (c.hand + 1) % c.frameCount, referenced := Function.update c.referenced c.hand false }
        exact ⟨h1, fun h => h2 (hnext h)⟩
      · exact ⟨rfl, hnext⟩

end ClockReplacer

/-! ## The calls -/

/-- Where a flush raises: in the gate, before the page is written or after it. -/
inductive FlushFault
  | gate | beforeWrite | afterWrite
  deriving DecidableEq, Repr

/-- A `PageGuard` object. -/
structure GuardHandle where
  guard    : PageGuard
  released : Bool
  deriving DecidableEq

/-- A pool over its disk, with every guard object that it has given out. -/
structure PagePool where
  disk    : RelationFiles
  pool    : BufferPool
  handles : List GuardHandle

namespace PagePool

def start (frameCount : Nat) (disk : RelationFiles) : PagePool := ⟨disk, .new frameCount, []⟩

/-- The guards that have not been released. -/
def live (s : PagePool) : List PageGuard := (s.handles.filter (fun h => !h.released)).map (·.guard)

def flushFrame (s : PagePool) (frameId : Nat) (fault : Option FlushFault) : PagePool × Result Unit :=
  let frame := s.pool.frames frameId
  if frame.dirty = false then (s, .ok ())
  else
    match frame.key with
    | none     => (s, raise .runtimeError "assertion failed")
    | some key =>
      if fault = some .gate ∨ fault = some .beforeWrite then (s, raise .osError "injected failure")
      else
        match s.disk.writePage key frame.pageBytes with
        | .error e => (s, .error e)
        | .ok disk =>
          if fault = some .afterWrite then ({ s with disk := disk }, raise .osError "injected failure")
          else ({ s with disk := disk, pool := s.pool.setFrame frameId { frame with dirty := false } }, .ok ())

/-- What `fetch_page` does before the page is there; `readFails` is an I/O error of the read. -/
def fill (s : PagePool) (frameId : Nat) (key : RelationPage) (fault : Option FlushFault) (readFails : Bool) :
    PagePool × Result (ByteString × Nat) :=
  match (if (s.pool.frames frameId).key.isSome then s.flushFrame frameId fault else (s, .ok ())) with
  | (s, .error e) => (s, .error e)
  | (s, .ok _)    =>
    if readFails then (s, raise .osError "injected failure")
    else
      match s.disk.readPage key with
      | .error e => (s, .error e)
      | .ok page =>
        match decodePage key page with
        | .error e    => (s, .error e)
        | .ok decoded => (s, .ok (page, decoded.pageLsn))

def give (s : PagePool) (pool : BufferPool) (guard : PageGuard) : PagePool × Result PageGuard :=
  ({ s with pool := pool, handles := s.handles ++ [⟨guard, false⟩] }, .ok guard)

def fetchPage (s : PagePool) (key : RelationPage) (fault : Option FlushFault) (readFails : Bool) : PagePool × Result PageGuard :=
  match s.pool.pageTable key with
  | some frameId => s.give (s.pool.pin frameId) ⟨frameId, key⟩
  | none         =>
    match s.pool.selectFrame with
    | (pool, none)                         => ({ s with pool := pool }, raise .bufferPoolFull "all buffer frames are pinned")
    | (pool, some (frameId, fromFreeList)) =>
      match ({ s with pool := pool } : PagePool).fill frameId key fault readFails with
      | (s, .error e)            => ({ s with pool := s.pool.giveBack frameId fromFreeList }, .error e)
      | (s, .ok (page, pageLsn)) => s.give (s.pool.load frameId key page pageLsn) ⟨frameId, key⟩

def newPage (s : PagePool) (relation : RelationId) (kind : Option PageKind) (fault : Option FlushFault) (readFails : Bool) :
    PagePool × Result PageGuard :=
  match s.disk.allocatePage relation kind with
  | .error e        => (s, .error e)
  | .ok (disk, key) => ({ s with disk := disk } : PagePool).fetchPage key fault readFails

def flushPage (s : PagePool) (key : RelationPage) (fault : Option FlushFault) : PagePool × Result Unit :=
  match s.pool.pageTable key with
  | none         => (s, raise .keyError "page is not resident")
  | some frameId => s.flushFrame frameId fault

/-- The loop of `flush_all` over the frames that are left. -/
def flushFrames (fault : Nat → Option FlushFault) : List Nat → PagePool → PagePool × Result Unit
  | [], s              => (s, .ok ())
  | frameId :: rest, s =>
    match (if (s.pool.frames frameId).key.isSome then s.flushFrame frameId (fault frameId) else (s, .ok ())) with
    | (s, .error e) => (s, .error e)
    | (s, .ok _)    => flushFrames fault rest s

def flushAll (s : PagePool) (fault : Nat → Option FlushFault) : PagePool × Result Unit :=
  flushFrames fault (List.range s.pool.frameCount) s

/-! ### Guards -/

/-- `_ensure_active` of the guard object with this number. -/
def active (s : PagePool) (handle : Nat) : Result PageGuard :=
  match s.handles[handle]? with
  | none   => raise .indexError "no such guard"
  | some h => if h.released then raise .databaseClosed "page guard has been released" else .ok h.guard

def pageBytes (s : PagePool) (handle : Nat) : Result ByteString := do
  let guard ← s.active handle
  let frame ← s.pool.guardedFrame guard
  .ok frame.pageBytes

def replaceBytes (s : PagePool) (handle : Nat) (bytes : ByteString) : PagePool × Result Unit :=
  match (do let guard ← s.active handle; s.pool.guardReplaceBytes guard bytes) with
  | .error e => (s, .error e)
  | .ok pool => ({ s with pool := pool }, .ok ())

def markDirty (s : PagePool) (handle : Nat) (pageLsn : Nat) : PagePool × Result Unit :=
  match (do let guard ← s.active handle; s.pool.guardMarkDirty guard pageLsn) with
  | .error e => (s, .error e)
  | .ok pool => ({ s with pool := pool }, .ok ())

/-- `release`, which does nothing the second time. -/
def release (s : PagePool) (handle : Nat) : PagePool × Result Unit :=
  match s.handles[handle]? with
  | none   => (s, raise .indexError "no such guard")
  | some h =>
    if h.released then (s, .ok ())
    else
      match s.pool.releaseGuard h.guard with
      | .error e => (s, .error e)
      | .ok pool => ({ s with pool := pool, handles := s.handles.set handle { h with released := true } }, .ok ())

inductive Call
  | fetchPage (key : RelationPage) (fault : Option FlushFault) (readFails : Bool)
  | newPage (relation : RelationId) (kind : Option PageKind) (fault : Option FlushFault) (readFails : Bool)
  | replaceBytes (handle : Nat) (bytes : ByteString)
  | markDirty (handle : Nat) (pageLsn : Nat)
  | release (handle : Nat)
  | flushPage (key : RelationPage) (fault : Option FlushFault)
  | flushAll (fault : Nat → Option FlushFault)

def step (s : PagePool) : Call → PagePool
  | .fetchPage key fault readFails          => (s.fetchPage key fault readFails).1
  | .newPage relation kind fault readFails  => (s.newPage relation kind fault readFails).1
  | .replaceBytes handle bytes              => (s.replaceBytes handle bytes).1
  | .markDirty handle pageLsn               => (s.markDirty handle pageLsn).1
  | .release handle                         => (s.release handle).1
  | .flushPage key fault                    => (s.flushPage key fault).1
  | .flushAll fault                         => (s.flushAll fault).1

def run (s : PagePool) (calls : List Call) : PagePool := calls.foldl step s

end PagePool

/-! ## The books of the pool -/

namespace BufferPool

variable {p q : BufferPool}

theorem setFrame_key {i : Nat} {f : PoolFrame} (hk : f.key = (p.frames i).key) (j : Nat) :
    ((p.setFrame i f).frames j).key = (p.frames j).key := by
  simp only [setFrame, Function.update_apply]
  split
  · rename_i hj; rw [hk, hj]
  · rfl

theorem setFrame_pinCount {i : Nat} {f : PoolFrame} (hp : f.pinCount = (p.frames i).pinCount) (j : Nat) :
    ((p.setFrame i f).frames j).pinCount = (p.frames j).pinCount := by
  simp only [setFrame, Function.update_apply]
  split
  · rename_i hj; rw [hp, hj]
  · rfl

theorem guardedFrame_ok {g : PageGuard} {f : PoolFrame} (h : p.guardedFrame g = .ok f) :
    f = p.frames g.frameId ∧ (p.frames g.frameId).key = some g.key ∧ 0 < (p.frames g.frameId).pinCount := by
  unfold guardedFrame at h
  simp only at h
  split at h
  · exact absurd h raise_ne_ok
  · rename_i hg
    cases h
    obtain ⟨hkey, hpin⟩ := not_or.1 hg
    exact ⟨rfl, not_not.1 hkey, Nat.pos_of_ne_zero hpin⟩

theorem guardReplaceBytes_ok {g : PageGuard} {bytes : ByteString} (h : p.guardReplaceBytes g bytes = .ok q) :
    ∃ decoded, decodePage g.key bytes = .ok decoded ∧ (p.frames g.frameId).key = some g.key ∧
      (p.frames g.frameId).pageLsn ≤ decoded.pageLsn ∧
      q = p.setFrame g.frameId { p.frames g.frameId with pageBytes := bytes, pageLsn := decoded.pageLsn } := by
  obtain ⟨frame, hframe, h⟩ := bind_eq_ok.1 h
  obtain ⟨rfl, hkey, -⟩ := guardedFrame_ok hframe
  obtain ⟨decoded, hdec, h⟩ := bind_eq_ok.1 h
  split at h
  · exact absurd h raise_ne_ok
  · rename_i hlsn
    cases h
    exact ⟨decoded, hdec, hkey, Nat.le_of_not_lt hlsn, rfl⟩

theorem guardMarkDirty_ok {g : PageGuard} {lsn : Nat} (h : p.guardMarkDirty g lsn = .ok q) :
    ∃ decoded encoded, decodePage g.key (p.frames g.frameId).pageBytes = .ok decoded ∧
      encodePage g.key decoded.kind lsn decoded.body = .ok encoded ∧ (p.frames g.frameId).key = some g.key ∧
      (p.frames g.frameId).pageLsn ≤ lsn ∧
      q = p.setFrame g.frameId { p.frames g.frameId with pageBytes := encoded, pageLsn := lsn, dirty := true } := by
  obtain ⟨frame, hframe, h⟩ := bind_eq_ok.1 h
  obtain ⟨rfl, hkey, -⟩ := guardedFrame_ok hframe
  split at h
  · exact absurd h raise_ne_ok
  · rename_i hlsn
    obtain ⟨decoded, hdec, h⟩ := bind_eq_ok.1 h
    obtain ⟨encoded, henc, h⟩ := bind_eq_ok.1 h
    cases h
    exact ⟨decoded, encoded, hdec, henc, hkey, Nat.le_of_not_lt hlsn, rfl⟩

theorem releaseGuard_ok {g : PageGuard} (h : p.releaseGuard g = .ok q) : (p.frames g.frameId).key = some g.key ∧
    q = { p.setFrame g.frameId { p.frames g.frameId with pinCount := (p.frames g.frameId).pinCount - 1 } with
      clock := if (p.frames g.frameId).pinCount - 1 = 0 then p.clock.markEvictable g.frameId true else p.clock } := by
  obtain ⟨frame, hframe, h⟩ := bind_eq_ok.1 h
  obtain ⟨rfl, hkey, -⟩ := guardedFrame_ok hframe
  cases h
  refine ⟨hkey, ?_⟩
  split <;> rfl

/-- The free list and the marks of the clock, but for a frame that `fetch_page` works on. -/
structure Booked (p : BufferPool) (out : Option Nat) : Prop where
  count    : p.clock.frameCount = p.frameCount
  hand     : 0 < p.frameCount → p.clock.hand < p.frameCount
  inRange  : ∀ i, (p.frames i).key ≠ none → i < p.frameCount
  freeIn   : ∀ i ∈ p.freeFrames, i < p.frameCount
  outIn    : ∀ i, out = some i → i < p.frameCount
  empty    : ∀ i < p.frameCount, out ≠ some i → (p.frames i).key = none → i ∈ p.freeFrames
  offered  : ∀ i, out ≠ some i → (p.frames i).key ≠ none → (p.frames i).pinCount = 0 → p.clock.evictable i = true
  resident : ∀ i, p.clock.evictable i = true → (p.frames i).key ≠ none

theorem booked_new (frameCount : Nat) : Booked (new frameCount) none :=
  ⟨rfl, fun h => h, fun _ h => absurd rfl h, fun _ h => List.mem_range.1 h, fun _ h => (by cases h),
    fun i hi _ _ => List.mem_range.2 hi, fun _ _ h => absurd rfl h, fun _ h => by cases h⟩

namespace Booked

variable {p : BufferPool} {out : Option Nat}

theorem reframed (h : Booked p out) {q : BufferPool} (hk : ∀ i, (q.frames i).key = (p.frames i).key)
    (hp : ∀ i, (q.frames i).pinCount = (p.frames i).pinCount) (hc : q.clock = p.clock) (hn : q.frameCount = p.frameCount)
    (hf : q.freeFrames = p.freeFrames) : Booked q out := by
  refine ⟨?_, ?_, ?_, ?_, ?_, ?_, ?_, ?_⟩
  · rw [hc, hn]; exact h.count
  · rw [hc, hn]; exact h.hand
  · intro i; rw [hk, hn]; exact h.inRange i
  · intro i; rw [hf, hn]; exact h.freeIn i
  · intro i; rw [hn]; exact h.outIn i
  · intro i; rw [hn, hk, hf]; exact h.empty i
  · intro i; rw [hk, hp, hc]; exact h.offered i
  · intro i; rw [hc, hk]; exact h.resident i

theorem setFrame (h : Booked p out) {i : Nat} {f : PoolFrame} (hk : f.key = (p.frames i).key)
    (hp : f.pinCount = (p.frames i).pinCount) : Booked (p.setFrame i f) out :=
  h.reframed (setFrame_key hk) (setFrame_pinCount hp) rfl rfl rfl

/-- **A frame is taken out of the books, unless every frame is pinned.** -/
theorem selectFrame (h : Booked p none) : ∃ q choice, p.selectFrame = (q, choice) ∧ Booked q (choice.map Prod.fst) ∧
    q.frameCount = p.frameCount ∧ (∀ i, choice = some (i, false) → (p.frames i).key ≠ none) ∧
    (choice = none → ∀ i < p.frameCount, 0 < (p.frames i).pinCount) := by
  cases hfree : p.freeFrames with
  | cons i rest =>
    have hi : i ∈ p.freeFrames := by rw [hfree]; exact List.mem_cons_self
    refine ⟨{ p with freeFrames := rest }, some (i, true), by simp only [BufferPool.selectFrame, hfree], ?_, rfl,
      fun j hj => (by cases hj), fun hn => (by cases hn)⟩
    refine ⟨h.count, h.hand, h.inRange, fun j hj => h.freeIn j (by rw [hfree]; exact List.mem_cons_of_mem _ hj), fun j hj => ?_,
      fun j hj hne hk => ?_, fun j _ hk hp => h.offered j (by simp) hk hp, h.resident⟩
    · cases hj
      exact h.freeIn i hi
    · have hmem := h.empty j hj (by simp) hk
      rw [hfree] at hmem
      exact (List.mem_cons.1 hmem).resolve_left (fun he => hne (by rw [he]; rfl))
  | nil =>
    have hnone := ClockReplacer.sweep_none (p.clock.frameCount * 2) p.clock
    obtain ⟨hcount, hhand⟩ := ClockReplacer.sweep_frame (p.clock.frameCount * 2) p.clock
    refine ⟨{ p with clock := p.clock.evict.1 }, p.clock.evict.2.map (fun i => (i, false)),
      by simp only [BufferPool.selectFrame, hfree], ?_, rfl, fun j hj => ?_, fun hn j hj => ?_⟩
    · have hclock : p.clock.evict.1.frameCount = p.frameCount := by rw [ClockReplacer.evict, hcount, h.count]
      have hhand' : 0 < p.frameCount → p.clock.evict.1.hand < p.frameCount := fun hpos =>
        (hhand (by rw [h.count]; exact h.hand hpos)).trans_eq h.count
      have hempty : ∀ j < p.frameCount, (p.frames j).key = none → False := fun j hj hk => by
        have := h.empty j hj (by simp) hk
        rw [hfree] at this
        cases this
      rcases ClockReplacer.sweep_cases (p.clock.frameCount * 2) p.clock with ⟨hno, he⟩ | ⟨i, hi, hev, he⟩
      · rw [ClockReplacer.evict] at hclock hhand' ⊢
        rw [hno]
        refine ⟨hclock, hhand', h.inRange, h.freeIn, fun j hj => (by cases hj), fun j hj _ hk => (hempty j hj hk).elim,
          fun j _ hk hp => ?_, fun j hj => h.resident j ?_⟩
        · rw [he]
          exact h.offered j (by simp) hk hp
        · rw [← he]
          exact hj
      · rw [ClockReplacer.evict] at hclock hhand' ⊢
        rw [hi]
        refine ⟨hclock, hhand', h.inRange, h.freeIn, fun j hj => ?_, fun j hj _ hk => (hempty j hj hk).elim,
          fun j hne hk hp => ?_, fun j hj => ?_⟩
        · cases hj
          exact h.inRange i (h.resident i hev)
        · rw [he, Function.update_of_ne (fun hj => hne (by rw [hj]; rfl))]
          exact h.offered j (by simp) hk hp
        · rw [he, Function.update_apply] at hj
          split at hj
          · cases hj
          · exact h.resident j hj
    · obtain ⟨i, hi, he⟩ := Option.map_eq_some_iff.1 hj
      cases he
      rcases ClockReplacer.sweep_cases (p.clock.frameCount * 2) p.clock with ⟨hno, -⟩ | ⟨i', hi', hev, -⟩
      · cases hi.symm.trans hno
      · cases hi.symm.trans hi'
        exact h.resident j hev
    · have hpos : 0 < p.frameCount := Nat.zero_lt_of_lt hj
      have hev : (p.frames j).key ≠ none := fun hk => by
        have := h.empty j hj (by simp) hk
        rw [hfree] at this
        cases this
      by_contra hp
      have hoff := h.offered j (by simp) hev (by omega)
      have hle := hnone (by rw [h.count]; exact h.hand hpos) (Option.map_eq_none_iff.1 hn) j (by rw [h.count]; exact hj) hoff
      have hhand := h.hand hpos
      rw [ClockReplacer.distance, h.count] at hle
      split at hle <;> split at hle <;> omega

theorem giveBack {i : Nat} {free : Bool} (h : Booked p (some i)) (hk : free = false → (p.frames i).key ≠ none)
    (hf : free = true → (p.frames i).key = none) : Booked (p.giveBack i free) none := by
  unfold BufferPool.giveBack
  split
  · rename_i hfree
    refine ⟨h.count, h.hand, h.inRange, fun j hj => ?_, fun _ he => (by cases he), fun j hj _ hkey => ?_,
      fun j _ hkey hp => h.offered j (fun he => ?_) hkey hp, h.resident⟩
    · rcases List.mem_cons.1 hj with rfl | hj
      · exact h.outIn j rfl
      · exact h.freeIn j hj
    · by_cases he : i = j
      · rw [he]; exact List.mem_cons_self
      · exact List.mem_cons_of_mem _ (h.empty j hj (fun hc => he (Option.some.inj hc)) hkey)
    · rw [← Option.some.inj he, hf hfree] at hkey
      exact hkey rfl
  · rename_i hfree
    have hki := hk (by simpa using hfree)
    refine ⟨h.count, h.hand, h.inRange, h.freeIn, fun _ he => (by cases he), fun j hj _ hkey => ?_,
      fun j _ hkey hp => ?_, fun j hj => ?_⟩
    · refine h.empty j hj (fun he => ?_) hkey
      rw [← Option.some.inj he] at hkey
      exact hki hkey
    · simp only [ClockReplacer.markEvictable, Function.update_apply]
      split
      · rfl
      · rename_i hne
        exact h.offered j (fun he => hne (Option.some.inj he).symm) hkey hp
    · simp only [ClockReplacer.markEvictable, Function.update_apply] at hj
      split at hj
      · rename_i he; rw [he]; exact hki
      · exact h.resident j hj

theorem load {i : Nat} (h : Booked p (some i)) (key : RelationPage) (bytes : ByteString) (lsn : Nat) :
    Booked (p.load i key bytes lsn) none := by
  refine ⟨h.count, h.hand, fun j hj => ?_, h.freeIn, fun _ he => (by cases he), fun j hj _ hkey => ?_,
    fun j _ hkey hp => ?_, fun j hj => ?_⟩
  · by_cases hji : j = i
    · rw [hji]; exact h.outIn i rfl
    · simp only [BufferPool.load, Function.update_of_ne hji] at hj
      exact h.inRange j hj
  · by_cases hji : j = i
    · simp only [BufferPool.load, hji, Function.update_self] at hkey
      cases hkey
    · simp only [BufferPool.load, Function.update_of_ne hji] at hkey
      exact h.empty j hj (fun he => hji (Option.some.inj he).symm) hkey
  · by_cases hji : j = i
    · simp only [BufferPool.load, hji, Function.update_self] at hp
      cases hp
    · simp only [BufferPool.load, Function.update_of_ne hji] at hkey hp
      simp only [BufferPool.load, ClockReplacer.markEvictable, ClockReplacer.recordAccess, Function.update_of_ne hji]
      exact h.offered j (fun he => hji (Option.some.inj he).symm) hkey hp
  · simp only [BufferPool.load, ClockReplacer.markEvictable, ClockReplacer.recordAccess, Function.update_apply] at hj ⊢
    split at hj
    · cases hj
    · rename_i hji
      rw [if_neg hji]
      exact h.resident j hj

theorem pin (h : Booked p none) (i : Nat) : Booked (p.pin i) none := by
  have hk : ∀ j, ((p.pin i).frames j).key = (p.frames j).key := setFrame_key rfl
  refine ⟨h.count, h.hand, fun j => ?_, h.freeIn, fun _ he => (by cases he), fun j => ?_, fun j _ hkey hp => ?_, fun j hj => ?_⟩
  · rw [hk]; exact h.inRange j
  · rw [hk]; exact h.empty j
  · rw [hk] at hkey
    simp only [BufferPool.pin, BufferPool.setFrame, ClockReplacer.markEvictable, ClockReplacer.recordAccess,
      Function.update_apply] at hp ⊢
    split at hp
    · cases hp
    · rename_i hji
      rw [if_neg hji]
      exact h.offered j (by simp) hkey hp
  · rw [hk]
    simp only [BufferPool.pin, BufferPool.setFrame, ClockReplacer.markEvictable, ClockReplacer.recordAccess,
      Function.update_apply] at hj
    split at hj
    · cases hj
    · exact h.resident j hj

theorem releaseGuard (h : Booked p none) {g : PageGuard} {q : BufferPool} (hq : p.releaseGuard g = .ok q) : Booked q none := by
  obtain ⟨hki, rfl⟩ := releaseGuard_ok hq
  have hk := setFrame_key (p := p) (i := g.frameId)
    (f := { p.frames g.frameId with pinCount := (p.frames g.frameId).pinCount - 1 }) rfl
  have hev : ∀ j, (if (p.frames g.frameId).pinCount - 1 = 0 then p.clock.markEvictable g.frameId true else p.clock).evictable j =
      if j = g.frameId ∧ (p.frames g.frameId).pinCount - 1 = 0 then true else p.clock.evictable j := by
    intro j
    by_cases hz : (p.frames g.frameId).pinCount - 1 = 0
    · rw [if_pos hz]
      simp only [ClockReplacer.markEvictable, Function.update_apply, hz, and_true]
    · rw [if_neg hz, if_neg (fun hc => hz hc.2)]
  refine ⟨?_, ?_, fun j => ?_, h.freeIn, fun _ he => (by cases he), fun j => ?_, fun j _ hkey hp => ?_, fun j hj => ?_⟩
  · split <;> exact h.count
  · split <;> exact h.hand
  · rw [hk]; exact h.inRange j
  · rw [hk]; exact h.empty j
  · rw [hk] at hkey
    simp only [BufferPool.setFrame, Function.update_apply] at hp
    rw [hev]
    split at hp
    · rename_i hji
      rw [if_pos ⟨hji, hp⟩]
    · rename_i hji
      rw [if_neg (fun hc => hji hc.1)]
      exact h.offered j (by simp) hkey hp
  · rw [hk]
    rw [hev] at hj
    split at hj
    · rename_i hji; rw [hji.1, hki]; simp
    · exact h.resident j hj

end Booked

/-! ### Flushes and live guards -/

/-- A pool that has lost dirty marks, and nothing else. -/
structure Remarked (p q : BufferPool) : Prop where
  frameCount : q.frameCount = p.frameCount
  pageTable  : q.pageTable = p.pageTable
  freeFrames : q.freeFrames = p.freeFrames
  clock      : q.clock = p.clock
  frames     : ∀ i, ∃ dirty, q.frames i = { p.frames i with dirty := dirty } ∧ (dirty = true → (p.frames i).dirty = true)

namespace Remarked

variable {p q r : BufferPool}

theorem refl (p : BufferPool) : Remarked p p := ⟨rfl, rfl, rfl, rfl, fun i => ⟨(p.frames i).dirty, rfl, id⟩⟩

theorem trans (h : Remarked p q) (h' : Remarked q r) : Remarked p r := by
  refine ⟨h'.frameCount.trans h.frameCount, h'.pageTable.trans h.pageTable, h'.freeFrames.trans h.freeFrames,
    h'.clock.trans h.clock, fun i => ?_⟩
  obtain ⟨_, hd, hle⟩ := h.frames i
  obtain ⟨d, hd', hle'⟩ := h'.frames i
  exact ⟨d, by rw [hd', hd], fun ht => hle (by rw [hd] at hle'; exact hle' ht)⟩

theorem clean (p : BufferPool) (i : Nat) : Remarked p (p.setFrame i { p.frames i with dirty := false }) := by
  refine ⟨rfl, rfl, rfl, rfl, fun j => ?_⟩
  by_cases hj : j = i
  · exact ⟨false, by rw [hj]; exact Function.update_self _ _ _, fun h => (by cases h)⟩
  · exact ⟨(p.frames j).dirty, by simp only [BufferPool.setFrame, Function.update_of_ne hj], id⟩

theorem key (h : Remarked p q) (i : Nat) : (q.frames i).key = (p.frames i).key := by
  obtain ⟨_, hd, -⟩ := h.frames i
  rw [hd]

theorem pinCount (h : Remarked p q) (i : Nat) : (q.frames i).pinCount = (p.frames i).pinCount := by
  obtain ⟨_, hd, -⟩ := h.frames i
  rw [hd]

theorem booked (h : Remarked p q) {out : Option Nat} (hb : Booked p out) : Booked q out :=
  hb.reframed h.key h.pinCount h.clock h.frameCount h.freeFrames

theorem held (h : Remarked p q) {guards : List PageGuard} (hh : Held p guards) : Held q guards := by
  refine ⟨fun k i => ?_, fun i => ?_, fun g hg => ?_, fun i hi => ?_, fun i hi => ?_, ?_⟩
  · rw [h.pageTable, h.key]; exact hh.table k i
  · rw [h.pinCount]; exact hh.pins i
  · rw [h.key]; exact hh.held g hg
  · rw [h.clock] at hi; rw [h.pinCount]; exact hh.evictable i hi
  · rw [h.freeFrames] at hi; rw [h.key]; exact hh.free i hi
  · rw [h.freeFrames]; exact hh.nodup

end Remarked

theorem Held.perm {p : BufferPool} {guards guards' : List PageGuard} (h : Held p guards) (hp : guards.Perm guards') :
    Held p guards' :=
  ⟨h.table, fun i => (h.pins i).trans (hp.countP_eq _), fun g hg => h.held g (hp.mem_iff.2 hg), h.evictable, h.free, h.nodup⟩

end BufferPool

/-! ## Every call keeps the books -/

namespace PagePool

open BufferPool (Held Booked Remarked)

variable {s : PagePool}

/-- **The ways out of `_flush_frame`.** -/
theorem flushFrame_cases (s : PagePool) (i : Nat) (fault : Option FlushFault) :
    (∃ r, s.flushFrame i fault = (s, r) ∧ (r = .ok () → (s.pool.frames i).dirty = false)) ∨
    ∃ key disk, (s.pool.frames i).dirty = true ∧ (s.pool.frames i).key = some key ∧
      s.disk.writePage key (s.pool.frames i).pageBytes = .ok disk ∧
      ((∃ e, s.flushFrame i fault = ({ s with disk := disk }, .error e)) ∨
        s.flushFrame i fault =
          ({ s with disk := disk, pool := s.pool.setFrame i { s.pool.frames i with dirty := false } }, .ok ())) := by
  unfold flushFrame
  simp only
  split
  · rename_i hd
    exact .inl ⟨_, rfl, fun _ => hd⟩
  · rename_i hd
    split
    · exact .inl ⟨_, rfl, fun h => absurd h raise_ne_ok⟩
    · rename_i key hkey
      split
      · exact .inl ⟨_, rfl, fun h => absurd h raise_ne_ok⟩
      · split
        · exact .inl ⟨_, rfl, fun h => (by cases h)⟩
        · rename_i disk hw
          refine .inr ⟨key, disk, by simpa using hd, hkey, hw, ?_⟩
          split
          · exact .inl ⟨_, rfl⟩
          · exact .inr rfl

theorem flushFrame_keeps (s : PagePool) (i : Nat) (fault : Option FlushFault) :
    (s.flushFrame i fault).1.handles = s.handles ∧ Remarked s.pool (s.flushFrame i fault).1.pool := by
  rcases s.flushFrame_cases i fault with ⟨r, h, -⟩ | ⟨key, disk, -, -, -, ⟨e, h⟩ | h⟩
  · rw [h]; exact ⟨rfl, .refl _⟩
  · rw [h]; exact ⟨rfl, .refl _⟩
  · rw [h]; exact ⟨rfl, .clean _ _⟩

theorem flushVictim_keeps (s : PagePool) (i : Nat) (fault : Option FlushFault) :
    (if (s.pool.frames i).key.isSome then s.flushFrame i fault else (s, .ok ())).1.handles = s.handles ∧
      Remarked s.pool (if (s.pool.frames i).key.isSome then s.flushFrame i fault else (s, .ok ())).1.pool := by
  split
  · exact s.flushFrame_keeps i fault
  · exact ⟨rfl, .refl _⟩

theorem fill_keeps (s : PagePool) (i : Nat) (key : RelationPage) (fault : Option FlushFault) (readFails : Bool) :
    (s.fill i key fault readFails).1.handles = s.handles ∧ Remarked s.pool (s.fill i key fault readFails).1.pool := by
  have hflush := s.flushVictim_keeps i fault
  unfold fill
  split
  · rename_i s' e heq
    rw [heq] at hflush
    exact hflush
  · rename_i s' u heq
    rw [heq] at hflush
    split
    · exact hflush
    · split
      · exact hflush
      · split <;> exact hflush

theorem raise_kind {α : Type} {kind : ErrorClass} {message : String} {e : Error}
    (h : (raise kind message : Result α) = .error e) : e.kind = kind := by cases h; rfl

theorem decodePage_kind {key : RelationPage} {bytes : ByteString} {e : Error} (h : decodePage key bytes = .error e) :
    e.kind = .corruptPage := by
  unfold decodePage at h
  split at h
  · exact raise_kind h
  · split at h
    · exact raise_kind h
    · split at h
      · exact raise_kind h
      · split at h
        · repeat' split at h
          all_goals first | exact raise_kind h | cases h
        · exact raise_kind h

theorem writePage_kind {disk : RelationFiles} {key : RelationPage} {bytes : ByteString} {e : Error}
    (h : disk.writePage key bytes = .error e) : e.kind = .corruptPage := by
  unfold RelationFiles.writePage at h
  cases hd : decodePage key bytes with
  | error e' => rw [hd] at h; cases h; exact decodePage_kind hd
  | ok decoded =>
    rw [hd] at h
    simp only [bind, Except.bind] at h
    split at h
    · exact raise_kind h
    · cases h

theorem readPage_kind {disk : RelationFiles} {key : RelationPage} {e : Error} (h : disk.readPage key = .error e) :
    e.kind = .corruptPage := by
  unfold RelationFiles.readPage at h
  split at h
  · exact raise_kind h
  · rename_i encoded _
    cases hd : decodePage key encoded with
    | error e' => rw [hd] at h; cases h; exact decodePage_kind hd
    | ok decoded => rw [hd] at h; cases h

theorem flushFrame_kind {i : Nat} {fault : Option FlushFault} {e : Error} (h : (s.flushFrame i fault).2 = .error e) :
    e.kind ≠ .bufferPoolFull := by
  unfold flushFrame at h
  simp only at h
  split at h
  · cases h
  · split at h
    · rw [raise_kind h]; decide
    · split at h
      · rw [raise_kind h]; decide
      · split at h
        · rename_i e' hw
          cases h
          rw [writePage_kind hw]
          decide
        · split at h
          · rw [raise_kind h]; decide
          · cases h

theorem fill_kind {i : Nat} {key : RelationPage} {fault : Option FlushFault} {readFails : Bool} {e : Error}
    (h : (s.fill i key fault readFails).2 = .error e) : e.kind ≠ .bufferPoolFull := by
  have hflush : ∀ e', (if (s.pool.frames i).key.isSome then s.flushFrame i fault else (s, .ok ())).2 = .error e' →
      e'.kind ≠ .bufferPoolFull := by
    intro e' he
    split at he
    · exact flushFrame_kind he
    · cases he
  unfold fill at h
  split at h
  · rename_i s' e' heq
    cases h
    exact hflush e (by rw [heq])
  · split at h
    · rw [raise_kind h]; decide
    · split at h
      · rename_i e' hr
        cases h
        rw [readPage_kind hr]
        decide
      · split at h
        · rename_i e' hd
          cases h
          rw [decodePage_kind hd]
          decide
        · cases h

theorem flushFrames_keeps (fault : Nat → Option FlushFault) : ∀ (frames : List Nat) (s : PagePool),
    (flushFrames fault frames s).1.handles = s.handles ∧ Remarked s.pool (flushFrames fault frames s).1.pool
  | [], s        => ⟨rfl, .refl _⟩
  | i :: rest, s => by
    have hflush := s.flushVictim_keeps i (fault i)
    unfold flushFrames
    split
    · rename_i s' e heq
      rw [heq] at hflush
      exact hflush
    · rename_i s' u heq
      rw [heq] at hflush
      obtain ⟨h1, h2⟩ := flushFrames_keeps fault rest s'
      exact ⟨h1.trans hflush.1, hflush.2.trans h2⟩

/-- The pins of the frames are those of the guards, and the books agree. -/
structure Inv (s : PagePool) : Prop where
  held   : Held s.pool s.live
  booked : Booked s.pool none

theorem inv_start (frameCount : Nat) (disk : RelationFiles) : Inv (start frameCount disk) :=
  ⟨BufferPool.held_new frameCount, BufferPool.booked_new frameCount⟩

theorem live_append (handles : List GuardHandle) (g : PageGuard) (disk : RelationFiles) (pool : BufferPool) :
    (g :: (⟨disk, pool, handles⟩ : PagePool).live).Perm (⟨disk, pool, handles ++ [⟨g, false⟩]⟩ : PagePool).live := by
  simp only [live, List.filter_append, List.map_append]
  exact (List.perm_append_singleton _ _).symm

theorem live_set (disk : RelationFiles) (pool : BufferPool) : ∀ (handles : List GuardHandle) (n : Nat) (h : GuardHandle),
    handles[n]? = some h → h.released = false → (⟨disk, pool, handles⟩ : PagePool).live.Perm
      (h.guard :: (⟨disk, pool, handles.set n { h with released := true }⟩ : PagePool).live)
  | [], n, h, hn, _              => by cases hn
  | h' :: handles, 0, h, hn, hr  => by
    cases hn
    simp only [live, List.set_cons_zero, List.filter_cons, hr]
    exact List.Perm.refl _
  | h' :: handles, n + 1, h, hn, hr => by
    have hrest := live_set disk pool handles n h hn hr
    simp only [live, List.set_cons_succ, List.filter_cons] at hrest ⊢
    split
    · exact (List.Perm.cons _ hrest).trans (List.Perm.swap _ _ _)
    · exact hrest

theorem active_live {n : Nat} {g : PageGuard} (h : s.active n = .ok g) : g ∈ s.live := by
  unfold active at h
  split at h
  · exact absurd h raise_ne_ok
  · rename_i handle hn
    split at h
    · exact absurd h raise_ne_ok
    · rename_i hr
      cases h
      exact List.mem_map_of_mem (List.mem_filter.2 ⟨List.mem_of_getElem? hn, by simpa using hr⟩)

namespace Inv

theorem keeps (h : Inv s) {s' : PagePool} (hk : s'.handles = s.handles ∧ Remarked s.pool s'.pool) : Inv s' := by
  obtain ⟨disk', pool', handles'⟩ := s'
  obtain ⟨rfl, hm⟩ := hk
  exact ⟨hm.held h.held, hm.booked h.booked⟩

theorem setFrame (h : Inv s) {i : Nat} {f : PoolFrame} (hk : f.key = (s.pool.frames i).key)
    (hp : f.pinCount = (s.pool.frames i).pinCount) : Inv { s with pool := s.pool.setFrame i f } :=
  ⟨h.held.setFrame hk hp, h.booked.setFrame hk hp⟩

theorem give {pool : BufferPool} {g : PageGuard} (hh : Held pool (g :: s.live)) (hb : Booked pool none) :
    Inv (s.give pool g).1 := ⟨hh.perm (live_append s.handles g s.disk s.pool), hb⟩

theorem fetchPage (h : Inv s) (key : RelationPage) (fault : Option FlushFault) (readFails : Bool) :
    Inv (s.fetchPage key fault readFails).1 := by
  unfold PagePool.fetchPage
  split
  · rename_i i hi
    exact give (h.held.pin hi) (h.booked.pin i)
  · rename_i hnone
    obtain ⟨q, choice, hsel, hheld, hframes, htable, hfree⟩ := h.held.selectFrame
    obtain ⟨q', choice', hsel', hbooked, -, hres, -⟩ := h.booked.selectFrame
    cases hsel.symm.trans hsel'
    rw [hsel]
    cases choice with
    | none => exact ⟨hheld, hbooked⟩
    | some choice =>
      obtain ⟨i, free⟩ := choice
      obtain ⟨hpin, hnot, hkey⟩ := hfree i free rfl
      have hkeeps := ({ s with pool := q } : PagePool).fill_keeps i key fault readFails
      simp only
      split
      · rename_i s' e heq
        rw [heq] at hkeeps
        obtain ⟨disk', pool', handles'⟩ := s'
        obtain ⟨rfl, hm⟩ := hkeeps
        refine ⟨(hm.held hheld).giveBack (by rw [hm.pinCount, hframes]; exact hpin) (by rw [hm.freeFrames]; exact hnot)
          (fun hf => by rw [hm.key, hframes]; exact hkey hf),
          (hm.booked hbooked).giveBack (fun hf => ?_) (fun hf => by rw [hm.key, hframes]; exact hkey hf)⟩
        rw [hm.key, hframes]
        exact hres i (by rw [hf])
      · rename_i s' page lsn heq
        rw [heq] at hkeeps
        obtain ⟨disk', pool', handles'⟩ := s'
        obtain ⟨rfl, hm⟩ := hkeeps
        refine give ((hm.held hheld).load (by rw [hm.pinCount, hframes]; exact hpin) (by rw [hm.freeFrames]; exact hnot)
          ?_ page lsn) ((hm.booked hbooked).load key page lsn)
        rw [hm.pageTable, htable]
        exact hnone

theorem newPage (h : Inv s) (relation : RelationId) (kind : Option PageKind) (fault : Option FlushFault) (readFails : Bool) :
    Inv (s.newPage relation kind fault readFails).1 := by
  unfold PagePool.newPage
  split
  · exact h
  · rename_i disk key _
    exact fetchPage (s := ⟨disk, s.pool, s.handles⟩) ⟨h.held, h.booked⟩ key fault readFails

theorem replaceBytes (h : Inv s) (n : Nat) (bytes : ByteString) : Inv (s.replaceBytes n bytes).1 := by
  unfold PagePool.replaceBytes
  split
  · exact h
  · rename_i pool heq
    obtain ⟨g, -, heq⟩ := bind_eq_ok.1 heq
    obtain ⟨decoded, -, -, -, rfl⟩ := BufferPool.guardReplaceBytes_ok heq
    exact h.setFrame rfl rfl

theorem markDirty (h : Inv s) (n : Nat) (lsn : Nat) : Inv (s.markDirty n lsn).1 := by
  unfold PagePool.markDirty
  split
  · exact h
  · rename_i pool heq
    obtain ⟨g, -, heq⟩ := bind_eq_ok.1 heq
    obtain ⟨decoded, encoded, -, -, -, -, rfl⟩ := BufferPool.guardMarkDirty_ok heq
    exact h.setFrame rfl rfl

theorem release (h : Inv s) (n : Nat) : Inv (s.release n).1 := by
  unfold PagePool.release
  split
  · exact h
  · rename_i handle hn
    split
    · exact h
    · rename_i hr
      split
      · exact h
      · rename_i pool hrel
        have hset := live_set s.disk s.pool s.handles n handle hn (by simpa using hr)
        have hmem : handle.guard ∈ s.live := hset.mem_iff.2 List.mem_cons_self
        obtain ⟨q, hq, hheld, -⟩ := h.held.releaseGuard hmem
        cases hq.symm.trans hrel
        refine ⟨hheld.perm ?_, h.booked.releaseGuard hrel⟩
        have herase := hset.erase handle.guard
        rw [List.erase_cons_head] at herase
        exact herase

/-- **Every call keeps the books**, also one that raises. -/
theorem step (h : Inv s) (call : Call) : Inv (s.step call) := by
  cases call with
  | fetchPage key fault readFails         => exact h.fetchPage key fault readFails
  | newPage relation kind fault readFails => exact h.newPage relation kind fault readFails
  | replaceBytes n bytes                  => exact h.replaceBytes n bytes
  | markDirty n lsn                       => exact h.markDirty n lsn
  | release n                             => exact h.release n
  | flushPage key fault                   =>
    simp only [PagePool.step, PagePool.flushPage]
    split
    · exact h
    · exact h.keeps (s.flushFrame_keeps _ fault)
  | flushAll fault                        => exact h.keeps (flushFrames_keeps fault _ s)

theorem run (h : Inv s) (calls : List Call) : Inv (s.run calls) := by
  induction calls generalizing s with
  | nil => exact h
  | cons call calls ih => exact ih (h.step call)

end Inv

/-! ## Pinned frames -/

/-- No frame is added, and the pinned ones keep their pages. -/
structure Pinned (s s' : PagePool) : Prop where
  frameCount : s'.pool.frameCount = s.pool.frameCount
  key        : ∀ i, 0 < (s.pool.frames i).pinCount → (s'.pool.frames i).key = (s.pool.frames i).key

theorem Pinned.refl (s : PagePool) : Pinned s s := ⟨rfl, fun _ _ => rfl⟩

theorem Pinned.keeps {s' : PagePool} (h : s'.handles = s.handles ∧ Remarked s.pool s'.pool) : Pinned s s' :=
  ⟨h.2.frameCount, fun i _ => h.2.key i⟩

namespace Inv

theorem fetchPage_pinned (h : Inv s) (key : RelationPage) (fault : Option FlushFault) (readFails : Bool) :
    Pinned s (s.fetchPage key fault readFails).1 := by
  unfold PagePool.fetchPage
  split
  · exact ⟨rfl, fun j _ => BufferPool.setFrame_key (by rfl) j⟩
  · obtain ⟨q, choice, hsel, -, hframes, -, hfree⟩ := h.held.selectFrame
    obtain ⟨q', choice', hsel', -, hcount, -, -⟩ := h.booked.selectFrame
    cases hsel.symm.trans hsel'
    rw [hsel]
    cases choice with
    | none => exact ⟨hcount, fun i _ => by simp only [hframes]⟩
    | some choice =>
      obtain ⟨i, free⟩ := choice
      obtain ⟨hpin, -, -⟩ := hfree i free rfl
      have hkeeps := ({ s with pool := q } : PagePool).fill_keeps i key fault readFails
      simp only
      split
      · rename_i s' e heq
        rw [heq] at hkeeps
        refine ⟨?_, fun j _ => ?_⟩
        · unfold BufferPool.giveBack
          split <;> exact hkeeps.2.frameCount.trans hcount
        · have hkey : ((s'.pool.giveBack i free).frames j).key = (s'.pool.frames j).key := by
            unfold BufferPool.giveBack
            split <;> rfl
          rw [hkey, hkeeps.2.key j]
          simp only [hframes]
      · rename_i s' page lsn heq
        rw [heq] at hkeeps
        refine ⟨hkeeps.2.frameCount.trans hcount, fun j hj => ?_⟩
        have hne : j ≠ i := fun he => by rw [he, hpin] at hj; cases hj
        simp only [PagePool.give, BufferPool.load, Function.update_of_ne hne]
        rw [hkeeps.2.key j]
        simp only [hframes]

/-- **A fetch finds every frame pinned when it says so.** -/
theorem fetchPage_full (h : Inv s) {key : RelationPage} {fault : Option FlushFault} {readFails : Bool} {e : Error}
    (he : (s.fetchPage key fault readFails).2 = .error e) (hfull : e.kind = .bufferPoolFull) :
    ∀ i < s.pool.frameCount, 0 < (s.pool.frames i).pinCount := by
  unfold PagePool.fetchPage at he
  split at he
  · cases he
  · obtain ⟨q, choice, hsel, -, -, -, hnone⟩ := h.booked.selectFrame
    rw [hsel] at he
    cases choice with
    | none => exact hnone rfl
    | some choice =>
      obtain ⟨i, free⟩ := choice
      simp only at he
      split at he
      · rename_i s' e' heq
        cases he
        exact absurd hfull (fill_kind (by rw [heq]))
      · cases he

/-- **A pinned frame is never evicted.** -/
theorem step_pinned (h : Inv s) (call : Call) : Pinned s (s.step call) := by
  cases call with
  | fetchPage key fault readFails => exact h.fetchPage_pinned key fault readFails
  | newPage relation kind fault readFails =>
    simp only [PagePool.step, PagePool.newPage]
    split
    · exact .refl s
    · rename_i disk key _
      have hpinned := fetchPage_pinned (s := ⟨disk, s.pool, s.handles⟩) ⟨h.held, h.booked⟩ key fault readFails
      exact ⟨hpinned.frameCount, hpinned.key⟩
  | replaceBytes n bytes =>
    simp only [PagePool.step, PagePool.replaceBytes]
    split
    · exact .refl s
    · rename_i pool heq
      obtain ⟨g, -, heq⟩ := bind_eq_ok.1 heq
      obtain ⟨decoded, -, -, -, rfl⟩ := BufferPool.guardReplaceBytes_ok heq
      exact ⟨rfl, fun j _ => BufferPool.setFrame_key (by rfl) j⟩
  | markDirty n lsn =>
    simp only [PagePool.step, PagePool.markDirty]
    split
    · exact .refl s
    · rename_i pool heq
      obtain ⟨g, -, heq⟩ := bind_eq_ok.1 heq
      obtain ⟨decoded, encoded, -, -, -, -, rfl⟩ := BufferPool.guardMarkDirty_ok heq
      exact ⟨rfl, fun j _ => BufferPool.setFrame_key (by rfl) j⟩
  | release n =>
    simp only [PagePool.step, PagePool.release]
    split
    · exact .refl s
    · split
      · exact .refl s
      · split
        · exact .refl s
        · rename_i pool hrel
          obtain ⟨-, rfl⟩ := BufferPool.releaseGuard_ok hrel
          exact ⟨rfl, fun j _ => BufferPool.setFrame_key (by rfl) j⟩
  | flushPage key fault =>
    simp only [PagePool.step, PagePool.flushPage]
    split
    · exact .refl s
    · exact .keeps (s.flushFrame_keeps _ fault)
  | flushAll fault => exact .keeps (flushFrames_keeps fault _ s)

end Inv

/-! ## The bookkeeping of every reachable state -/

/-- **The books of the pool**: page table, pins, free list and clock say the same of every frame. -/
structure Bookkeeping (s : PagePool) : Prop where
  table     : ∀ k i, s.pool.pageTable k = some i ↔ i < s.pool.frameCount ∧ (s.pool.frames i).key = some k
  single    : ∀ k i j, (s.pool.frames i).key = some k → (s.pool.frames j).key = some k → i = j
  distinct  : ∀ k k' i, s.pool.pageTable k = some i → s.pool.pageTable k' = some i → k = k'
  pins      : ∀ i, (s.pool.frames i).pinCount = s.handles.countP (fun h => !h.released && h.guard.frameId == i)
  owned     : ∀ h ∈ s.handles, h.released = false → (s.pool.frames h.guard.frameId).key = some h.guard.key
  place     : ∀ i < s.pool.frameCount, (i ∈ s.pool.freeFrames ∧ (s.pool.frames i).key = none) ∨
    (i ∉ s.pool.freeFrames ∧ ∃ k, s.pool.pageTable k = some i)
  free      : s.pool.freeFrames.Nodup ∧ ∀ i ∈ s.pool.freeFrames, i < s.pool.frameCount
  evictable : ∀ i, (s.pool.frames i).key ≠ none → (s.pool.clock.evictable i = true ↔ (s.pool.frames i).pinCount = 0)
  pinned    : ∀ i call, 0 < (s.pool.frames i).pinCount → ((s.step call).pool.frames i).key = (s.pool.frames i).key
  full      : ∀ key fault readFails e, (s.fetchPage key fault readFails).2 = .error e → e.kind = .bufferPoolFull →
    ∀ i < s.pool.frameCount, 0 < (s.pool.frames i).pinCount

theorem Inv.bookkeeping (h : Inv s) : Bookkeeping s := by
  refine ⟨fun k i => ?_, fun k i j hi hj => ?_, fun k k' i hk hk' => ?_, fun i => ?_, fun g hg hr => ?_, fun i hi => ?_,
    ⟨h.held.nodup, h.booked.freeIn⟩, fun i hk => ?_, fun i call => (h.step_pinned call).key i, ?_⟩
  · rw [h.held.table]
    exact ⟨fun hk => ⟨h.booked.inRange i (by rw [hk]; simp), hk⟩, fun hk => hk.2⟩
  · exact Option.some.inj (((h.held.table k i).2 hi).symm.trans ((h.held.table k j).2 hj))
  · exact Option.some.inj (((h.held.table k i).1 hk).symm.trans ((h.held.table k' i).1 hk'))
  · rw [h.held.pins, live, List.countP_map, List.countP_filter]
    exact List.countP_congr (by simp [and_comm])
  · exact h.held.held g.guard (List.mem_map_of_mem (List.mem_filter.2 ⟨hg, by simp [hr]⟩))
  · cases hk : (s.pool.frames i).key with
    | none   => exact .inl ⟨h.booked.empty i hi (by simp) hk, rfl⟩
    | some k => exact .inr ⟨fun hf => (by rw [h.held.free i hf] at hk; cases hk), k, (h.held.table k i).2 hk⟩
  · exact ⟨h.held.evictable i, h.booked.offered i (by simp) hk⟩
  · exact fun key fault readFails e he hfull => h.fetchPage_full he hfull

/-- **Whatever calls were made and wherever they failed, the books agree.** -/
theorem run_bookkeeping (frameCount : Nat) (disk : RelationFiles) (calls : List Call) :
    ((start frameCount disk).run calls).pool.frameCount = frameCount ∧ Bookkeeping ((start frameCount disk).run calls) := by
  refine ⟨?_, ((inv_start frameCount disk).run calls).bookkeeping⟩
  have hcount : ∀ (calls : List Call) (s : PagePool), Inv s → (s.run calls).pool.frameCount = s.pool.frameCount := by
    intro calls
    induction calls with
    | nil => exact fun s _ => rfl
    | cons call calls ih => exact fun s h => (ih _ (h.step call)).trans (h.step_pinned call).frameCount
  exact hcount calls _ (inv_start frameCount disk)

end PagePool

end MiniPostgres
