import MiniPostgres.PagePool
/-!
# Transparency — a buffer pool shows the pages as they were installed

The purpose of the pool: a map from pages to bytes.  A new page has the bytes its allocation wrote, `replace_bytes` installs bytes
and `mark_dirty` stamps their LSN; nothing else changes a page.  Guards read that map whatever was evicted and flushed, also after
calls that raise, and `flush_all` writes it to the disk.
-/
namespace MiniPostgres

/-! ## What the pool is for -/

/-- The bytes of the pages, and the pages that were replaced and are not marked dirty yet. -/
structure Contents where
  bytes   : RelationPage → Option ByteString
  pending : RelationPage → Bool

namespace Contents

def stamp (key : RelationPage) (pageLsn : Nat) (bytes : ByteString) : Option ByteString :=
  match decodePage key bytes with
  | .error _    => none
  | .ok decoded =>
    match encodePage key decoded.kind pageLsn decoded.body with
    | .error _    => none
    | .ok encoded => some encoded

/-- A page that `new_page` allocates has the bytes of its allocation. -/
def allocate (c : Contents) (s : PagePool) (relation : RelationId) (kind : Option PageKind) : Contents :=
  match s.disk.allocatePage relation kind with
  | .error _        => c
  | .ok (disk, key) => { c with bytes := Function.update c.bytes key (disk.pageAt key) }

/-- The bytes that `replace_bytes` accepts. -/
def install (c : Contents) (s : PagePool) (handle : Nat) (bytes : ByteString) : Contents :=
  match s.active handle, (s.replaceBytes handle bytes).2 with
  | .ok guard, .ok _ => ⟨Function.update c.bytes guard.key (some bytes), Function.update c.pending guard.key true⟩
  | _, _             => c

/-- The LSN that `mark_dirty` accepts. -/
def mark (c : Contents) (s : PagePool) (handle : Nat) (pageLsn : Nat) : Contents :=
  match s.active handle, (s.markDirty handle pageLsn).2 with
  | .ok guard, .ok _ =>
    ⟨Function.update c.bytes guard.key ((c.bytes guard.key).bind (stamp guard.key pageLsn)),
      Function.update c.pending guard.key false⟩
  | _, _             => c

/-- What a call means for the pages.  A fetch, a release and a flush mean nothing, whether they raise or not. -/
def call (c : Contents) (s : PagePool) : PagePool.Call → Contents
  | .newPage relation kind _ _  => c.allocate s relation kind
  | .replaceBytes handle bytes  => c.install s handle bytes
  | .markDirty handle pageLsn   => c.mark s handle pageLsn
  | _                           => c

/-- A replaced page is marked dirty before its guard is released. -/
def Allows (c : Contents) (s : PagePool) : PagePool.Call → Prop
  | .release handle => ∀ guard, s.active handle = .ok guard → c.pending guard.key = false
  | _               => True

end Contents

/-- The states of a pool over its disk, with what was installed in the pages. -/
inductive PoolRun (frameCount : Nat) (disk : RelationFiles) : PagePool → Contents → Prop
  | start : PoolRun frameCount disk (.start frameCount disk) ⟨disk.pageAt, fun _ => false⟩
  | step {s : PagePool} {c : Contents} (h : PoolRun frameCount disk s c) (call : PagePool.Call) (ok : c.Allows s call) :
      PoolRun frameCount disk (s.step call) (c.call s call)

/-! ## The invariant -/

namespace PagePool

open BufferPool (Held Booked Remarked)

/-- Resident pages are in their frames, the others on the disk; a frame without a mark has the bytes of the disk. -/
structure Shows (s : PagePool) (c : Contents) : Prop where
  held      : Held s.pool s.live
  resident  : ∀ i k, (s.pool.frames i).key = some k → c.bytes k = some (s.pool.frames i).pageBytes
  allocated : ∀ i k, (s.pool.frames i).key = some k → (s.disk.pageAt k).isSome
  encoded   : ∀ i k, (s.pool.frames i).key = some k → ∃ decoded, decodePage k (s.pool.frames i).pageBytes = .ok decoded
  clean     : ∀ i k, (s.pool.frames i).key = some k → (s.pool.frames i).dirty = false → c.pending k = false →
    s.disk.pageAt k = some (s.pool.frames i).pageBytes
  absent    : ∀ k, s.pool.pageTable k = none → s.disk.pageAt k = c.bytes k
  owned     : ∀ k, c.pending k = true → ∃ g ∈ s.live, g.key = k

variable {s : PagePool} {c : Contents}

theorem shows_start (frameCount : Nat) (disk : RelationFiles) : Shows (start frameCount disk) ⟨disk.pageAt, fun _ => false⟩ :=
  ⟨BufferPool.held_new frameCount, fun _ _ h => (by cases h), fun _ _ h => (by cases h), fun _ _ h => (by cases h),
    fun _ _ h => (by cases h), fun _ _ => rfl, fun _ h => (by cases h)⟩

namespace Shows

theorem not_pending (h : Shows s c) {i : Nat} {k : RelationPage} (hk : (s.pool.frames i).key = some k)
    (hp : (s.pool.frames i).pinCount = 0) : c.pending k = false := by
  by_contra hpend
  obtain ⟨g, hg, rfl⟩ := h.owned k (by simpa using hpend)
  have hgi : g.frameId = i := Option.some.inj (((h.held.table _ _).2 (h.held.held g hg)).symm.trans
    ((h.held.table _ _).2 hk))
  have hpin := h.held.pinned hg
  rw [hgi] at hpin
  omega

/-- **A dirty page written to the disk is still the page of its frame.** -/
theorem written (h : Shows s c) {i : Nat} {key : RelationPage} {disk : RelationFiles} (hk : (s.pool.frames i).key = some key)
    (hw : s.disk.writePage key (s.pool.frames i).pageBytes = .ok disk) : Shows { s with disk := disk } c ∧
      Shows { s with disk := disk, pool := s.pool.setFrame i { s.pool.frames i with dirty := false } } c := by
  obtain ⟨-, hat⟩ := RelationFiles.writePage_pageAt hw
  have hself : ∀ j k, (s.pool.frames j).key = some k → k = key → j = i := fun j k hj he =>
    Option.some.inj (((h.held.table k j).2 hj).symm.trans (by rw [he]; exact (h.held.table key i).2 hk))
  have halloc : ∀ j k, (s.pool.frames j).key = some k → (disk.pageAt k).isSome := by
    intro j k hj
    rw [hat]
    split
    · rfl
    · exact h.allocated j k hj
  have hclean : ∀ j k, (s.pool.frames j).key = some k → ((s.pool.frames j).dirty = false ∨ j = i) → c.pending k = false →
      disk.pageAt k = some (s.pool.frames j).pageBytes := by
    intro j k hj hd hp
    rw [hat]
    split
    · rename_i he
      rw [hself j k hj he]
    · rename_i he
      rcases hd with hd | rfl
      · exact h.clean j k hj hd hp
      · exact absurd (Option.some.inj (hj.symm.trans hk)) he
  have habsent : ∀ k, s.pool.pageTable k = none → disk.pageAt k = c.bytes k := by
    intro k hn
    rw [hat, if_neg, h.absent k hn]
    intro he
    rw [he, (h.held.table key i).2 hk] at hn
    cases hn
  have hbytes : ∀ j, ((s.pool.setFrame i { s.pool.frames i with dirty := false }).frames j).pageBytes =
      (s.pool.frames j).pageBytes := by
    intro j
    simp only [BufferPool.setFrame, Function.update_apply]
    split
    · rename_i hj; rw [hj]
    · rfl
  have hkeys := BufferPool.setFrame_key (p := s.pool) (i := i) (f := { s.pool.frames i with dirty := false }) rfl
  refine ⟨⟨h.held, h.resident, halloc, h.encoded, fun j k hj hd => hclean j k hj (.inl hd), habsent, h.owned⟩,
    ⟨h.held.setFrame rfl rfl, fun j k hj => ?_, fun j k hj => ?_, fun j k hj => ?_,
      fun j k hj hd => ?_, habsent, h.owned⟩⟩
  · rw [hbytes]
    exact h.resident j k (by rw [← hkeys j]; exact hj)
  · exact halloc j k (by rw [← hkeys j]; exact hj)
  · rw [hbytes]
    exact h.encoded j k (by rw [← hkeys j]; exact hj)
  · rw [hbytes]
    refine hclean j k (by rw [← hkeys j]; exact hj) ?_
    by_cases hji : j = i
    · exact .inr hji
    · simp only [BufferPool.setFrame, Function.update_of_ne hji] at hd
      exact .inl hd

/-- **A flush shows the same pages**, and it raises only where it was made to. -/
theorem flushFrame (h : Shows s c) (i : Nat) (fault : Option FlushFault) : Shows (s.flushFrame i fault).1 c ∧
    ((s.flushFrame i fault).2 = .ok () → ((s.flushFrame i fault).1.pool.frames i).dirty = false) := by
  rcases s.flushFrame_cases i fault with ⟨r, hr, hd⟩ | ⟨key, disk, -, hk, hw, ⟨e, hr⟩ | hr⟩
  · rw [hr]
    exact ⟨h, hd⟩
  · rw [hr]
    exact ⟨(h.written hk hw).1, fun he => (by cases he)⟩
  · rw [hr]
    exact ⟨(h.written hk hw).2, fun _ => by simp only [BufferPool.setFrame, Function.update_self]⟩

theorem flushVictim (h : Shows s c) (i : Nat) (fault : Option FlushFault) :
    Shows (if (s.pool.frames i).key.isSome then s.flushFrame i fault else (s, .ok ())).1 c ∧
    ((if (s.pool.frames i).key.isSome then s.flushFrame i fault else (s, .ok ())).2 = .ok () → (s.pool.frames i).key ≠ none →
      ((if (s.pool.frames i).key.isSome then s.flushFrame i fault else (s, .ok ())).1.pool.frames i).dirty = false) := by
  split
  · obtain ⟨h1, h2⟩ := h.flushFrame i fault
    exact ⟨h1, fun hr _ => h2 hr⟩
  · rename_i hn
    exact ⟨h, fun _ hk => absurd (Option.isSome_iff_ne_none.2 hk) hn⟩

theorem fill (h : Shows s c) (i : Nat) (key : RelationPage) (fault : Option FlushFault) (readFails : Bool) :
    Shows (s.fill i key fault readFails).1 c ∧
    ∀ page lsn, (s.fill i key fault readFails).2 = .ok (page, lsn) →
      (s.fill i key fault readFails).1.disk.readPage key = .ok page ∧
      ((s.pool.frames i).key ≠ none → ((s.fill i key fault readFails).1.pool.frames i).dirty = false) := by
  obtain ⟨hflush, hclean⟩ := h.flushVictim i fault
  unfold PagePool.fill
  split
  · rename_i s' e heq
    rw [heq] at hflush
    exact ⟨hflush, fun _ _ he => (by cases he)⟩
  · rename_i s' u heq
    rw [heq] at hflush hclean
    split
    · exact ⟨hflush, fun _ _ he => absurd he raise_ne_ok⟩
    · split
      · exact ⟨hflush, fun _ _ he => (by cases he)⟩
      · rename_i page hread
        split
        · exact ⟨hflush, fun _ _ he => (by cases he)⟩
        · refine ⟨hflush, fun _ _ he => ?_⟩
          cases he
          exact ⟨hread, hclean rfl⟩

theorem flushFrames (fault : Nat → Option FlushFault) : ∀ (frames : List Nat) (s : PagePool), Shows s c →
    Shows (flushFrames fault frames s).1 c ∧ ((flushFrames fault frames s).2 = .ok () →
      ∀ i ∈ frames, (s.pool.frames i).key ≠ none → ((flushFrames fault frames s).1.pool.frames i).dirty = false)
  | [], s, h        => ⟨h, fun _ _ hi => (by cases hi)⟩
  | i :: rest, s, h => by
    obtain ⟨hflush, hclean⟩ := h.flushVictim i (fault i)
    have hkeeps := s.flushVictim_keeps i (fault i)
    unfold PagePool.flushFrames
    split
    · rename_i s' e heq
      rw [heq] at hflush
      exact ⟨hflush, fun he => (by cases he)⟩
    · rename_i s' u heq
      rw [heq] at hflush hclean hkeeps
      obtain ⟨hrest, hdone⟩ := flushFrames fault rest s' hflush
      refine ⟨hrest, fun hok j hj hk => ?_⟩
      rcases List.mem_cons.1 hj with rfl | hj
      · obtain ⟨d, hd, hle⟩ := (flushFrames_keeps fault rest s').2.frames j
        rw [hd]
        by_contra hdirty
        have := hle (by simpa using hdirty)
        rw [hclean rfl hk] at this
        cases this
      · exact hdone hok j hj (by rw [hkeeps.2.key]; exact hk)

theorem repooled (h : Shows s c) {pool : BufferPool} {handles : List GuardHandle}
    (hi : Held pool (⟨s.disk, pool, handles⟩ : PagePool).live)
    (hframes : ∀ i, ∃ pins, pool.frames i = { s.pool.frames i with pinCount := pins }) (ht : pool.pageTable = s.pool.pageTable)
    (hl : ∀ k, c.pending k = true → ∃ g ∈ (⟨s.disk, pool, handles⟩ : PagePool).live, g.key = k) :
    Shows ⟨s.disk, pool, handles⟩ c := by
  refine ⟨hi, fun i k hk => ?_, fun i k hk => ?_, fun i k hk => ?_, fun i k hk hd => ?_, fun k hk => ?_, hl⟩
  · obtain ⟨_, hf⟩ := hframes i
    simp only [hf] at hk ⊢
    exact h.resident i k hk
  · obtain ⟨_, hf⟩ := hframes i
    simp only [hf] at hk
    exact h.allocated i k hk
  · obtain ⟨_, hf⟩ := hframes i
    simp only [hf] at hk ⊢
    exact h.encoded i k hk
  · obtain ⟨_, hf⟩ := hframes i
    simp only [hf] at hk hd ⊢
    exact h.clean i k hk hd
  · simp only [ht] at hk
    exact h.absent k hk

theorem owned_append (h : Shows s c) (g : PageGuard) (disk : RelationFiles) (pool : BufferPool) (k : RelationPage)
    (hk : c.pending k = true) : ∃ g' ∈ (⟨disk, pool, s.handles ++ [⟨g, false⟩]⟩ : PagePool).live, g'.key = k := by
  obtain ⟨g', hg', he⟩ := h.owned k hk
  exact ⟨g', (live_append s.handles g disk pool).mem_iff.1 (List.mem_cons_of_mem _ hg'), he⟩

/-- **A page that is loaded over another shows what the disk has**, and so does the page that goes. -/
theorem load (h : Shows s c) {i : Nat} {key : RelationPage} {page : ByteString} (lsn : Nat)
    (hi : Held (s.pool.load i key page lsn) (s.give (s.pool.load i key page lsn) ⟨i, key⟩).1.live)
    (hpin : (s.pool.frames i).pinCount = 0)
    (hnone : s.pool.pageTable key = none) (hread : s.disk.readPage key = .ok page)
    (hclean : (s.pool.frames i).key ≠ none → (s.pool.frames i).dirty = false) :
    Shows (s.give (s.pool.load i key page lsn) ⟨i, key⟩).1 c := by
  obtain ⟨hat, hdec⟩ := RelationFiles.readPage_ok hread
  have hself : (s.pool.load i key page lsn).frames i = ⟨some key, page, lsn, 1, false⟩ := by
    simp only [BufferPool.load, Function.update_self]
  have hother : ∀ j, j ≠ i → (s.pool.load i key page lsn).frames j = s.pool.frames j := fun j hj => by
    simp only [BufferPool.load, Function.update_of_ne hj]
  refine ⟨hi, fun j k hk => ?_, fun j k hk => ?_, fun j k hk => ?_, fun j k hk hd hp => ?_, fun k hk => ?_,
    h.owned_append ⟨i, key⟩ s.disk _⟩
  all_goals simp only [PagePool.give] at *
  · by_cases hj : j = i
    · rw [hj, hself] at hk ⊢
      cases hk
      exact (h.absent key hnone).symm.trans hat
    · rw [hother j hj] at hk ⊢
      exact h.resident j k hk
  · by_cases hj : j = i
    · rw [hj, hself] at hk
      cases hk
      rw [hat]
      rfl
    · rw [hother j hj] at hk
      exact h.allocated j k hk
  · by_cases hj : j = i
    · rw [hj, hself] at hk ⊢
      cases hk
      exact hdec
    · rw [hother j hj] at hk ⊢
      exact h.encoded j k hk
  · by_cases hj : j = i
    · rw [hj, hself] at hk ⊢
      cases hk
      exact hat
    · rw [hother j hj] at hk hd ⊢
      exact h.clean j k hk hd hp
  · by_cases hold : (s.pool.frames i).key = some k
    · rw [h.clean i k hold (hclean (by rw [hold]; simp)) (h.not_pending hold hpin)]
      exact (h.resident i k hold).symm
    · refine h.absent k ?_
      by_contra hres
      obtain ⟨j, hj⟩ := Option.ne_none_iff_exists'.1 hres
      have hji : j ≠ i := fun he => hold (by rw [← he]; exact (h.held.table k j).1 hj)
      have hkey : ((s.pool.load i key page lsn).frames j).key = some k := by
        rw [hother j hji]; exact (h.held.table k j).1 hj
      rw [(hi.table k j).2 hkey] at hk
      cases hk

theorem fetchPage (h : Shows s c) (hi : Inv s) (key : RelationPage) (fault : Option FlushFault) (readFails : Bool) :
    Shows (s.fetchPage key fault readFails).1 c := by
  have hheld' := (hi.fetchPage key fault readFails).held
  unfold PagePool.fetchPage at hheld' ⊢
  split
  · rename_i i hi
    rw [hi] at hheld'
    refine h.repooled hheld' (fun j => ?_) rfl (h.owned_append ⟨i, key⟩ s.disk _)
    simp only [BufferPool.pin, BufferPool.setFrame, Function.update_apply]
    split
    · rename_i hj; exact ⟨_, by rw [hj]⟩
    · exact ⟨_, rfl⟩
  · rename_i hnone
    rw [hnone] at hheld'
    obtain ⟨q, choice, hsel, hheld, hframes, htable, hfree⟩ := h.held.selectFrame
    have hq : Shows ⟨s.disk, q, s.handles⟩ c :=
      h.repooled hheld (fun j => ⟨(s.pool.frames j).pinCount, by rw [hframes]⟩) htable h.owned
    simp only at hheld'
    rw [hsel] at hheld' ⊢
    cases choice with
    | none => exact hq
    | some choice =>
      obtain ⟨i, free⟩ := choice
      obtain ⟨hpin, -, -⟩ := hfree i free rfl
      obtain ⟨hfill, hread⟩ := hq.fill i key fault readFails
      have hkeeps := (⟨s.disk, q, s.handles⟩ : PagePool).fill_keeps i key fault readFails
      simp only at hheld' ⊢
      split
      · rename_i s' e heq
        rw [heq] at hfill hheld'
        refine hfill.repooled hheld' (fun j => ⟨(s'.pool.frames j).pinCount, ?_⟩) ?_ hfill.owned
        · unfold BufferPool.giveBack
          split <;> rfl
        · unfold BufferPool.giveBack
          split <;> rfl
      · rename_i s' page lsn heq
        rw [heq] at hfill hread hkeeps hheld'
        obtain ⟨hread, hclean⟩ := hread page lsn rfl
        refine hfill.load lsn hheld' (by rw [hkeeps.2.pinCount, hframes]; exact hpin)
          (by rw [hkeeps.2.pageTable, htable]; exact hnone) hread (fun hk => hclean ?_)
        rw [← hkeeps.2.key]
        exact hk

theorem newPage (h : Shows s c) (hi : Inv s) (relation : RelationId) (kind : Option PageKind) (fault : Option FlushFault)
    (readFails : Bool) :
    Shows (s.newPage relation kind fault readFails).1 (c.allocate s relation kind) := by
  unfold PagePool.newPage Contents.allocate
  cases halloc : s.disk.allocatePage relation kind with
  | error e => exact h
  | ok result =>
    obtain ⟨disk, key⟩ := result
    obtain ⟨hfresh, encoded, -, hat⟩ := RelationFiles.allocatePage_pageAt halloc
    have hnew : ∀ i, (s.pool.frames i).key ≠ some key := fun i hk => by
      have := h.allocated i key hk
      rw [hfresh] at this
      cases this
    have hne : ∀ i k, (s.pool.frames i).key = some k → k ≠ key := fun i k hk he => hnew i (by rw [← he]; exact hk)
    refine fetchPage (s := ⟨disk, s.pool, s.handles⟩) ?_ ⟨hi.held, hi.booked⟩ key fault readFails
    refine ⟨h.held, fun i k hk => ?_, fun i k hk => ?_, h.encoded, fun i k hk hd hp => ?_, fun k hk => ?_, h.owned⟩
    · simp only [Function.update_of_ne (hne i k hk)]
      exact h.resident i k hk
    · simp only [hat, if_neg (hne i k hk)]
      exact h.allocated i k hk
    · simp only [hat, if_neg (hne i k hk)]
      exact h.clean i k hk hd hp
    · by_cases he : k = key
      · simp only [he, Function.update_self]
      · simp only [Function.update_of_ne he, hat, if_neg he]
        exact h.absent k hk

theorem setBytes (h : Shows s c) {g : PageGuard} (hg : g ∈ s.live) {f : PoolFrame} {c' : Contents}
    (hk : f.key = (s.pool.frames g.frameId).key) (hp : f.pinCount = (s.pool.frames g.frameId).pinCount)
    (hc : ∀ k, k ≠ g.key → c'.bytes k = c.bytes k ∧ c'.pending k = c.pending k) (hself : c'.bytes g.key = some f.pageBytes)
    (hdec : ∃ decoded, decodePage g.key f.pageBytes = .ok decoded) (hd : f.dirty = false → c'.pending g.key = true) :
    Shows { s with pool := s.pool.setFrame g.frameId f } c' := by
  have hgk := h.held.held g hg
  have hother : ∀ j k, (s.pool.frames j).key = some k → j ≠ g.frameId → k ≠ g.key := fun j k hj hne he => hne
    (Option.some.inj (((h.held.table k j).2 hj).symm.trans (by rw [he]; exact (h.held.table _ _).2 hgk)))
  have hat : (s.pool.setFrame g.frameId f).frames g.frameId = f := Function.update_self _ _ _
  have hne : ∀ j, j ≠ g.frameId → (s.pool.setFrame g.frameId f).frames j = s.pool.frames j := fun j hj =>
    Function.update_of_ne hj _ _
  have hkg : ∀ k, f.key = some k → k = g.key := fun k he => Option.some.inj (he.symm.trans (hk.trans hgk))
  refine ⟨h.held.setFrame hk hp, fun j k hj => ?_, fun j k hj => ?_, fun j k hj => ?_, fun j k hj hdj hpj => ?_, fun k hn => ?_,
    fun k hpk => ?_⟩
  · by_cases hji : j = g.frameId
    · rw [hji, hat] at hj ⊢
      rw [hkg k hj]
      exact hself
    · rw [hne j hji] at hj ⊢
      rw [(hc k (hother j k hj hji)).1]
      exact h.resident j k hj
  · rw [BufferPool.setFrame_key hk] at hj
    exact h.allocated j k hj
  · by_cases hji : j = g.frameId
    · rw [hji, hat] at hj ⊢
      rw [hkg k hj]
      exact hdec
    · rw [hne j hji] at hj ⊢
      exact h.encoded j k hj
  · by_cases hji : j = g.frameId
    · rw [hji, hat] at hj hdj
      rw [hkg k hj, hd hdj] at hpj
      cases hpj
    · rw [hne j hji] at hj hdj ⊢
      rw [(hc k (hother j k hj hji)).2] at hpj
      exact h.clean j k hj hdj hpj
  · have hkne : k ≠ g.key := fun he => by
      rw [he] at hn
      rw [show (s.pool.setFrame g.frameId f).pageTable = s.pool.pageTable from rfl, (h.held.table _ _).2 hgk] at hn
      cases hn
    rw [(hc k hkne).1]
    exact h.absent k hn
  · by_cases hkg' : k = g.key
    · exact ⟨g, hg, hkg'.symm⟩
    · rw [(hc k hkg').2] at hpk
      exact h.owned k hpk

theorem replaceBytes (h : Shows s c) (n : Nat) (bytes : ByteString) :
    Shows (s.replaceBytes n bytes).1 (c.install s n bytes) := by
  unfold Contents.install PagePool.replaceBytes
  cases hg : s.active n with
  | error e => exact h
  | ok g =>
    cases hr : s.pool.guardReplaceBytes g bytes with
    | error e => simpa only [bind, Except.bind, hr] using h
    | ok pool =>
      obtain ⟨decoded, hdec, -, -, rfl⟩ := BufferPool.guardReplaceBytes_ok hr
      simp only [bind, Except.bind, hr]
      refine h.setBytes (active_live hg) rfl rfl (fun k hk => ?_) (Function.update_self _ _ _) ⟨decoded, hdec⟩
        (fun _ => Function.update_self _ _ _)
      exact ⟨Function.update_of_ne hk _ _, Function.update_of_ne hk _ _⟩

theorem markDirty (h : Shows s c) (n : Nat) (lsn : Nat) : Shows (s.markDirty n lsn).1 (c.mark s n lsn) := by
  unfold Contents.mark PagePool.markDirty
  cases hg : s.active n with
  | error e => exact h
  | ok g =>
    cases hr : s.pool.guardMarkDirty g lsn with
    | error e => simpa only [bind, Except.bind, hr] using h
    | ok pool =>
      obtain ⟨decoded, encoded, hdec, henc, hkey, -, rfl⟩ := BufferPool.guardMarkDirty_ok hr
      simp only [bind, Except.bind, hr]
      refine h.setBytes (active_live hg) rfl rfl (fun k hk => ?_) ?_ ⟨_, decodePage_encodePage henc⟩ (fun hd => (by cases hd))
      · exact ⟨Function.update_of_ne hk _ _, Function.update_of_ne hk _ _⟩
      · simp only [Function.update_self, h.resident _ _ hkey, Option.bind_some, Contents.stamp, hdec, henc]

theorem release (h : Shows s c) (hi : Inv s) (n : Nat) (ok : c.Allows s (.release n)) : Shows (s.release n).1 c := by
  have hheld := (hi.release n).held
  unfold PagePool.release at hheld ⊢
  cases hn : s.handles[n]? with
  | none => exact h
  | some handle =>
    simp only [hn] at hheld ⊢
    by_cases hr : handle.released = true
    · rw [if_pos hr]
      exact h
    · rw [if_neg hr] at hheld ⊢
      cases hrel : s.pool.releaseGuard handle.guard with
      | error e => exact h
      | ok pool =>
        rw [hrel] at hheld
        obtain ⟨-, rfl⟩ := BufferPool.releaseGuard_ok hrel
        have hset := live_set s.disk s.pool s.handles n handle hn (by simpa using hr)
        have hnot := ok handle.guard (by unfold active; simp only [hn, if_neg hr])
        refine h.repooled hheld (fun j => ?_) rfl (fun k hk => ?_)
        · simp only [BufferPool.setFrame, Function.update_apply]
          split
          · rename_i hj; exact ⟨_, by rw [hj]⟩
          · exact ⟨_, rfl⟩
        · obtain ⟨g, hg, rfl⟩ := h.owned k hk
          refine ⟨g, (List.mem_cons.1 (hset.mem_iff.1 hg)).resolve_left (fun he => ?_), rfl⟩
          rw [he, hnot] at hk
          cases hk

theorem step (h : Shows s c) (hi : Inv s) (call : Call) (ok : c.Allows s call) : Shows (s.step call) (c.call s call) := by
  cases call with
  | fetchPage key fault readFails         => exact h.fetchPage hi key fault readFails
  | newPage relation kind fault readFails => exact h.newPage hi relation kind fault readFails
  | replaceBytes n bytes                  => exact h.replaceBytes n bytes
  | markDirty n lsn                       => exact h.markDirty n lsn
  | release n                             => exact h.release hi n ok
  | flushPage key fault                   =>
    simp only [PagePool.step, PagePool.flushPage]
    split
    · exact h
    · exact (h.flushFrame _ fault).1
  | flushAll fault                        => exact (flushFrames fault _ s h).1

end Shows

/-- A flush that nothing disturbs returns: every page was allocated and decodes. -/
theorem Shows.flushFrame_ok (h : Shows s c) {i : Nat} (hk : (s.pool.frames i).key ≠ none) :
    (s.flushFrame i none).2 = .ok () := by
  obtain ⟨key, hkey⟩ := Option.ne_none_iff_exists'.1 hk
  obtain ⟨decoded, hdec⟩ := h.encoded i key hkey
  have halloc := h.allocated i key hkey
  have hlen : ¬(s.disk key.relation).length ≤ key.pageId.toNat := fun hle => by
    rw [RelationFiles.pageAt, List.getElem?_eq_none hle] at halloc
    cases halloc
  have hwrite : s.disk.writePage key (s.pool.frames i).pageBytes = .ok (Function.update s.disk key.relation
      ((s.disk key.relation).set key.pageId.toNat (s.pool.frames i).pageBytes)) := by
    simp only [RelationFiles.writePage, hdec, bind, Except.bind, if_neg hlen]
  unfold PagePool.flushFrame
  simp only [hkey, hwrite, reduceCtorEq, or_self, if_false]
  split <;> rfl

theorem Shows.flushFrames_ok : ∀ (frames : List Nat) (s : PagePool), Shows s c →
    (PagePool.flushFrames (fun _ => none) frames s).2 = .ok ()
  | [], _, _        => rfl
  | i :: rest, s, h => by
    obtain ⟨hflush, -⟩ := h.flushVictim i none
    have hok : (if (s.pool.frames i).key.isSome then s.flushFrame i none else (s, .ok ())).2 = .ok () := by
      split
      · rename_i hk
        exact h.flushFrame_ok (Option.isSome_iff_ne_none.1 hk)
      · rfl
    unfold PagePool.flushFrames
    split
    · rename_i s' e heq
      rw [heq] at hok
      cases hok
    · rename_i s' u heq
      rw [heq] at hflush
      exact flushFrames_ok rest s' hflush

theorem Shows.pageBytes (h : Shows s c) {n : Nat} {g : PageGuard} (hn : s.active n = .ok g) :
    ∃ bytes, s.pageBytes n = .ok bytes ∧ c.bytes g.key = some bytes := by
  refine ⟨(s.pool.frames g.frameId).pageBytes, ?_, h.resident _ _ (h.held.held g (active_live hn))⟩
  unfold PagePool.pageBytes
  rw [hn]
  simp only [bind, Except.bind, h.held.guardedFrame (active_live hn)]

theorem Shows.flushAll (h : Shows s c) (hi : Inv s) {fault : Nat → Option FlushFault} (ok : (s.flushAll fault).2 = .ok ())
    (k : RelationPage) (hp : c.pending k = false) : (s.flushAll fault).1.disk.pageAt k = c.bytes k := by
  obtain ⟨hflush, hclean⟩ := Shows.flushFrames fault (List.range s.pool.frameCount) s h
  have hkeeps := flushFrames_keeps fault (List.range s.pool.frameCount) s
  cases hres : (s.flushAll fault).1.pool.pageTable k with
  | none => exact hflush.absent k hres
  | some i =>
    have hk : ((s.flushAll fault).1.pool.frames i).key = some k := (hflush.held.table k i).1 hres
    have hk' : (s.pool.frames i).key = some k := by rw [← hkeeps.2.key i]; exact hk
    have hi' : i < s.pool.frameCount := hi.booked.inRange i (by rw [hk']; simp)
    rw [hflush.resident i k hk]
    exact hflush.clean i k hk (hclean ok i (List.mem_range.2 hi') (by rw [hk']; simp)) hp

end PagePool

open PagePool

theorem PoolRun.shows {frameCount : Nat} {disk : RelationFiles} {s : PagePool} {c : Contents}
    (h : PoolRun frameCount disk s c) : Inv s ∧ Shows s c := by
  induction h with
  | start => exact ⟨inv_start frameCount disk, shows_start frameCount disk⟩
  | step _ call ok ih => exact ⟨ih.1.step call, ih.2.step ih.1 call ok⟩

/-- **The pool is transparent.**  Guards read what was installed, `flush_all` writes it to the disk and returns unless it is made
to raise, and a call of `fetch_page` that raises leaves what was installed as it is. -/
theorem pool_transparent {frameCount : Nat} {disk : RelationFiles} {s : PagePool} {c : Contents}
    (h : PoolRun frameCount disk s c) :
    (∀ n g, s.active n = .ok g → ∃ bytes, s.pageBytes n = .ok bytes ∧ c.bytes g.key = some bytes) ∧
    (∀ fault, (s.flushAll fault).2 = .ok () → ∀ k, c.pending k = false → (s.flushAll fault).1.disk.pageAt k = c.bytes k) ∧
    (s.flushAll (fun _ => none)).2 = .ok () ∧
    ∀ key fault readFails e, (s.fetchPage key fault readFails).2 = .error e →
      PoolRun frameCount disk (s.fetchPage key fault readFails).1 c := by
  obtain ⟨hinv, hshows⟩ := h.shows
  exact ⟨fun _ _ hn => hshows.pageBytes hn, fun fault ok k hp => hshows.flushAll hinv ok k hp,
    Shows.flushFrames_ok _ s hshows, fun key fault readFails _ _ => h.step (.fetchPage key fault readFails) trivial⟩

theorem Contents.call_newPage_pending (c : Contents) (s : PagePool) (relation : RelationId) (kind : Option PageKind)
    (fault : Option FlushFault) (readFails : Bool) : (c.call s (.newPage relation kind fault readFails)).pending = c.pending := by
  rw [call, allocate]
  split <;> rfl

/-! ### One frame, two pages -/

namespace PagePool

theorem flushFrame_marked {s : PagePool} {i : Nat} {key : RelationPage} {disk : RelationFiles}
    (hd : (s.pool.frames i).dirty = true)
    (hk : (s.pool.frames i).key = some key) (hw : s.disk.writePage key (s.pool.frames i).pageBytes = .ok disk) :
    s.flushFrame i none = ({ s with disk := disk, pool := s.pool.setFrame i { s.pool.frames i with dirty := false } },
      .ok ()) := by
  simp [flushFrame, hd, hk, hw]

theorem fill_reads {s s' : PagePool} {i : Nat} {key : RelationPage} {page : ByteString} {decoded : DecodedPage}
    (hf : (if (s.pool.frames i).key.isSome then s.flushFrame i none else (s, .ok ())) = (s', .ok ()))
    (hp : s'.disk.pageAt key = some page) (hd : decodePage key page = .ok decoded) :
    s.fill i key none false = (s', .ok (page, decoded.pageLsn)) := by
  have hread : s'.disk.readPage key = .ok page := by
    unfold RelationFiles.readPage
    rw [hp]
    simp only [hd, bind, Except.bind]
  unfold fill
  simp only [hf, hread, hd, if_neg Bool.false_ne_true]

theorem fetchPage_fills {s s' : PagePool} {key : RelationPage} {q : BufferPool} {i lsn : Nat} {free : Bool} {page : ByteString}
    (hn : s.pool.pageTable key = none) (hs : s.pool.selectFrame = (q, some (i, free)))
    (hf : ({ s with pool := q } : PagePool).fill i key none false = (s', .ok (page, lsn))) :
    s.fetchPage key none false = s'.give (s'.pool.load i key page lsn) ⟨i, key⟩ := by
  unfold fetchPage
  rw [hn, hs]
  simp only [hf]

theorem newPage_allocated {s : PagePool} {relation : RelationId} {disk : RelationFiles} {key : RelationPage}
    (h : s.disk.allocatePage relation none = .ok (disk, key)) :
    s.newPage relation none none false = ({ s with disk := disk } : PagePool).fetchPage key none false := by
  unfold newPage
  rw [h]

theorem replaceBytes_decoded {s : PagePool} {n : Nat} {g : PageGuard} {bytes : ByteString} {decoded : DecodedPage}
    (hg : s.active n = .ok g) (hf : s.pool.guardedFrame g = .ok (s.pool.frames g.frameId))
    (hd : decodePage g.key bytes = .ok decoded)
    (hl : (s.pool.frames g.frameId).pageLsn ≤ decoded.pageLsn) : s.replaceBytes n bytes =
      ({ s with
        pool := s.pool.setFrame g.frameId
          { s.pool.frames g.frameId with pageBytes := bytes, pageLsn := decoded.pageLsn } }, .ok ()) := by
  simp only [replaceBytes, BufferPool.guardReplaceBytes, hg, hf, hd, bind, Except.bind, if_neg (Nat.not_lt.2 hl)]

theorem markDirty_encoded {s : PagePool} {n lsn : Nat} {g : PageGuard} {encoded : ByteString} {decoded : DecodedPage}
    (hg : s.active n = .ok g) (hf : s.pool.guardedFrame g = .ok (s.pool.frames g.frameId))
    (hl : (s.pool.frames g.frameId).pageLsn ≤ lsn) (hd : decodePage g.key (s.pool.frames g.frameId).pageBytes = .ok decoded)
    (he : encodePage g.key decoded.kind lsn decoded.body = .ok encoded) : s.markDirty n lsn =
      ({ s with
        pool := s.pool.setFrame g.frameId
          { s.pool.frames g.frameId with pageBytes := encoded, pageLsn := lsn, dirty := true } }, .ok ()) := by
  simp only [markDirty, BufferPool.guardMarkDirty, hg, hf, hd, he, bind, Except.bind, if_neg (Nat.not_lt.2 hl)]

end PagePool

def firstPage : RelationPage := ⟨.heap, 1, 0⟩
def secondPage : RelationPage := ⟨.heap, 1, 1⟩

/-- Over one frame: a page is written, evicted by another and read again. -/
def evictedCalls (bytes : ByteString) : List PagePool.Call :=
  [.newPage ⟨.heap, 1⟩ none none false, .replaceBytes 0 bytes, .markDirty 0 7, .release 0,
    .newPage ⟨.heap, 1⟩ none none false, .release 1, .fetchPage firstPage none false]

theorem allocatePage_encoded {disk : RelationFiles} {relation : RelationId} {key : RelationPage} {encoded : ByteString}
    (hk : key = ⟨relation.fork, relation.objectId, UInt64.ofNat (disk relation).length⟩) (hl : (disk relation).length < 2 ^ 64)
    (he : encodePage key (RelationFiles.defaultKind relation.fork) 0 [] = .ok encoded) :
    disk.allocatePage relation none = .ok (Function.update disk relation (disk relation ++ [encoded]), key) := by
  subst hk
  simp only [RelationFiles.allocatePage, if_neg (Nat.not_le.2 hl), Option.getD_none, he, bind, Except.bind]

theorem writePage_decoded {disk : RelationFiles} {key : RelationPage} {bytes : ByteString} {decoded : DecodedPage}
    (hd : decodePage key bytes = .ok decoded) (hl : key.pageId.toNat < (disk key.relation).length) :
    disk.writePage key bytes = .ok (Function.update disk key.relation ((disk key.relation).set key.pageId.toNat bytes)) := by
  simp only [RelationFiles.writePage, hd, bind, Except.bind, if_neg (Nat.not_le.2 hl)]

/-- **A pool whose one frame is `frame`**, over a relation with these pages. -/
def oneFrame (pages : List ByteString) (frame : PoolFrame) (handles : List GuardHandle) : PagePool where
  disk    := Function.update (fun _ => []) ⟨.heap, 1⟩ pages
  pool    := ⟨1, fun i => if i = 0 then frame else ⟨none, [], 0, 0, false⟩,
    fun k => if frame.key = some k then some 0 else none, [],
    ⟨1, fun i => decide (i = 0), fun i => decide (i = 0 ∧ frame.pinCount = 0), 0⟩⟩
  handles := handles

section OneFrame

variable {pages : List ByteString} {frame frame' : PoolFrame} {handles : List GuardHandle}

theorem oneFrame_setFrame (hk : frame'.key = frame.key) (hp : frame'.pinCount = frame.pinCount) :
    ({ oneFrame pages frame handles with pool := (oneFrame pages frame handles).pool.setFrame 0 frame' } : PagePool) =
      oneFrame pages frame' handles := by
  unfold oneFrame BufferPool.setFrame
  simp only [hk, hp]
  congr 2
  funext i
  simp only [Function.update_apply]
  split <;> rfl

theorem oneFrame_replaceBytes {n : Nat} {key : RelationPage} {bytes : ByteString} {decoded : DecodedPage}
    (hn : handles[n]? = some ⟨⟨0, key⟩, false⟩) (hk : frame.key = some key) (hp : frame.pinCount ≠ 0)
    (hd : decodePage key bytes = .ok decoded) (hl : frame.pageLsn ≤ decoded.pageLsn) :
    (oneFrame pages frame handles).replaceBytes n bytes =
      (oneFrame pages { frame with pageBytes := bytes, pageLsn := decoded.pageLsn } handles, .ok ()) := by
  have hframe : ((oneFrame pages frame handles).pool.frames 0) = frame := rfl
  rw [replaceBytes_decoded (g := ⟨0, key⟩) ?_ ?_ hd hl]
  · exact congrArg (fun s => (s, Except.ok ())) (oneFrame_setFrame rfl rfl)
  · simp only [active, oneFrame, hn, if_neg Bool.false_ne_true]
  · simp only [BufferPool.guardedFrame, hframe, hk, ne_eq, not_true_eq_false, hp, or_self, if_false]

theorem oneFrame_markDirty {n lsn : Nat} {key : RelationPage} {encoded : ByteString} {decoded : DecodedPage}
    (hn : handles[n]? = some ⟨⟨0, key⟩, false⟩) (hk : frame.key = some key) (hp : frame.pinCount ≠ 0) (hl : frame.pageLsn ≤ lsn)
    (hd : decodePage key frame.pageBytes = .ok decoded) (he : encodePage key decoded.kind lsn decoded.body = .ok encoded) :
    (oneFrame pages frame handles).markDirty n lsn =
      (oneFrame pages { frame with pageBytes := encoded, pageLsn := lsn, dirty := true } handles, .ok ()) := by
  have hframe : ((oneFrame pages frame handles).pool.frames 0) = frame := rfl
  rw [markDirty_encoded (g := ⟨0, key⟩) ?_ ?_ hl hd he]
  · exact congrArg (fun s => (s, Except.ok ())) (oneFrame_setFrame rfl rfl)
  · simp only [active, oneFrame, hn, if_neg Bool.false_ne_true]
  · simp only [BufferPool.guardedFrame, hframe, hk, ne_eq, not_true_eq_false, hp, or_self, if_false]

theorem oneFrame_release {n : Nat} {key : RelationPage} (hn : handles[n]? = some ⟨⟨0, key⟩, false⟩) (hk : frame.key = some key)
    (hp : frame.pinCount = 1) : ((oneFrame pages frame handles).release n).1 =
      oneFrame pages { frame with pinCount := 0 } (handles.set n ⟨⟨0, key⟩, true⟩) := by
  unfold release
  simp only [oneFrame, hn, if_neg Bool.false_ne_true, BufferPool.releaseGuard, BufferPool.guardedFrame, hk, hp, bind, Except.bind,
    BufferPool.setFrame, ClockReplacer.markEvictable, if_true, ne_eq, not_true_eq_false, one_ne_zero, or_self, if_false,
    Nat.sub_self]
  congr 2
  · funext i
    simp only [Function.update_apply]
    split <;> rfl
  · congr 1
    funext i
    by_cases hi : i = 0 <;> simp [hi]

def writtenPages (pages : List ByteString) (frame : PoolFrame) (old : RelationPage) : List ByteString :=
  if frame.dirty then pages.set old.pageId.toNat frame.pageBytes else pages

theorem oneFrame_fetchPage {key old : RelationPage} {page : ByteString} {decoded decoded' : DecodedPage}
    (hold : frame.key = some old)
    (hne : key ≠ old) (hrel : old.relation = ⟨.heap, 1⟩) (hkey : key.relation = ⟨.heap, 1⟩) (hp : frame.pinCount = 0)
    (hl : old.pageId.toNat < pages.length) (hold' : decodePage old frame.pageBytes = .ok decoded')
    (hpage : (writtenPages pages frame old)[key.pageId.toNat]? = some page) (hd : decodePage key page = .ok decoded) :
    ((oneFrame pages frame handles).fetchPage key none false).1 =
      oneFrame (writtenPages pages frame old) ⟨some key, page, decoded.pageLsn, 1, false⟩ (handles ++ [⟨⟨0, key⟩, false⟩]) := by
  have hnone : (oneFrame pages frame handles).pool.pageTable key = none := by
    simp [oneFrame, hold, Ne.symm hne]
  have hsel : (oneFrame pages frame handles).pool.selectFrame = (⟨1, fun i => if i = 0 then frame else ⟨none, [], 0, 0, false⟩,
      fun k => if frame.key = some k then some 0 else none, [], ⟨1, Function.update (fun i => decide (i = 0)) 0 false,
        Function.update (fun i => decide (i = 0 ∧ frame.pinCount = 0)) 0 false, 0⟩⟩, some (0, false)) := by
    simp [oneFrame, BufferPool.selectFrame, ClockReplacer.evict, ClockReplacer.sweep, ClockReplacer.markEvictable, hp]
  obtain ⟨q, hq⟩ : ∃ q, (oneFrame pages frame handles).pool.selectFrame = (q, some (0, false)) := ⟨_, hsel⟩
  have hqe := (Prod.mk.inj (hq.symm.trans hsel)).1
  -- the victim is written where it is marked
  have hflush : ∃ frame', (if (q.frames 0).key.isSome then
      ({ oneFrame pages frame handles with pool := q } : PagePool).flushFrame 0 none
        else (({ oneFrame pages frame handles with pool := q } : PagePool), .ok ())) =
      ({ oneFrame (writtenPages pages frame old) frame handles with pool := q.setFrame 0 frame' }, .ok ()) ∧
        frame'.key = some old := by
    have hframe : q.frames 0 = frame := by rw [hqe]; rfl
    rw [if_pos (by rw [hframe, hold]; rfl)]
    by_cases hdirty : frame.dirty = true
    · refine ⟨{ frame with dirty := false }, ?_, hold⟩
      rw [flushFrame_marked (hframe ▸ hdirty) (hframe ▸ hold) (writePage_decoded (hframe ▸ hold') ?_), hframe]
      · simp only [oneFrame, hrel, Function.update_self, Function.update_idem, writtenPages, hdirty, if_true]
      · simpa only [oneFrame, hrel, Function.update_self] using hl
    · refine ⟨frame, ?_, hold⟩
      have hself : q.setFrame 0 frame = q := by rw [BufferPool.setFrame, ← hframe, Function.update_eq_self]
      rw [hself, flushFrame, hframe, if_pos (by simpa using hdirty)]
      simp only [oneFrame, writtenPages, if_neg hdirty]
  obtain ⟨frame', hflush, hkey'⟩ := hflush
  rw [fetchPage_fills hnone hq (fill_reads hflush ?_ hd)]
  · rw [hqe]
    simp only [give, oneFrame, BufferPool.load, BufferPool.setFrame, Function.update_self, Function.update_idem, hkey',
      ClockReplacer.recordAccess, ClockReplacer.markEvictable]
    congr 2
    · funext i
      by_cases hi : i = 0 <;> simp [hi]
    · funext k
      simp only [Function.update_apply, hold, Option.some.injEq]
      by_cases hk : k = key
      · rw [if_pos hk, if_pos hk.symm]
      · rw [if_neg hk, if_neg (Ne.symm hk)]
        split
        · rfl
        · rename_i hko
          rw [if_neg (Ne.symm hko)]
    · congr 1 <;> funext i <;> by_cases hi : i = 0 <;> simp [hi]
  · simpa only [RelationFiles.pageAt, oneFrame, hkey, Function.update_self] using hpage

end OneFrame

theorem newPage_first {blank : ByteString} (h : encodePage firstPage .heap 0 [] = .ok blank) :
    ((PagePool.start 1 (fun _ => [])).newPage ⟨.heap, 1⟩ none none false).1 =
      oneFrame [blank] ⟨some firstPage, blank, 0, 1, false⟩ [⟨⟨0, firstPage⟩, false⟩] := by
  have halloc : RelationFiles.allocatePage (fun _ => []) ⟨.heap, 1⟩ none =
      .ok (Function.update (fun _ => []) ⟨.heap, 1⟩ [blank], firstPage) := allocatePage_encoded rfl (Nat.two_pow_pos 64) h
  have hpage : (RelationFiles.pageAt (Function.update (fun _ => []) ⟨.heap, 1⟩ [blank]) firstPage) = some blank := by
    simp [RelationFiles.pageAt, firstPage, RelationPage.relation]
  have hfill :
      PagePool.fill ⟨Function.update (fun _ => []) ⟨.heap, 1⟩ [blank], { BufferPool.new 1 with freeFrames := [] }, []⟩ 0
        firstPage none false =
      (⟨Function.update (fun _ => []) ⟨.heap, 1⟩ [blank], { BufferPool.new 1 with freeFrames := [] }, []⟩, .ok (blank, 0)) :=
    fill_reads rfl hpage (decodePage_encodePage h)
  have hfetch := fetchPage_fills (s := ⟨Function.update (fun _ => []) ⟨.heap, 1⟩ [blank], .new 1, []⟩) rfl rfl hfill
  rw [newPage_allocated halloc]
  refine (congrArg Prod.fst hfetch).trans ?_
  simp only [oneFrame, give, BufferPool.load, BufferPool.new, ClockReplacer.new, ClockReplacer.recordAccess,
    ClockReplacer.markEvictable]
  congr 2
  · funext i
    by_cases hi : i = 0 <;> simp [hi]
  · funext k
    simp only [Function.update_apply, Option.some.injEq]
    exact if_congr eq_comm rfl rfl
  · congr 1 <;> funext i <;> by_cases hi : i = 0 <;> simp [hi]

theorem step_newPage (s : PagePool) (relation : RelationId) (kind : Option PageKind)
    (fault : Option FlushFault) (readFails : Bool) :
    s.step (.newPage relation kind fault readFails) = (s.newPage relation kind fault readFails).1 := by rw [step]

/-- **The run ends with the first page in the frame again**, its bytes as they were marked. -/
theorem evicted_run {blank other bytes marked : ByteString} (hblank : encodePage firstPage .heap 0 [] = .ok blank)
    (hother : encodePage secondPage .heap 0 [] = .ok other) (hbytes : encodePage firstPage .heap 3 [1] = .ok bytes)
    (hmarked : encodePage firstPage .heap 7 [1] = .ok marked) :
    (PagePool.start 1 (fun _ => [])).run (evictedCalls bytes) = oneFrame [marked, other] ⟨some firstPage, marked, 7, 1, false⟩
      [⟨⟨0, firstPage⟩, true⟩, ⟨⟨0, secondPage⟩, true⟩, ⟨⟨0, firstPage⟩, false⟩] ∧
    ∃ c, PoolRun 1 (fun _ => []) ((PagePool.start 1 (fun _ => [])).run (evictedCalls bytes)) c ∧ c.pending = fun _ => false := by
  have h1 : (PagePool.start 1 (fun _ => [])).step (.newPage ⟨.heap, 1⟩ none none false) = _ :=
    (step_newPage _ _ _ _ _).trans (newPage_first hblank)
  have h2 : (oneFrame [blank] ⟨some firstPage, blank, 0, 1, false⟩ [⟨⟨0, firstPage⟩, false⟩]).replaceBytes 0 bytes =
      (oneFrame [blank] ⟨some firstPage, bytes, 3, 1, false⟩ [⟨⟨0, firstPage⟩, false⟩], .ok ()) :=
    oneFrame_replaceBytes rfl rfl one_ne_zero (decodePage_encodePage hbytes) (Nat.zero_le 3)
  have h3 : (oneFrame [blank] ⟨some firstPage, bytes, 3, 1, false⟩ [⟨⟨0, firstPage⟩, false⟩]).markDirty 0 7 =
      (oneFrame [blank] ⟨some firstPage, marked, 7, 1, true⟩ [⟨⟨0, firstPage⟩, false⟩], .ok ()) :=
    oneFrame_markDirty rfl rfl one_ne_zero (show 3 ≤ 7 by decide) (decodePage_encodePage hbytes) hmarked
  have h4 : (oneFrame [blank] ⟨some firstPage, marked, 7, 1, true⟩ [⟨⟨0, firstPage⟩, false⟩]).step (.release 0) =
      oneFrame [blank] ⟨some firstPage, marked, 7, 0, true⟩ [⟨⟨0, firstPage⟩, true⟩] := oneFrame_release rfl rfl rfl
  have halloc : RelationFiles.allocatePage (Function.update (fun _ => []) ⟨.heap, 1⟩ [blank]) ⟨.heap, 1⟩ none =
      .ok (Function.update (fun _ => []) ⟨.heap, 1⟩ [blank, other], secondPage) := by
    have h := @allocatePage_encoded (Function.update (fun _ => []) ⟨.heap, 1⟩ [blank]) ⟨.heap, 1⟩ secondPage other
      (by rw [Function.update_self]; rfl) (by rw [Function.update_self]; exact (by decide : 1 < 2 ^ 64)) hother
    rw [Function.update_self, Function.update_idem] at h
    exact h
  have h5 : (oneFrame [blank] ⟨some firstPage, marked, 7, 0, true⟩ [⟨⟨0, firstPage⟩, true⟩]).step
        (.newPage ⟨.heap, 1⟩ none none false) =
      oneFrame [marked, other] ⟨some secondPage, other, 0, 1, false⟩ [⟨⟨0, firstPage⟩, true⟩, ⟨⟨0, secondPage⟩, false⟩] := by
    rw [step_newPage, newPage_allocated halloc]
    exact @oneFrame_fetchPage [blank, other] ⟨some firstPage, marked, 7, 0, true⟩ [⟨⟨0, firstPage⟩, true⟩]
      secondPage firstPage other _ _ rfl (by decide) rfl rfl rfl (show 0 < 2 by decide) (decodePage_encodePage hmarked) rfl (decodePage_encodePage hother)
  have h6 : (oneFrame [marked, other] ⟨some secondPage, other, 0, 1, false⟩
        [⟨⟨0, firstPage⟩, true⟩, ⟨⟨0, secondPage⟩, false⟩]).step (.release 1) =
      oneFrame [marked, other] ⟨some secondPage, other, 0, 0, false⟩ [⟨⟨0, firstPage⟩, true⟩, ⟨⟨0, secondPage⟩, true⟩] :=
    oneFrame_release rfl rfl rfl
  have h7 : (oneFrame [marked, other] ⟨some secondPage, other, 0, 0, false⟩
        [⟨⟨0, firstPage⟩, true⟩, ⟨⟨0, secondPage⟩, true⟩]).step (.fetchPage firstPage none false) =
      oneFrame [marked, other] ⟨some firstPage, marked, 7, 1, false⟩
        [⟨⟨0, firstPage⟩, true⟩, ⟨⟨0, secondPage⟩, true⟩, ⟨⟨0, firstPage⟩, false⟩] :=
    @oneFrame_fetchPage [marked, other] ⟨some secondPage, other, 0, 0, false⟩ [⟨⟨0, firstPage⟩, true⟩, ⟨⟨0, secondPage⟩, true⟩]
      firstPage secondPage marked _ _ rfl (by decide) rfl rfl rfl (show 1 < 2 by decide) (decodePage_encodePage hother) rfl
      (decodePage_encodePage hmarked)
  have hrun : (PagePool.start 1 (fun _ => [])).run (evictedCalls bytes) =
      oneFrame [marked, other] ⟨some firstPage, marked, 7, 1, false⟩
      [⟨⟨0, firstPage⟩, true⟩, ⟨⟨0, secondPage⟩, true⟩, ⟨⟨0, firstPage⟩, false⟩] := by
    rw [PagePool.run, evictedCalls, List.foldl_cons, List.foldl_cons, List.foldl_cons, List.foldl_cons, List.foldl_cons,
      List.foldl_cons, List.foldl_cons, List.foldl_nil, h1,
      show PagePool.step _ (.replaceBytes 0 bytes) = _ from congrArg Prod.fst h2,
      show PagePool.step _ (.markDirty 0 7) = _ from congrArg Prod.fst h3, h4, h5, h6, h7]
  refine ⟨hrun, ?_⟩
  -- nothing is pending once the page is marked
  have hstart := @PoolRun.start 1 (fun _ => [])
  have r1 := hstart.step (.newPage ⟨.heap, 1⟩ none none false) trivial
  generalize hc1 : Contents.call _ _ _ = c1 at r1
  have hp1 : c1.pending = fun _ => false := by rw [← hc1, Contents.call_newPage_pending]
  have r3 := (r1.step (.replaceBytes 0 bytes) trivial).step (.markDirty 0 7) trivial
  generalize hc3 : Contents.call _ _ _ = c3 at r3
  have hp3 : c3.pending = fun _ => false := by
    rw [← hc3, h1, show PagePool.step _ (.replaceBytes 0 bytes) = _ from congrArg Prod.fst h2]
    have hactive : ∀ frame : PoolFrame,
        (oneFrame [blank] frame [⟨⟨0, firstPage⟩, false⟩]).active 0 = .ok ⟨0, firstPage⟩ := fun _ => rfl
    simp only [Contents.call, Contents.mark, Contents.install, hactive, h2, h3, hp1]
    funext k
    simp only [Function.update_apply]
    split <;> rfl
  have r5 := (r3.step (.release 0) (fun _ _ => by rw [hp3])).step (.newPage ⟨.heap, 1⟩ none none false) trivial
  generalize hc5 : Contents.call _ _ _ = c5 at r5
  have hp5 : c5.pending = fun _ => false := by
    rw [← hc5, Contents.call_newPage_pending]
    exact hp3
  have r7 := (r5.step (.release 1) (fun _ _ => by rw [hp5])).step (.fetchPage firstPage none false) trivial
  generalize hc7 : Contents.call _ _ _ = c7 at r7
  refine ⟨c7, ?_, ?_⟩
  · rw [PagePool.run, evictedCalls, List.foldl_cons, List.foldl_cons, List.foldl_cons, List.foldl_cons, List.foldl_cons,
      List.foldl_cons, List.foldl_cons, List.foldl_nil]
    exact r7
  · rw [← hc7]
    exact hp5

theorem pool_transparent_one_frame : ∃ bytes marked c, encodePage firstPage .heap 3 [1] = .ok bytes ∧
    encodePage firstPage .heap 7 [1] = .ok marked ∧
    PoolRun 1 (fun _ => []) ((PagePool.start 1 (fun _ => [])).run (evictedCalls bytes)) c ∧
    ((PagePool.start 1 (fun _ => [])).run (evictedCalls bytes)).active 2 = .ok ⟨0, firstPage⟩ ∧
    ((PagePool.start 1 (fun _ => [])).run (evictedCalls bytes)).pageBytes 2 = .ok marked ∧ c.bytes firstPage = some marked ∧
    (((PagePool.start 1 (fun _ => [])).run (evictedCalls bytes)).flushAll (fun _ => none)).1.disk.pageAt firstPage =
      some marked := by
  obtain ⟨blank, hblank⟩ : ∃ b, encodePage firstPage .heap 0 [] = .ok b := ⟨_, rfl⟩
  obtain ⟨other, hother⟩ : ∃ b, encodePage secondPage .heap 0 [] = .ok b := ⟨_, rfl⟩
  obtain ⟨bytes, hbytes⟩ : ∃ b, encodePage firstPage .heap 3 [1] = .ok b := ⟨_, rfl⟩
  obtain ⟨marked, hmarked⟩ : ∃ b, encodePage firstPage .heap 7 [1] = .ok b := ⟨_, rfl⟩
  obtain ⟨hrun, c, hc, hpending⟩ := evicted_run hblank hother hbytes hmarked
  have hactive : ((PagePool.start 1 (fun _ => [])).run (evictedCalls bytes)).active 2 = .ok ⟨0, firstPage⟩ := by rw [hrun]; rfl
  have hread : ((PagePool.start 1 (fun _ => [])).run (evictedCalls bytes)).pageBytes 2 = .ok marked := by rw [hrun]; rfl
  obtain ⟨hguards, hflush, hok, -⟩ := pool_transparent hc
  obtain ⟨found, hfound, hbytes'⟩ := hguards 2 _ hactive
  rw [hread] at hfound
  cases hfound
  exact ⟨bytes, marked, c, hbytes, hmarked, hc, hactive, hread, hbytes', by rw [hflush _ hok _ (by rw [hpending]), hbytes']⟩

end MiniPostgres
