import MiniPostgres.Recovery
/-!
# PageLog — the images of a page in the log, in the pool and on disk

The log's records lie end to end, so what survives of it after a crash is a prefix of its records (`reopen_prefix`).  The
images of a page come in LSN order, and REDO from any content the page had leaves it at the last one (`redo_lands`).
`Synced` says where the pool and the files stand between two checkpoints: a page's base is its last image before the
checkpoint, and everything written since was logged since and flushed first.
-/
namespace MiniPostgres

/-! ## Records end to end -/

/-- The records fill the log from one position to another. -/
def Chained : Nat → List WalEntry → Nat → Prop
  | start, [], stop      => start = stop
  | start, e :: es, stop => e.lsn = start ∧ Chained e.endLsn es stop

theorem Chained.concat {e : WalEntry} : ∀ {es : List WalEntry} {start : Nat}, Chained start es e.lsn →
    Chained start (es ++ [e]) e.endLsn
  | [], _, h => ⟨h.symm, rfl⟩
  | _ :: _, _, h => ⟨h.1, Chained.concat h.2⟩

theorem Chained.bounds : ∀ {es : List WalEntry} {start stop : Nat}, Chained start es stop →
    start ≤ stop ∧ ∀ e ∈ es, start ≤ e.lsn ∧ e.endLsn ≤ stop
  | [], _, _, h => ⟨Nat.le_of_eq h, by simp⟩
  | e :: es, start, stop, h => by
    obtain ⟨hle, hes⟩ := Chained.bounds h.2
    have hlsn := h.1
    have hend : e.endLsn = e.lsn + e.length := rfl
    refine ⟨by omega, fun f hf => ?_⟩
    rcases List.mem_cons.1 hf with rfl | hf
    · exact ⟨Nat.le_of_eq hlsn.symm, hle⟩
    · have := hes f hf
      exact ⟨by omega, this.2⟩

theorem Chained.sorted : ∀ {es : List WalEntry} {start stop : Nat}, Chained start es stop →
    es.Pairwise (fun a b => a.endLsn ≤ b.lsn)
  | [], _, _, _ => .nil
  | _ :: _, _, _, h => .cons (fun f hf => ((Chained.bounds h.2).2 f hf).1) (Chained.sorted h.2)

theorem WalEntry.lsn_lt (e : WalEntry) : e.lsn < e.endLsn := by
  have := e.length_pos
  unfold WalEntry.endLsn; omega

/-- **The scan of a cut log gives a prefix of its records, with every record that is complete.** -/
theorem scanFrom_prefix (size : Nat) : ∀ {es : List WalEntry} {cursor stop : Nat}, Chained cursor es stop →
    ∃ pre post, es = pre ++ post ∧ (Wal.scanFrom size cursor es).1 = pre ∧ ∀ e ∈ es, e.endLsn ≤ size → e ∈ pre
  | [], _, _, _ => ⟨[], [], rfl, rfl, by simp⟩
  | e :: es, cursor, stop, h => by
    have hend : e.endLsn = cursor + e.length := by unfold WalEntry.endLsn; rw [h.1]
    have hlen : walHeaderSize ≤ e.length := by unfold WalEntry.length; omega
    -- past the cut no record is complete
    have hpast : size < e.endLsn → ∀ f ∈ e :: es, f.endLsn ≤ size → f ∈ ([] : List WalEntry) := by
      intro hlt f hf hle
      rcases List.mem_cons.1 hf with rfl | hf
      · omega
      · have := ((Chained.bounds h.2).2 f hf).1
        have := f.lsn_lt
        omega
    simp only [Wal.scanFrom]
    split
    · exact ⟨[], e :: es, rfl, rfl, hpast (by omega)⟩
    · split
      · exact ⟨[], e :: es, rfl, rfl, hpast (by omega)⟩
      · have hrest : Chained (cursor + e.length) es stop := hend ▸ h.2
        obtain ⟨pre, post, he, hs, hall⟩ := scanFrom_prefix size hrest
        refine ⟨e :: pre, post, by rw [he]; rfl, by simp only [hs], fun f hf hle => ?_⟩
        rcases List.mem_cons.1 hf with rfl | hf
        · exact List.mem_cons_self
        · exact List.mem_cons_of_mem _ (hall f hf hle)

theorem reopen_prefix {w : Wal} (h : Chained 0 w.entries w.endLsn) (size : Nat) :
    ∃ post, w.entries = (w.reopen size).entries ++ post ∧
      ∀ e ∈ w.entries, e.endLsn ≤ size → e ∈ (w.reopen size).entries := by
  obtain ⟨pre, post, he, hs, hall⟩ := scanFrom_prefix size h
  refine ⟨post, ?_, fun e he hle => ?_⟩
  · simp only [Wal.reopen, hs]; exact he
  · simp only [Wal.reopen, hs]; exact hall e he hle

/-! ## The images of a page -/

def imagesOf (key : PageKey) (entries : List WalEntry) : List Image :=
  entries.flatMap (fun e => (e.images.filter (fun p => p.1 = key)).map Prod.snd)

theorem mem_imagesOf {key : PageKey} {entries : List WalEntry} {i : Image} :
    i ∈ imagesOf key entries ↔ ∃ e ∈ entries, (key, i) ∈ e.images := by
  simp only [imagesOf, List.mem_flatMap, List.mem_map, List.mem_filter, decide_eq_true_eq]
  constructor
  · rintro ⟨e, he, ⟨k, j⟩, ⟨hm, rfl⟩, rfl⟩
    exact ⟨e, he, hm⟩
  · rintro ⟨e, he, hm⟩
    exact ⟨e, he, (key, i), ⟨hm, rfl⟩, rfl⟩

theorem imagesOf_append (key : PageKey) (es fs : List WalEntry) :
    imagesOf key (es ++ fs) = imagesOf key es ++ imagesOf key fs := List.flatMap_append

theorem imagesOf_cons (key : PageKey) (e : WalEntry) (es : List WalEntry) :
    imagesOf key (e :: es) = (e.images.filter (fun p => p.1 = key)).map Prod.snd ++ imagesOf key es := List.flatMap_cons

theorem imagesOf_plain (key : PageKey) {e : WalEntry} (h : e.images = []) : imagesOf key [e] = [] := by
  simp [imagesOf, h]

theorem imagesOf_single {key k : PageKey} {i : Image} {e : WalEntry} (h : e.images = [(k, i)]) :
    imagesOf key [e] = if key = k then [i] else [] := by
  unfold imagesOf
  rw [List.flatMap_singleton, h]
  by_cases hk : key = k
  · subst hk; simp
  · simp [hk, Ne.symm hk]

/-- What the log has made of a page. -/
def lastImage (entries : List WalEntry) (key : PageKey) : Image := (imagesOf key entries).getLast?.getD .blank

theorem lastImage_plain {entries : List WalEntry} {e : WalEntry} (h : e.images = []) :
    lastImage (entries ++ [e]) = lastImage entries := by
  funext key
  unfold lastImage
  rw [imagesOf_append, imagesOf_plain key h, List.append_nil]

theorem lastImage_single {entries : List WalEntry} {k : PageKey} {i : Image} {e : WalEntry} (h : e.images = [(k, i)]) :
    lastImage (entries ++ [e]) = Function.update (lastImage entries) k i := by
  funext key
  unfold lastImage
  rw [imagesOf_append, imagesOf_single h, Function.update_apply]
  split
  · simp
  · rw [List.append_nil]

/-! ## REDO of one page -/

/-- A page that is missing is read as a blank one. -/
def diskPage (disk : Disk) (key : PageKey) : DiskPage := (pageAt disk key).getD (.valid .blank)

theorem newer_diskPage (disk : Disk) (key : PageKey) (image : Image) :
    newer (pageAt disk key) image = newer (some (diskPage disk key)) image := by
  unfold diskPage
  cases pageAt disk key with
  | none => rfl
  | some d => rfl

theorem diskPage_redoImage (disk : Disk) (key k : PageKey) (image : Image) :
    diskPage (redoImage disk key image).1 k =
      if k = key then .valid (newer (some (diskPage disk k)) image) else diskPage disk k := by
  by_cases hk : k = key
  · subst hk
    rw [if_pos rfl, ← newer_diskPage, diskPage, redoImage_self]
    rfl
  · rw [if_neg hk]
    unfold diskPage
    rcases redoImage_other disk image hk with he | ⟨hn, he⟩
    · rw [he]
    · rw [hn, he]
      rfl

def redoPage (d : DiskPage) (images : List Image) : DiskPage := images.foldl (fun d i => .valid (newer (some d) i)) d

theorem diskPage_redoImages (k : PageKey) : ∀ (images : List (PageKey × Image)) (disk : Disk),
    diskPage (redoImages disk images).1 k =
      redoPage (diskPage disk k) ((images.filter (fun p => p.1 = k)).map Prod.snd)
  | [], _ => rfl
  | (key, image) :: images, disk => by
    simp only [redoImages]
    rw [diskPage_redoImages k images, diskPage_redoImage, List.filter_cons]
    by_cases hk : k = key
    · subst hk
      simp [redoPage]
    · simp [hk, Ne.symm hk]

theorem diskPage_redoFrom (k : PageKey) {startLsn : Nat} : ∀ (entries : List WalEntry) (disk : Disk),
    (∀ e ∈ entries, startLsn ≤ e.lsn) →
      diskPage (redoFrom startLsn disk entries) k = redoPage (diskPage disk k) (imagesOf k entries)
  | [], _, _ => rfl
  | e :: entries, disk, h => by
    have ih := diskPage_redoFrom k entries (redoEntry startLsn disk e) (fun f hf => h f (List.mem_cons_of_mem _ hf))
    rw [show redoFrom startLsn disk (e :: entries) = redoFrom startLsn (redoEntry startLsn disk e) entries from rfl, ih]
    unfold redoEntry
    rw [if_pos (h e List.mem_cons_self), diskPage_redoImages, imagesOf_cons, redoPage, redoPage, redoPage, List.foldl_append]

theorem redoFrom_before {startLsn : Nat} : ∀ (entries : List WalEntry) (disk : Disk), (∀ e ∈ entries, e.lsn < startLsn) →
    redoFrom startLsn disk entries = disk
  | [], _, _ => rfl
  | e :: entries, disk, h => by
    have he : redoEntry startLsn disk e = disk := by
      have := h e List.mem_cons_self
      unfold redoEntry
      rw [if_neg (by omega)]
    rw [show redoFrom startLsn disk (e :: entries) = redoFrom startLsn (redoEntry startLsn disk e) entries from rfl, he]
    exact redoFrom_before entries disk (fun f hf => h f (List.mem_cons_of_mem _ hf))

/-- **REDO lands on the last image**: from a torn page, from a page older than the images, and from one of the images. -/
theorem redo_lands : ∀ (images : List Image) (d : DiskPage) (last : Image),
    images.Pairwise (fun a b => a.lsn < b.lsn) →
    (d = .torn ∨ ∃ c, d = .valid c ∧ (c ∈ images ∨ ∀ i ∈ images, c.lsn < i.lsn)) →
    images.getLast? = some last → redoPage d images = .valid last
  | [], _, _, _, _, hl => by cases hl
  | [i], d, last, _, hd, hl => by
    cases hl
    simp only [redoPage, List.foldl_cons, List.foldl_nil]
    rcases hd with rfl | ⟨c, rfl, hc | hc⟩
    · rfl
    · rw [List.mem_singleton.1 hc]; simp [newer]
    · simp [newer, hc i (List.mem_singleton.2 rfl)]
  | i :: j :: rest, d, last, hs, hd, hl => by
    obtain ⟨hi, hs'⟩ := List.pairwise_cons.1 hs
    have hnext : redoPage d (i :: j :: rest) = redoPage (.valid (newer (some d) i)) (j :: rest) := rfl
    rw [hnext]
    refine redo_lands (j :: rest) _ last hs' (Or.inr ⟨_, rfl, ?_⟩) (by simpa using hl)
    rcases hd with rfl | ⟨c, rfl, hc | hc⟩
    · exact Or.inr hi
    · rcases List.mem_cons.1 hc with rfl | hc
      · -- the page is at the first image, and all others are newer
        refine Or.inr (fun k hk => ?_)
        simp only [newer, Nat.lt_irrefl, if_false]
        exact hi k hk
      · have hlt := hi c hc
        refine Or.inl ?_
        simp only [newer]
        rw [if_neg (by omega)]
        exact hc
    · refine Or.inr (fun k hk => ?_)
      simp only [newer, hc i List.mem_cons_self, if_true]
      exact hi k hk

/-! ## The pool and the files between two checkpoints -/

/-- **Where pool and files stand**, for the records `old` before the checkpoint and `new` after it; `latest` is what the pool
shows of each page. -/
structure Synced (old new : List WalEntry) (latest : PageKey → Image) (s : Storage) : Prop where
  base   : ∀ k p, s.file k = some p → p.base = lastImage old k
  writes : ∀ k p w, s.file k = some p → w ∈ p.writes → ∃ e ∈ new, (k, w) ∈ e.images ∧ e.endLsn ≤ s.wal.flushedLsn
  dirty  : ∀ k i, s.frames k = some ⟨i, true⟩ → ∃ e ∈ new, (k, i) ∈ e.images
  clean  : ∀ k i p, s.frames k = some ⟨i, false⟩ → s.file k = some p → i = p.current
  held   : ∀ k p, s.file k = some p → s.held k = some (latest k)
  filed  : ∀ e ∈ old ++ new, ∀ q ∈ e.images, s.file q.1 ≠ none
  fresh  : ∀ k, s.file k = none → latest k = .blank ∧ s.frames k = none

namespace Synced

variable {old new : List WalEntry} {latest : PageKey → Image} {s : Storage}

/-- What the log's own steps keep: files and frames are as they were. -/
theorem logs (h : Synced old new latest s) (w : Wal) (hw : s.wal.flushedLsn ≤ w.flushedLsn) {e : WalEntry}
    (he : ∀ q ∈ e.images, s.file q.1 ≠ none) : Synced old (new ++ [e]) latest { s with wal := w } where
  base := h.base
  writes k p i hp hi := by
    obtain ⟨f, hf, hm, hle⟩ := h.writes k p i hp hi
    exact ⟨f, List.mem_append_left _ hf, hm, Nat.le_trans hle hw⟩
  dirty k i hf := by
    obtain ⟨f, hf, hm⟩ := h.dirty k i hf
    exact ⟨f, List.mem_append_left _ hf, hm⟩
  clean := h.clean
  held := h.held
  filed f hf q hq := by
    rw [← List.append_assoc] at hf
    rcases List.mem_append.1 hf with hf | hf
    · exact h.filed f hf q hq
    · rw [List.mem_singleton.1 hf] at hq; exact he q hq
  fresh := h.fresh

theorem flushes (h : Synced old new latest s) (w : Wal) (hw : s.wal.flushedLsn ≤ w.flushedLsn) :
    Synced old new latest { s with wal := w } where
  base := h.base
  writes k p i hp hi := by
    obtain ⟨f, hf, hm, hle⟩ := h.writes k p i hp hi
    exact ⟨f, hf, hm, Nat.le_trans hle hw⟩
  dirty := h.dirty
  clean := h.clean
  held := h.held
  filed := h.filed
  fresh := h.fresh

/-- A new page is blank, and the pool has never seen it. -/
theorem allocatePage (h : Synced old new latest s) (table : Nat) (hold : ∀ k, s.file k = none → lastImage old k = .blank) :
    Synced old new latest (s.allocatePage table) := by
  have hfile : ∀ k p, (s.allocatePage table).file k = some p → s.file k = some p ∨ (s.file k = none ∧ p = ⟨.blank, []⟩) := by
    intro k p hp
    cases hk : s.file k with
    | some q => rw [Storage.file_allocatePage s table hk] at hp; exact Or.inl hp
    | none => exact Or.inr ⟨rfl, Storage.file_allocated s table hk hp⟩
  have hheld : ∀ k, s.file k ≠ none → (s.allocatePage table).held k = s.held k := by
    intro k hk
    obtain ⟨q, hq⟩ := Option.ne_none_iff_exists'.1 hk
    have hq' := Storage.file_allocatePage s table hq
    unfold Storage.held
    rw [hq, hq']
    rfl
  refine ⟨fun k p hp => ?_, fun k p w hp hw => ?_, h.dirty, fun k i p hf hp => ?_, fun k p hp => ?_, fun e he q hq => ?_,
    fun k hk => ?_⟩
  · rcases hfile k p hp with hp | ⟨hn, rfl⟩
    · exact h.base k p hp
    · exact (hold k hn).symm
  · rcases hfile k p hp with hp | ⟨hn, rfl⟩
    · exact h.writes k p w hp hw
    · cases hw
  · rcases hfile k p hp with hp | ⟨hn, rfl⟩
    · exact h.clean k i p hf hp
    · have hf' : s.frames k = some ⟨i, false⟩ := hf
      rw [(h.fresh k hn).2] at hf'
      cases hf'
  · rcases hfile k p hp with hp' | ⟨hn, rfl⟩
    · rw [hheld k (by rw [hp']; simp)]
      exact h.held k p hp'
    · obtain ⟨hb, hf⟩ := h.fresh k hn
      have hf' : (s.allocatePage table).frames k = none := hf
      unfold Storage.held
      rw [hf', hp, hb]
      rfl
  · obtain ⟨p, hp⟩ := Option.ne_none_iff_exists'.1 (h.filed e he q hq)
    rw [Storage.file_allocatePage s table hp]
    simp
  · refine h.fresh k ?_
    by_contra hne
    obtain ⟨p, hp⟩ := Option.ne_none_iff_exists'.1 hne
    rw [Storage.file_allocatePage s table hp] at hk
    cases hk

theorem setFrame (h : Synced old new latest s) {key : PageKey} {i : Image} (hf : s.file key ≠ none)
    (hi : ∃ e ∈ new, (key, i) ∈ e.images) : Synced old new (Function.update latest key i)
      { s with frames := Function.update s.frames key (some ⟨i, true⟩) } := by
  refine ⟨h.base, h.writes, fun k j hk => ?_, fun k j p hk hp => ?_, fun k p hp => ?_, h.filed, fun k hk => ?_⟩
  · simp only [Function.update_apply] at hk
    split at hk
    · rename_i he; cases hk; rw [he]; exact hi
    · exact h.dirty k j hk
  · simp only [Function.update_apply] at hk
    split at hk
    · cases hk
    · exact h.clean k j p hk hp
  · rw [Storage.held_setFrame, Function.update_apply]
    split
    · rfl
    · exact h.held k p hp
  · have hne : k ≠ key := fun he => hf (he ▸ hk)
    simp only [Function.update_of_ne hne]
    exact h.fresh k hk

theorem writeFrame (h : Synced old new latest s) {key : PageKey} {i : Image} (hf : s.frames key = some ⟨i, true⟩)
    (hnew : ∀ e ∈ new, e.endLsn ≤ s.wal.flushedLsn) : Synced old new latest
      { s.writePage key i with frames := Function.update s.frames key (some ⟨i, false⟩) } := by
  have hfile : ∀ k p, (s.writePage key i).file k = some p → ∃ q, s.file k = some q ∧
      p = if k = key then { q with writes := q.writes ++ [i] } else q := by
    intro k p hp
    rw [Storage.file_writePage] at hp
    obtain ⟨q, hq, rfl⟩ := Option.map_eq_some_iff.1 hp
    exact ⟨q, hq, rfl⟩
  have hnone : ∀ k, (s.writePage key i).file k = none ↔ s.file k = none := fun k => by
    rw [Storage.file_writePage]; simp
  refine ⟨fun k p hp => ?_, fun k p w hp hw => ?_, fun k j hk => ?_, fun k j p hk hp => ?_, fun k p hp => ?_,
    fun e he q hq => ?_, fun k hk => ?_⟩
  · obtain ⟨q, hq, rfl⟩ := hfile k p hp
    rw [← h.base k q hq]
    split <;> rfl
  · obtain ⟨q, hq, rfl⟩ := hfile k p hp
    split at hw
    · rename_i hk
      rcases List.mem_append.1 hw with hw | hw
      · exact h.writes k q w hq hw
      · rw [List.mem_singleton.1 hw, hk]
        obtain ⟨e, he, hm⟩ := h.dirty key i hf
        exact ⟨e, he, hm, hnew e he⟩
    · exact h.writes k q w hq hw
  · simp only [Function.update_apply] at hk
    split at hk
    · cases hk
    · exact h.dirty k j hk
  · obtain ⟨q, hq, rfl⟩ := hfile k p hp
    simp only [Function.update_apply] at hk
    split at hk
    · rename_i he
      cases hk
      rw [if_pos he, Storage.current_write]
    · rename_i he
      rw [if_neg he]
      exact h.clean k j q hk hq
  · obtain ⟨q, hq, rfl⟩ := hfile k p hp
    have hold := h.held k q hq
    refine (Storage.held_setFrame (s.writePage key i) key ⟨i, false⟩ k).trans ?_
    unfold Storage.held at hold ⊢
    split
    · rename_i hk
      rw [hk, hf] at hold
      rw [hk]
      exact hold
    · rename_i hk
      rw [show (s.writePage key i).frames = s.frames from rfl, Storage.file_writePage]
      simp only [hq, Option.map_some, if_neg hk] at hold ⊢
      exact hold
  · rw [Ne, show Storage.file { s.writePage key i with frames := Function.update s.frames key (some ⟨i, false⟩) } q.1 =
      (s.writePage key i).file q.1 from rfl, hnone]
    exact h.filed e he q hq
  · have hk' := (hnone k).1 hk
    obtain ⟨hb, hfr⟩ := h.fresh k hk'
    have hne : k ≠ key := fun he => by rw [he, hf] at hfr; cases hfr
    simp only [Function.update_of_ne hne]
    exact ⟨hb, hfr⟩

theorem flushFrame (h : Synced old new latest s) (key : PageKey) (hle : s.wal.flushedLsn ≤ s.wal.endLsn)
    (hnew : ∀ e ∈ new, e.endLsn ≤ s.wal.endLsn) : Synced old new latest (s.flushFrame key) := by
  unfold Storage.flushFrame
  split
  · rename_i i hf
    exact (h.flushes s.wal.flush hle).writeFrame hf hnew
  · exact h

/-- A clean frame holds what its page holds, so the pool shows the same without it. -/
theorem dropFrame (h : Synced old new latest s) {key : PageKey} (hc : ∀ i, s.frames key ≠ some ⟨i, true⟩) :
    Synced old new latest { s with frames := Function.update s.frames key none } := by
  refine ⟨h.base, h.writes, fun k j hk => ?_, fun k j p hk hp => ?_, fun k p hp => ?_, h.filed, fun k hk => ?_⟩
  · simp only [Function.update_apply] at hk
    split at hk
    · cases hk
    · exact h.dirty k j hk
  · simp only [Function.update_apply] at hk
    split at hk
    · cases hk
    · exact h.clean k j p hk hp
  · have hp' : s.file k = some p := hp
    have hold := h.held k p hp'
    rw [Storage.held_dropFrame]
    split
    · rename_i he
      subst he
      unfold Storage.held at hold
      cases hfr : s.frames k with
      | none => rw [hfr] at hold; exact hold
      | some f =>
        obtain ⟨i, d⟩ := f
        cases d with
        | true => exact absurd hfr (hc i)
        | false =>
          rw [hfr] at hold
          rw [← hold, hp', Option.map_some, ← h.clean k i p hfr hp']
    · exact hold
  · simp only [Function.update_apply]
    split
    · exact ⟨(h.fresh k hk).1, rfl⟩
    · exact h.fresh k hk

theorem evict (h : Synced old new latest s) (key : PageKey) (hle : s.wal.flushedLsn ≤ s.wal.endLsn)
    (hnew : ∀ e ∈ new, e.endLsn ≤ s.wal.endLsn) : Synced old new latest (s.evict key) := by
  refine (h.flushFrame key hle hnew).dropFrame (fun i hf => ?_)
  unfold Storage.flushFrame at hf
  split at hf
  · simp at hf
  · rename_i hne
    exact hne i hf

theorem flushAll (h : Synced old new latest s) (hle : s.wal.flushedLsn ≤ s.wal.endLsn)
    (hnew : ∀ e ∈ new, e.endLsn ≤ s.wal.endLsn) : Synced old new latest s.flushAll := by
  have hfile : ∀ k p, s.flushAll.file k = some p → ∃ q, s.file k = some q ∧
      ((∃ i, s.frames k = some ⟨i, true⟩ ∧ p = { q with writes := q.writes ++ [i] }) ∨
        ((∀ i, s.frames k ≠ some ⟨i, true⟩) ∧ p = q)) := by
    intro k p hp
    rw [Storage.file_flushAll] at hp
    obtain ⟨q, hq, rfl⟩ := Option.map_eq_some_iff.1 hp
    refine ⟨q, hq, ?_⟩
    split
    · rename_i i hf; exact Or.inl ⟨i, hf, rfl⟩
    · rename_i hne; exact Or.inr ⟨fun i hf => hne i hf, rfl⟩
  have hnone : ∀ k, s.flushAll.file k = none ↔ s.file k = none := fun k => by rw [Storage.file_flushAll]; simp
  refine ⟨fun k p hp => ?_, fun k p w hp hw => ?_, fun k j hk => ?_, fun k j p hk hp => ?_, fun k p hp => ?_,
    fun e he q hq => ?_, fun k hk => ?_⟩
  · obtain ⟨q, hq, ⟨i, -, rfl⟩ | ⟨-, rfl⟩⟩ := hfile k p hp
    · exact h.base k q hq
    · exact h.base k p hq
  · obtain ⟨q, hq, ⟨i, hf, rfl⟩ | ⟨-, rfl⟩⟩ := hfile k p hp
    · rcases List.mem_append.1 hw with hw | hw
      · obtain ⟨e, he, hm, hf'⟩ := h.writes k q w hq hw
        exact ⟨e, he, hm, Nat.le_trans hf' hle⟩
      · rw [List.mem_singleton.1 hw]
        obtain ⟨e, he, hm⟩ := h.dirty k i hf
        exact ⟨e, he, hm, hnew e he⟩
    · obtain ⟨e, he, hm, hf'⟩ := h.writes k p w hq hw
      exact ⟨e, he, hm, Nat.le_trans hf' hle⟩
  · obtain ⟨f, -, he⟩ := Option.map_eq_some_iff.1 hk
    cases he
  · obtain ⟨⟨i, d⟩, hf, he⟩ := Option.map_eq_some_iff.1 hk
    cases he
    obtain ⟨q, hq, ⟨j, hf', rfl⟩ | ⟨hne, rfl⟩⟩ := hfile k p hp
    · rw [hf] at hf'
      cases hf'
      rw [Storage.current_write]
    · cases d with
      | true => exact absurd hf (hne i)
      | false => exact h.clean k i p hf hq
  · obtain ⟨q, hq, hcase⟩ := hfile k p hp
    have hold := h.held k q hq
    unfold Storage.held at hold ⊢
    cases hf : s.frames k with
    | some f =>
      rw [hf] at hold
      simp only [Storage.flushAll, hf, Option.map_some]
      exact hold
    | none =>
      rcases hcase with ⟨i, hf', -⟩ | ⟨-, rfl⟩
      · rw [hf] at hf'; cases hf'
      · rw [hf, hq] at hold
        rw [show s.flushAll.frames k = none by simp [Storage.flushAll, hf], hp]
        exact hold
  · rw [Ne, hnone]
    exact h.filed e he q hq
  · obtain ⟨hb, hf⟩ := h.fresh k ((hnone k).1 hk)
    exact ⟨hb, by simp [Storage.flushAll, hf]⟩

end Synced

end MiniPostgres
