import MiniPostgres.PageLog
/-!
# Redo — a recovery that is interrupted may be started again

A crash during `recover` leaves the files with some images redone, the extension of a relation half done, or the page that was
being allocated or repaired torn.  REDO from there ends in the files that the uninterrupted one leaves
(`redoAll_of_interrupted`): what the first run redid is on disk, so the second skips it, and the torn page is behind the image it
was torn by.  When no image leaves a gap before its page (`Gapless`), the only page that REDO allocates for an image is the
image's own.
-/
namespace MiniPostgres

/-! ## The images of the log, one after the other -/

/-- The images that are redone, in log order. -/
def imagesFrom (startLsn : Nat) (entries : List WalEntry) : List (PageKey × Image) :=
  (entries.filter fun e => startLsn ≤ e.lsn).flatMap WalEntry.images

def redoAll (disk : Disk) (images : List (PageKey × Image)) : Disk := images.foldl (fun disk p => (redoImage disk p.1 p.2).1) disk

theorem redoAll_append (disk : Disk) (done todo : List (PageKey × Image)) :
    redoAll disk (done ++ todo) = redoAll (redoAll disk done) todo := List.foldl_append

theorem redoImages_eq_redoAll :
    ∀ (images : List (PageKey × Image)) (disk : Disk), (redoImages disk images).1 = redoAll disk images
  | [], _              => rfl
  | (key, image) :: images, disk => redoImages_eq_redoAll images (redoImage disk key image).1

theorem redoFrom_eq_redoAll (startLsn : Nat) : ∀ (entries : List WalEntry) (disk : Disk),
    redoFrom startLsn disk entries = redoAll disk (imagesFrom startLsn entries)
  | [], _            => rfl
  | e :: entries, disk => by
    have ih := redoFrom_eq_redoAll startLsn entries (redoEntry startLsn disk e)
    unfold imagesFrom at ih ⊢
    show redoFrom startLsn (redoEntry startLsn disk e) entries = _
    rw [ih]
    unfold redoEntry
    by_cases hs : startLsn ≤ e.lsn
    · rw [if_pos hs, List.filter_cons_of_pos (by simpa using hs), List.flatMap_cons, redoAll_append, redoImages_eq_redoAll]
    · rw [if_neg hs, List.filter_cons_of_neg (by simpa using hs)]

theorem redoAll_onDisk {disk : Disk} {images : List (PageKey × Image)} {p : PageKey × Image} (h : p ∈ images) :
    OnDisk (redoAll disk images) p.1 p.2 := by
  rw [← redoImages_eq_redoAll]
  exact redoImages_onDisk images disk h

/-- **What is on disk is not redone.** -/
theorem redoAll_of_onDisk {disk : Disk} {images : List (PageKey × Image)} (h : ∀ p ∈ images, OnDisk disk p.1 p.2) :
    redoAll disk images = disk := by
  rw [← redoImages_eq_redoAll, redoImages_of_onDisk images h]

/-! ## Where a recovery can be interrupted -/

/-- Relation `table` with other pages. -/
def Disk.withPages (disk : Disk) (table : Nat) (pages : List DiskPage) : Disk := Function.update disk table pages

/-- **The files when a recovery stops**: between two images, while the relation is extended, in the middle of the allocation of a
page, or in the middle of a repair.  A file keeps whole pages; the page that was being written is torn. -/
inductive Interrupted (images : List (PageKey × Image)) (disk : Disk) : Disk → Prop
  | between (done todo : List (PageKey × Image)) (h : images = done ++ todo) : Interrupted images disk (redoAll disk done)
  | extending (done todo : List (PageKey × Image)) (key : PageKey) (image : Image)
    (h : images = done ++ (key, image) :: todo) (page : Nat)
      (hp : page ≤ key.page) : Interrupted images disk
        ((redoAll disk done).withPages key.table (allocateThrough (redoAll disk done key.table) page))
  | allocating (done todo : List (PageKey × Image)) (key : PageKey) (image : Image)
    (h : images = done ++ (key, image) :: todo) (page : Nat)
      (hn : (redoAll disk done key.table).length ≤ page) (hp : page ≤ key.page) : Interrupted images disk
        ((redoAll disk done).withPages key.table ((allocateThrough (redoAll disk done key.table) page).set page .torn))
  | repairing (done todo : List (PageKey × Image)) (key : PageKey) (image : Image) (h : images = done ++ (key, image) :: todo)
      (hn : ¬OnDisk ((redoAll disk done).withPages key.table
        (allocateThrough (redoAll disk done key.table) key.page)) key image) :
      Interrupted images disk
        ((redoAll disk done).withPages key.table ((allocateThrough (redoAll disk done key.table) key.page).set key.page .torn))

theorem allocateThrough_twice (pages : List DiskPage) {n page : Nat} (h : n ≤ page) :
    allocateThrough (allocateThrough pages n) page = allocateThrough pages page := by
  unfold allocateThrough
  rw [List.append_assoc, List.replicate_append_replicate, List.length_append, List.length_replicate]
  congr 2
  omega

theorem OnDisk.extending {disk : Disk} {k : PageKey} {i : Image} (h : OnDisk disk k i) (table page : Nat) :
    OnDisk (disk.withPages table (allocateThrough (disk table) page)) k i := by
  obtain ⟨current, hc, hle⟩ := h
  refine ⟨current, ?_, hle⟩
  unfold pageAt Disk.withPages at *
  by_cases ht : k.table = table
  · subst ht
    rw [Function.update_self]
    exact getElem?_allocateThrough page hc
  · rw [Function.update_of_ne ht]
    exact hc

/-- **A relation that was extended on the way to the page** makes no difference to its REDO. -/
theorem redoImage_extending (disk : Disk) (key : PageKey) (image : Image) {page : Nat} (h : page ≤ key.page) :
    (redoImage (disk.withPages key.table (allocateThrough (disk key.table) page)) key image).1 =
      (redoImage disk key image).1 := by
  unfold redoImage Disk.withPages
  simp only [Function.update_self, allocateThrough_twice _ h, Function.update_idem]

/-! ## A torn page is behind -/

/-- The page would be set by the image: it is torn, or older. -/
def Behind (disk : Disk) (key : PageKey) (image : Image) : Prop :=
  pageAt disk key = some .torn ∨ ∃ current, pageAt disk key = some (.valid current) ∧ current.lsn < image.lsn

/-- The two differ in one page at most. -/
def SamePagesBut (key : PageKey) (disk disk' : Disk) : Prop :=
  ∃ page, key.page < (disk key.table).length ∧ disk' = disk.withPages key.table ((disk key.table).set key.page page)

theorem SamePagesBut.onDisk {key k : PageKey} {i : Image} {disk disk' : Disk} (h : SamePagesBut key disk disk') (hk : k ≠ key)
    (hi : OnDisk disk k i) : OnDisk disk' k i := by
  obtain ⟨page, -, rfl⟩ := h
  obtain ⟨current, hc, hle⟩ := hi
  refine ⟨current, ?_, hle⟩
  unfold pageAt Disk.withPages at *
  by_cases ht : k.table = key.table
  · have hp : key.page ≠ k.page := by
      intro hp
      apply hk
      cases k
      cases key
      simp_all
    rw [ht, Function.update_self, List.getElem?_set_ne hp, ← ht]
    exact hc
  · rw [Function.update_of_ne ht]
    exact hc

theorem SamePagesBut.redoImage {key : PageKey} {disk disk' : Disk} (h : SamePagesBut key disk disk') (i : Image) :
    SamePagesBut key disk (MiniPostgres.redoImage disk' key i).1 := by
  obtain ⟨page, hlt, rfl⟩ := h
  refine ⟨.valid (newer (pageAt (disk.withPages key.table ((disk key.table).set key.page page)) key) i), hlt, ?_⟩
  rw [redoImage_files]
  unfold Disk.withPages
  rw [Function.update_self, Function.update_idem, allocateThrough_of_lt (by rwa [List.length_set]), List.set_set]

theorem Behind.redoImage {key : PageKey} {image i : Image} {disk : Disk} (h : Behind disk key image) (hi : i.lsn < image.lsn) :
    Behind (MiniPostgres.redoImage disk key i).1 key image := by
  right
  refine ⟨_, redoImage_self disk key i, ?_⟩
  rcases h with h | ⟨current, h, hlt⟩
  · rw [h]
    exact hi
  · rw [h]
    unfold newer
    dsimp only
    split
    · exact hi
    · exact hlt

/-- **The images that are on disk change nothing but the torn page**, which stays behind the image it was torn by. -/
theorem redoAll_behind {key : PageKey} {image : Image} {disk : Disk} : ∀ (done : List (PageKey × Image)) {disk' : Disk},
    (∀ p ∈ done, OnDisk disk p.1 p.2 ∧ (p.1 = key → p.2.lsn < image.lsn)) → SamePagesBut key disk disk' → Behind disk' key image →
    SamePagesBut key disk (redoAll disk' done) ∧ Behind (redoAll disk' done) key image
  | [], _, _, hs, hb                  => ⟨hs, hb⟩
  | (k, i) :: done, disk', h, hs, hb => by
    have hfirst := h (k, i) List.mem_cons_self
    have hrest : ∀ p ∈ done, OnDisk disk p.1 p.2 ∧ (p.1 = key → p.2.lsn < image.lsn) :=
      fun p hp => h p (List.mem_cons_of_mem _ hp)
    show SamePagesBut key disk (redoAll (redoImage disk' k i).1 done) ∧ Behind (redoAll (redoImage disk' k i).1 done) key image
    by_cases hk : k = key
    · subst hk
      exact redoAll_behind done hrest (hs.redoImage i) (hb.redoImage (hfirst.2 rfl))
    · rw [redoImage_of_onDisk (hs.onDisk hk hfirst.1)]
      exact redoAll_behind done hrest hs hb

theorem redoImage_behind {key : PageKey} {image : Image} {disk disk' : Disk} (hs : SamePagesBut key disk disk')
    (hb : Behind disk' key image) :
    (redoImage disk' key image).1 = disk.withPages key.table ((disk key.table).set key.page (.valid image)) := by
  have hnewer : newer (pageAt disk' key) image = image := by
    rcases hb with hb | ⟨current, hb, hlt⟩
    · rw [hb]
      rfl
    · rw [hb]
      exact if_pos hlt
  obtain ⟨page, hlt, rfl⟩ := hs
  rw [redoImage_files, hnewer]
  unfold Disk.withPages
  rw [Function.update_self, Function.update_idem, allocateThrough_of_lt (by rwa [List.length_set]), List.set_set]

/-! ## Starting again -/

theorem redoAll_of_repairing {images done todo : List (PageKey × Image)} {key : PageKey} {image : Image} {disk : Disk}
    (h : images = done ++ (key, image) :: todo)
    (hn : ¬OnDisk ((redoAll disk done).withPages key.table (allocateThrough (redoAll disk done key.table) key.page)) key image) :
    redoAll ((redoAll disk done).withPages key.table
      ((allocateThrough (redoAll disk done key.table) key.page).set key.page .torn)) images =
      redoAll disk images := by
  rw [h, redoAll_append, redoAll_append]
  show redoAll (redoImage _ key image).1 todo = redoAll (redoImage _ key image).1 todo
  generalize hd : redoAll disk done = d at hn
  have hdone : ∀ p ∈ done, OnDisk d p.1 p.2 := fun p hp => hd ▸ redoAll_onDisk hp
  -- the files with the relation extended, where the images before are on disk too
  generalize hx : d.withPages key.table (allocateThrough (d key.table) key.page) = extended at hn
  have hkey : extended key.table = allocateThrough (d key.table) key.page := by
    rw [← hx]
    exact Function.update_self ..
  have hlt : key.page < (extended key.table).length := by
    rw [hkey]
    exact length_allocateThrough _ _
  have hold : ∀ p ∈ done, OnDisk extended p.1 p.2 ∧ (p.1 = key → p.2.lsn < image.lsn) := by
    intro p hp
    have hon : OnDisk extended p.1 p.2 := hx ▸ (hdone p hp).extending key.table key.page
    refine ⟨hon, fun hk => ?_⟩
    obtain ⟨current, hc, hle⟩ := hon
    by_contra hge
    exact hn ⟨current, hk ▸ hc, by omega⟩
  have htorn : SamePagesBut key extended (d.withPages key.table
      ((allocateThrough (d key.table) key.page).set key.page .torn)) := by
    refine ⟨.torn, hlt, ?_⟩
    rw [hkey, ← hx]
    unfold Disk.withPages
    rw [Function.update_idem]
  have hbehind : Behind (d.withPages key.table ((allocateThrough (d key.table) key.page).set key.page .torn)) key image := by
    left
    unfold pageAt Disk.withPages
    rw [Function.update_self, List.getElem?_set_self (length_allocateThrough _ _)]
  obtain ⟨hs, hb⟩ := redoAll_behind done hold htorn hbehind
  -- without the crash the page is set by the image as well
  have hplain : Behind extended key image := by
    have hpage : pageAt extended key = (allocateThrough (d key.table) key.page)[key.page]? := congrArg (·[key.page]?) hkey
    cases hp : (allocateThrough (d key.table) key.page)[key.page]? with
    | none => exact absurd (length_allocateThrough (d key.table) key.page) (not_lt.2 (List.getElem?_eq_none_iff.1 hp))
    | some page =>
      rw [hp] at hpage
      cases page with
      | torn => exact Or.inl hpage
      | valid current => exact Or.inr ⟨current, hpage, not_le.1 fun hle => hn ⟨current, hpage, hle⟩⟩
  rw [redoImage_behind hs hb, ← redoImage_extending d key image (Nat.le_refl _), hx,
    redoImage_behind ⟨_, hlt, (Function.update_eq_self_iff.2 (List.set_getElem_self hlt)).symm⟩ hplain]

/-- **No image leaves a gap**: the pages before its page are in the file, or of an earlier image. -/
def Gapless (images : List (PageKey × Image)) (disk : Disk) : Prop :=
  ∀ done key image todo, images = done ++ (key, image) :: todo → ∀ n < key.page, n < (disk key.table).length ∨
    ∃ i, (⟨key.table, n⟩, i) ∈ done

theorem length_redoImage (disk : Disk) (key : PageKey) (image : Image) (t : Nat) :
    (disk t).length ≤ ((redoImage disk key image).1 t).length := by
  rw [redoImage_files, Function.update_apply]
  split
  · rename_i ht
    rw [ht, List.length_set, allocateThrough, List.length_append]
    omega
  · exact Nat.le_refl _

theorem length_redoAll (t : Nat) :
    ∀ (images : List (PageKey × Image)) (disk : Disk), (disk t).length ≤ (redoAll disk images t).length
  | [], _              => Nat.le_refl _
  | p :: images, disk => Nat.le_trans (length_redoImage disk p.1 p.2 t) (length_redoAll t images _)

theorem Gapless.reaches {images done todo : List (PageKey × Image)} {key : PageKey} {image : Image} {disk : Disk}
    (hg : Gapless images disk)
    (h : images = done ++ (key, image) :: todo) : key.page ≤ (redoAll disk done key.table).length := by
  by_contra hlt
  rcases hg done key image todo h (redoAll disk done key.table).length (by omega) with hl | ⟨i, hi⟩
  · have := length_redoAll key.table done disk
    omega
  · obtain ⟨current, hc, -⟩ := redoAll_onDisk hi
    exact Nat.lt_irrefl _ (List.getElem?_eq_some_iff.1 hc).1

theorem not_onDisk_allocated {disk : Disk} {key : PageKey} {image : Image}
    (hl : (disk key.table).length ≤ key.page) (hpos : 0 < image.lsn) :
    ¬OnDisk (disk.withPages key.table (allocateThrough (disk key.table) key.page)) key image := by
  rintro ⟨current, hc, hle⟩
  unfold pageAt Disk.withPages at hc
  rw [Function.update_self, getElem?_allocateThrough_none _ (List.getElem?_eq_none_iff.2 hl), if_pos (Nat.le_refl _)] at hc
  cases hc
  simp only [Image.blank] at hle
  omega

/-- **From where a recovery stopped, REDO ends where it would have.** -/
theorem redoAll_of_interrupted {images : List (PageKey × Image)} {disk disk' : Disk} (hg : Gapless images disk)
    (hpos : ∀ p ∈ images, 0 < p.2.lsn) (h : Interrupted images disk disk') : redoAll disk' images = redoAll disk images := by
  cases h with
  | between done todo h =>
    rw [h, redoAll_append, redoAll_append, redoAll_of_onDisk fun p hp => redoAll_onDisk hp]
  | extending done todo key image h page hp =>
    have hlanded : ∀ p ∈ done, OnDisk (redoAll disk done) p.1 p.2 := fun p hm => redoAll_onDisk hm
    have hdone := redoAll_of_onDisk fun p hm => (hlanded p hm).extending key.table page
    rw [h, redoAll_append, redoAll_append, hdone]
    show redoAll (redoImage _ key image).1 todo = redoAll (redoImage _ key image).1 todo
    rw [redoImage_extending _ _ _ hp]
  | allocating done todo key image h page hn hp =>
    -- the page is the one of the image, so its allocation is as good as its repair
    obtain rfl : page = key.page := Nat.le_antisymm hp (Nat.le_trans (hg.reaches h) hn)
    exact redoAll_of_repairing h (not_onDisk_allocated hn (hpos (key, image) (h ▸ List.mem_append_right _ List.mem_cons_self)))
  | repairing done todo key image h hn => exact redoAll_of_repairing h hn

theorem Interrupted.length_le {images : List (PageKey × Image)} {disk disk' : Disk}
    (h : Interrupted images disk disk') (t : Nat) :
    (disk t).length ≤ (disk' t).length := by
  have hmore : ∀ {done : List (PageKey × Image)} {table : Nat} {pages : List DiskPage},
    (redoAll disk done table).length ≤ pages.length →
      (disk t).length ≤ ((redoAll disk done).withPages table pages t).length := by
    intro done table pages hl
    have := length_redoAll t done disk
    unfold Disk.withPages
    rw [Function.update_apply]
    split
    · rename_i ht
      rw [← ht] at hl
      omega
    · exact this
  have hlonger : ∀ {pages : List DiskPage} {page : Nat}, pages.length ≤ (allocateThrough pages page).length := by
    intro pages page
    rw [allocateThrough, List.length_append]
    omega
  cases h with
  | between done todo h => exact length_redoAll t done disk
  | extending => exact hmore hlonger
  | allocating => exact hmore (by rw [List.length_set]; exact hlonger)
  | repairing => exact hmore (by rw [List.length_set]; exact hlonger)

theorem Gapless.longer {images : List (PageKey × Image)} {disk disk' : Disk} (h : Gapless images disk)
    (hl : ∀ t, (disk t).length ≤ (disk' t).length) : Gapless images disk' := fun done key image todo he n hn =>
  (h done key image todo he n hn).imp_left fun hlt => Nat.lt_of_lt_of_le hlt (hl key.table)

/-- So it does however often it is stopped. -/
theorem redoAll_of_restarts {images : List (PageKey × Image)} {disk disk' : Disk} (hg : Gapless images disk)
    (hpos : ∀ p ∈ images, 0 < p.2.lsn) (h : Relation.ReflTransGen (Interrupted images) disk disk') :
    redoAll disk' images = redoAll disk images ∧ Gapless images disk' := by
  induction h with
  | refl         => exact ⟨rfl, hg⟩
  | tail _ hi ih => exact ⟨(redoAll_of_interrupted ih.2 hpos hi).trans ih.1, ih.2.longer hi.length_le⟩

/-! ## The outcomes do not depend on the files -/

/-- How many pages REDO of a record sets. -/
def redoneBy (startLsn : Nat) (disk : Disk) (e : WalEntry) : Nat := if startLsn ≤ e.lsn then (redoImages disk e.images).2 else 0

def redoneFrom (startLsn : Nat) : Disk → List WalEntry → Nat
  | _, []             => 0
  | disk, e :: entries => redoneBy startLsn disk e + redoneFrom startLsn (redoEntry startLsn disk e) entries

theorem recoverEntry_files (startLsn : Nat) (r : Recovery) (n : Nat) (disk : Disk) (e : WalEntry) :
    recoverEntry startLsn { r with redone := n, disk := disk } e = (recoverEntry startLsn r e).map fun r' =>
      { r' with redone := n + redoneBy startLsn disk e, disk := redoEntry startLsn disk e } := by
  unfold recoverEntry redoneBy redoEntry WalEntry.images
  cases hr : e.record with
  | begin | checkpoint _ => simp [redoImages, Except.map]
  | commit               => cases hst : r.statuses.set e.xid .committed <;> simp [redoImages, Except.map, hst, bind, Except.bind]
  | abort                => cases hst : r.statuses.set e.xid .aborted <;> simp [redoImages, Except.map, hst, bind, Except.bind]
  | heapPageImages images =>
    by_cases hs : startLsn ≤ e.lsn
    · simp only [if_pos hs]
      rfl
    · simp only [if_neg hs]
      rfl

theorem foldlM_files (startLsn : Nat) : ∀ (entries : List WalEntry) (r : Recovery) (n : Nat) (disk : Disk),
    entries.foldlM (recoverEntry startLsn) { r with redone := n, disk := disk } =
      (entries.foldlM (recoverEntry startLsn) r).map fun r' =>
        { r' with redone := n + redoneFrom startLsn disk entries, disk := redoFrom startLsn disk entries }
  | [], _, _, _            => rfl
  | e :: entries, r, n, disk => by
    rw [List.foldlM_cons, List.foldlM_cons, recoverEntry_files]
    cases hr : recoverEntry startLsn r e with
    | error _ => rfl
    | ok r'   =>
      refine (foldlM_files startLsn entries r' _ _).trans ?_
      rw [Nat.add_assoc]
      rfl

/-- **The statuses and the next xid are those of the log**, whatever the files hold, and so is the error. -/
theorem recover_files (entries : List WalEntry) (disk disk' : Disk) (startLsn : Nat) (statuses : StatusTable) (nextXid : Nat) :
    recover entries disk' startLsn statuses nextXid = (recover entries disk startLsn statuses nextXid).map fun r =>
      { r with redonePages := redoneFrom startLsn disk' entries, disk := redoFrom startLsn disk' entries } := by
  unfold recover
  rw [foldlM_files startLsn entries ⟨statuses, [], nextXid - 1, 0, disk⟩ 0 disk']
  cases entries.foldlM (recoverEntry startLsn) ⟨statuses, [], nextXid - 1, 0, disk⟩ with
  | error _ => rfl
  | ok r    =>
    show Except.ok _ = Except.ok _
    rw [Nat.zero_add]

theorem redoneFrom_of_onDisk {startLsn : Nat} : ∀ {entries : List WalEntry} {disk : Disk},
    (∀ p ∈ imagesFrom startLsn entries, OnDisk disk p.1 p.2) → redoneFrom startLsn disk entries = 0
  | [], _, _            => rfl
  | e :: entries, disk, h => by
    unfold redoneFrom redoneBy redoEntry
    by_cases hs : startLsn ≤ e.lsn
    · unfold imagesFrom at h
      rw [List.filter_cons_of_pos (by simpa using hs), List.flatMap_cons] at h
      rw [if_pos hs, if_pos hs, redoImages_of_onDisk e.images fun p hp => h p (List.mem_append_left _ hp), Nat.zero_add]
      exact redoneFrom_of_onDisk fun p hp => h p (List.mem_append_right _ hp)
    · unfold imagesFrom at h
      rw [List.filter_cons_of_neg (by simpa using hs)] at h
      rw [if_neg hs, if_neg hs, Nat.zero_add]
      exact redoneFrom_of_onDisk h

/-! ## Where REDO ends -/

/-- The records from the start on. -/
def since (startLsn : Nat) (entries : List WalEntry) : List WalEntry := entries.filter fun e => startLsn ≤ e.lsn

/-- The log is in LSN order, and a record holds images that carry its LSN, one for a page; it is not the first record. -/
structure Stamped (entries : List WalEntry) : Prop where
  increasing : entries.Pairwise fun e f => e.lsn < f.lsn
  positive   : ∀ e ∈ entries, ∀ p ∈ e.images, 0 < p.2.lsn
  stamped    : ∀ e ∈ entries, ∀ p ∈ e.images, p.2.lsn = e.lsn
  once       : ∀ e ∈ entries, (e.images.map Prod.fst).Nodup

/-- **A page that REDO can bring up to date**: torn, at one of its images in the log, or older than all that are redone; where it
is missing, it counts as blank. -/
def Redoable (startLsn : Nat) (entries : List WalEntry) (disk : Disk) : Prop :=
  ∀ k, diskPage disk k = .torn ∨ ∃ current, diskPage disk k = .valid current ∧
    (current ∈ imagesOf k entries ∨ ∀ i ∈ imagesOf k (since startLsn entries), current.lsn < i.lsn)

theorem filter_key_short {k : PageKey} : ∀ {images : List (PageKey × Image)}, (images.map Prod.fst).Nodup →
    (images.filter fun p => p.1 = k).length ≤ 1
  | [], _           => Nat.zero_le _
  | p :: images, h => by
    obtain ⟨hn, hd⟩ := List.nodup_cons.1 h
    by_cases hk : p.1 = k
    · rw [List.filter_cons_of_pos (by simpa using hk), List.filter_eq_nil_iff.2]
      · exact Nat.le_refl _
      · intro q hq
        simp only [decide_eq_true_eq]
        exact fun he => hn (List.mem_map.2 ⟨q, hq, he.trans hk.symm⟩)
    · rw [List.filter_cons_of_neg (by simpa using hk)]
      exact filter_key_short hd

/-- **The images of a page come in LSN order.** -/
theorem Stamped.imagesOf_sorted (k : PageKey) : ∀ {entries : List WalEntry}, Stamped entries →
    (imagesOf k entries).Pairwise fun a b => a.lsn < b.lsn
  | [], _           => List.Pairwise.nil
  | e :: entries, h => by
    obtain ⟨hlt, hsorted⟩ := List.pairwise_cons.1 h.increasing
    have htail : Stamped entries :=
      ⟨hsorted, fun f hf => h.positive f (List.mem_cons_of_mem _ hf), fun f hf => h.stamped f (List.mem_cons_of_mem _ hf),
        fun f hf => h.once f (List.mem_cons_of_mem _ hf)⟩
    rw [imagesOf_cons, List.pairwise_append]
    refine ⟨?_, htail.imagesOf_sorted k, fun a ha b hb => ?_⟩
    · have hshort := filter_key_short (k := k) (h.once e List.mem_cons_self)
      generalize e.images.filter (fun p => p.1 = k) = images at hshort
      rcases images with _ | ⟨p, _ | ⟨q, rest⟩⟩
      · exact List.Pairwise.nil
      · exact List.pairwise_singleton ..
      · simp at hshort
    · obtain ⟨p, hp, rfl⟩ := List.mem_map.1 ha
      obtain ⟨f, hf, hb⟩ := mem_imagesOf.1 hb
      rw [h.stamped e List.mem_cons_self p (List.mem_of_mem_filter hp), h.stamped f (List.mem_cons_of_mem _ hf) _ hb]
      exact hlt f hf

theorem Stamped.since {entries : List WalEntry} (h : Stamped entries) (startLsn : Nat) : Stamped (since startLsn entries) :=
  ⟨h.increasing.sublist List.filter_sublist, fun e he => h.positive e (List.mem_of_mem_filter he),
    fun e he => h.stamped e (List.mem_of_mem_filter he), fun e he => h.once e (List.mem_of_mem_filter he)⟩

theorem redoFrom_since (startLsn : Nat) (disk : Disk) (entries : List WalEntry) :
    redoFrom startLsn disk (since startLsn entries) = redoFrom startLsn disk entries := by
  rw [redoFrom_eq_redoAll, redoFrom_eq_redoAll]
  unfold imagesFrom since
  rw [List.filter_filter, show (fun e : WalEntry => decide (startLsn ≤ e.lsn) && decide (startLsn ≤ e.lsn)) = _ from
    funext fun e => Bool.and_self _]

theorem redoAll_other {k : PageKey} : ∀ {images : List (PageKey × Image)} (disk : Disk), (∀ p ∈ images, k ≠ p.1) →
    pageAt (redoAll disk images) k = pageAt disk k ∨
      (pageAt disk k = none ∧ pageAt (redoAll disk images) k = some (.valid .blank))
  | [], _, _              => Or.inl rfl
  | p :: images, disk, h => by
    have hfirst := redoImage_other disk p.2 (h p List.mem_cons_self)
    have hrest := redoAll_other (redoImage disk p.1 p.2).1 fun q hq => h q (List.mem_cons_of_mem _ hq)
    show pageAt (redoAll (redoImage disk p.1 p.2).1 images) k = _ ∨ _ ∧ pageAt (redoAll (redoImage disk p.1 p.2).1 images) k = _
    rcases hfirst with hfirst | ⟨hnone, hfirst⟩
    · rw [hfirst] at hrest
      exact hrest
    · rcases hrest with hrest | ⟨hnone', -⟩
      · exact Or.inr ⟨hnone, hrest.trans hfirst⟩
      · rw [hfirst] at hnone'
        cases hnone'

/-- **Each page ends at its last image.** -/
theorem redoFrom_lands {startLsn : Nat} {entries : List WalEntry} {disk : Disk} (hs : Stamped entries)
    (hd : Redoable startLsn entries disk) {k : PageKey} {last : Image}
    (hl : (imagesOf k (since startLsn entries)).getLast? = some last) :
    pageAt (redoFrom startLsn disk entries) k = some (.valid last) := by
  have hsorted := (hs.since startLsn).imagesOf_sorted k
  have hpage : diskPage (redoFrom startLsn disk entries) k = .valid last := by
    rw [← redoFrom_since, diskPage_redoFrom k _ _ fun e he => by simpa using List.of_mem_filter he]
    refine redo_lands _ _ last hsorted ?_ hl
    rcases hd k with ht | ⟨current, hc, hm | hlt⟩
    · exact Or.inl ht
    · refine Or.inr ⟨current, hc, ?_⟩
      obtain ⟨e, he, hi⟩ := mem_imagesOf.1 hm
      by_cases hstart : startLsn ≤ e.lsn
      · exact Or.inl (mem_imagesOf.2 ⟨e, List.mem_filter.2 ⟨he, by simpa using hstart⟩, hi⟩)
      · -- an image from before the start is older than those that are redone
        refine Or.inr fun i hi' => ?_
        obtain ⟨f, hf, hfi⟩ := mem_imagesOf.1 hi'
        obtain ⟨hf, hle⟩ := List.mem_filter.1 hf
        have := hs.stamped e he _ hi
        have := hs.stamped f hf _ hfi
        simp only [decide_eq_true_eq] at *
        omega
    · exact Or.inr ⟨current, hc, Or.inr hlt⟩
  obtain ⟨e, he, hi⟩ := mem_imagesOf.1 (List.mem_of_getLast? hl)
  obtain ⟨he, hle⟩ := List.mem_filter.1 he
  obtain ⟨current, hc, -⟩ := redoFrom_onDisk entries disk he (by simpa using hle) hi
  unfold diskPage at hpage
  rw [hc] at hpage
  exact hc.trans (congrArg some hpage)

/-- **Recovery converges, however often it was interrupted**: to the outcomes, or the error, of the uninterrupted one, with every
page at the last of its images that are redone and every other page as it was, or blank in front of one that was missing.
Another recovery redoes nothing. -/
theorem recover_restarts {startLsn : Nat} {entries : List WalEntry} {disk disk' : Disk} (hs : Stamped entries)
    (hd : Redoable startLsn entries disk) (hg : Gapless (imagesFrom startLsn entries) disk)
    (h : Relation.ReflTransGen (Interrupted (imagesFrom startLsn entries)) disk disk') (statuses : StatusTable) (nextXid : Nat) :
    (∃ n, recover entries disk' startLsn statuses nextXid =
      (recover entries disk startLsn statuses nextXid).map fun r => { r with redonePages := n }) ∧
    ∀ r, recover entries disk startLsn statuses nextXid = .ok r →
      recover entries r.disk startLsn statuses nextXid = .ok { r with redonePages := 0 } ∧
      (∀ k last, (imagesOf k (since startLsn entries)).getLast? = some last → pageAt r.disk k = some (.valid last)) ∧
      ∀ k, imagesOf k (since startLsn entries) = [] →
        pageAt r.disk k = pageAt disk k ∨ (pageAt disk k = none ∧ pageAt r.disk k = some (.valid .blank)) := by
  have hfiles : redoFrom startLsn disk' entries = redoFrom startLsn disk entries := by
    have hpos : ∀ p ∈ imagesFrom startLsn entries, 0 < p.2.lsn := by
      intro p hp
      obtain ⟨e, he, hm⟩ := List.mem_flatMap.1 hp
      exact hs.positive e (List.mem_of_mem_filter he) p hm
    rw [redoFrom_eq_redoAll, redoFrom_eq_redoAll, (redoAll_of_restarts hg hpos h).1]
  have hself := recover_files entries disk disk startLsn statuses nextXid
  constructor
  · refine ⟨redoneFrom startLsn disk' entries, ?_⟩
    rw [recover_files entries disk disk' startLsn statuses nextXid, hfiles, hself]
    cases recover entries disk startLsn statuses nextXid <;> rfl
  · intro r hr
    have hdisk : r.disk = redoFrom startLsn disk entries := by
      rw [hr] at hself
      exact congrArg RecoveryResult.disk (Except.ok.inj hself)
    have hdone : ∀ p ∈ imagesFrom startLsn entries, OnDisk (redoFrom startLsn disk entries) p.1 p.2 := by
      intro p hp
      rw [redoFrom_eq_redoAll]
      exact redoAll_onDisk hp
    refine ⟨?_, fun k last hl => ?_, fun k hk => ?_⟩
    · rw [recover_files entries disk r.disk, hr, hdisk, redoneFrom_of_onDisk hdone,
        redoFrom_eq_redoAll startLsn entries (redoFrom _ _ _),
        redoAll_of_onDisk hdone, ← hdisk]
      rfl
    · rw [hdisk]
      exact redoFrom_lands hs hd hl
    · rw [hdisk, redoFrom_eq_redoAll]
      refine redoAll_other disk fun p hp he => ?_
      obtain ⟨e, he', hm⟩ := List.mem_flatMap.1 hp
      have := mem_imagesOf.2 ⟨e, he', show (k, p.2) ∈ e.images by rw [he]; exact hm⟩
      rw [show List.filter _ entries = since startLsn entries from rfl, hk] at this
      cases this

end MiniPostgres
