import MiniPostgres.Wal
import MiniPostgres.TxnRun
/-!
# Recovery — what REDO leaves on a page and in the status table

`recover` as two independent folds over the log: the images (`redoFrom`), and the outcomes (`outcomes`).  A page whose
LSN has reached an image is left alone by it, so records that are on disk may be skipped (`recover_skips`).
-/
namespace MiniPostgres

def pageAt (disk : Disk) (key : PageKey) : Option DiskPage := (disk key.table)[key.page]?

/-- The page has reached the image. -/
def OnDisk (disk : Disk) (key : PageKey) (image : Image) : Prop :=
  ∃ current, pageAt disk key = some (.valid current) ∧ image.lsn ≤ current.lsn

instance (disk : Disk) (key : PageKey) (image : Image) : Decidable (OnDisk disk key image) :=
  match h : pageAt disk key with
  | some (.valid current) => decidable_of_iff (image.lsn ≤ current.lsn) (by simp [OnDisk, h])
  | some .torn            => .isFalse (by simp [OnDisk, h])
  | none                  => .isFalse (by simp [OnDisk, h])

/-- The page that REDO of an image leaves. -/
def newer : Option DiskPage → Image → Image
  | some (.valid current), image => if current.lsn < image.lsn then image else current
  | some .torn, image            => image
  | none, image                  => if 0 < image.lsn then image else .blank

/-! ## One image -/

theorem length_allocateThrough (pages : List DiskPage) (page : Nat) : page < (allocateThrough pages page).length := by
  unfold allocateThrough
  rw [List.length_append, List.length_replicate]
  omega

theorem getElem?_allocateThrough {pages : List DiskPage} {i : Nat} (page : Nat) {d : DiskPage} (h : pages[i]? = some d) :
    (allocateThrough pages page)[i]? = some d := by
  unfold allocateThrough
  rw [List.getElem?_append_left (List.getElem?_eq_some_iff.1 h).1]
  exact h

theorem getElem?_allocateThrough_none {pages : List DiskPage} {i : Nat} (page : Nat) (h : pages[i]? = none) :
    (allocateThrough pages page)[i]? = if i ≤ page then some (.valid .blank) else none := by
  have hlen := List.getElem?_eq_none_iff.1 h
  unfold allocateThrough
  rw [List.getElem?_append_right hlen, List.getElem?_replicate]
  by_cases hi : i ≤ page
  · rw [if_pos (by omega), if_pos hi]
  · rw [if_neg (by omega), if_neg hi]

theorem allocateThrough_of_lt {pages : List DiskPage} {page : Nat} (h : page < pages.length) :
    allocateThrough pages page = pages := by
  unfold allocateThrough
  rw [show page + 1 - pages.length = 0 by omega, List.replicate_zero, List.append_nil]

theorem set_of_getElem? {α : Type} {l : List α} {i : Nat} {a : α} (h : l[i]? = some a) : l.set i a = l := by
  obtain ⟨hl, rfl⟩ := List.getElem?_eq_some_iff.1 h
  exact List.set_getElem_self hl

/-- The files after REDO of an image, both branches at once: the page is set to the newer of the two. -/
theorem redoImage_files (disk : Disk) (key : PageKey) (image : Image) :
    (redoImage disk key image).1 = Function.update disk key.table
      ((allocateThrough (disk key.table) key.page).set key.page (.valid (newer (pageAt disk key) image))) := by
  unfold redoImage pageAt
  cases hd : (disk key.table)[key.page]? with
  | none =>
    have hblank : (allocateThrough (disk key.table) key.page)[key.page]? = some (.valid .blank) := by
      rw [getElem?_allocateThrough_none _ hd, if_pos (Nat.le_refl _)]
    simp only [hblank, newer]
    split
    · rename_i hlt
      rw [if_pos (show 0 < image.lsn from hlt)]
    · rename_i hlt
      rw [if_neg (show ¬ 0 < image.lsn from hlt), set_of_getElem? hblank]
  | some d =>
    have hpage := getElem?_allocateThrough key.page hd
    cases d with
    | torn => simp only [hpage, newer]
    | valid current =>
      simp only [hpage, newer]
      split
      · rfl
      · rw [set_of_getElem? hpage]

theorem redoImage_self (disk : Disk) (key : PageKey) (image : Image) :
    pageAt (redoImage disk key image).1 key = some (.valid (newer (pageAt disk key) image)) := by
  rw [redoImage_files]
  unfold pageAt
  rw [Function.update_self, List.getElem?_set_self (length_allocateThrough _ _)]

theorem redoImage_other (disk : Disk) {key k : PageKey} (image : Image) (hk : k ≠ key) :
    pageAt (redoImage disk key image).1 k = pageAt disk k ∨
      (pageAt disk k = none ∧ pageAt (redoImage disk key image).1 k = some (.valid .blank)) := by
  rw [redoImage_files]
  unfold pageAt
  by_cases ht : k.table = key.table
  · have hp : key.page ≠ k.page := fun hp => hk (by cases k; cases key; simp_all)
    rw [ht, Function.update_self, List.getElem?_set_ne hp]
    cases hd : (disk key.table)[k.page]? with
    | some d => exact Or.inl (getElem?_allocateThrough _ hd)
    | none =>
      rw [getElem?_allocateThrough_none _ hd]
      split
      · exact Or.inr ⟨rfl, rfl⟩
      · exact Or.inl rfl
  · rw [Function.update_of_ne ht]
    exact Or.inl rfl

theorem redoImage_keeps {disk : Disk} {key k : PageKey} {image : Image} (hk : k ≠ key) {d : DiskPage}
    (h : pageAt disk k = some d) : pageAt (redoImage disk key image).1 k = some d := by
  rcases redoImage_other disk image hk with he | ⟨hn, -⟩
  · exact he.trans h
  · rw [h] at hn; cases hn

theorem newer_lsn (p : Option DiskPage) (image : Image) : image.lsn ≤ (newer p image).lsn := by
  unfold newer
  split
  · split <;> omega
  · exact Nat.le_refl _
  · split
    · exact Nat.le_refl _
    · simp only [Image.blank]; omega

/-- **REDO of an image brings its page to the image.** -/
theorem onDisk_redoImage (disk : Disk) (key : PageKey) (image : Image) :
    OnDisk (redoImage disk key image).1 key image :=
  ⟨_, redoImage_self disk key image, newer_lsn _ _⟩

/-- REDO never takes a page back. -/
theorem OnDisk.redoImage {disk : Disk} {k key : PageKey} {i image : Image} (h : OnDisk disk k i) :
    OnDisk (redoImage disk key image).1 k i := by
  obtain ⟨current, hc, hle⟩ := h
  by_cases hk : k = key
  · subst hk
    refine ⟨_, redoImage_self disk k image, ?_⟩
    simp only [hc, newer]
    split <;> omega
  · exact ⟨current, redoImage_keeps hk hc, hle⟩

/-- **An image that is on disk is skipped.** -/
theorem redoImage_of_onDisk {disk : Disk} {key : PageKey} {image : Image} (h : OnDisk disk key image) :
    MiniPostgres.redoImage disk key image = (disk, 0) := by
  obtain ⟨current, hc, hle⟩ := h
  unfold pageAt at hc
  unfold MiniPostgres.redoImage
  rw [allocateThrough_of_lt (List.getElem?_eq_some_iff.1 hc).1]
  simp only [hc, Function.update_eq_self]
  rw [if_neg (by omega)]

/-! ## A record, and the log -/

theorem OnDisk.redoImages {k : PageKey} {i : Image} : ∀ (images : List (PageKey × Image)) {disk : Disk},
    OnDisk disk k i → OnDisk (redoImages disk images).1 k i
  | [], _, h => h
  | (key, image) :: images, disk, h => by
    simp only [MiniPostgres.redoImages]
    exact OnDisk.redoImages images h.redoImage

theorem redoImages_onDisk {k : PageKey} {i : Image} : ∀ (images : List (PageKey × Image)) (disk : Disk),
    (k, i) ∈ images → OnDisk (redoImages disk images).1 k i
  | (key, image) :: images, disk, h => by
    simp only [MiniPostgres.redoImages]
    rcases List.mem_cons.1 h with he | h
    · cases he
      exact OnDisk.redoImages images (onDisk_redoImage disk k i)
    · exact redoImages_onDisk images _ h

theorem redoImages_of_onDisk : ∀ (images : List (PageKey × Image)) {disk : Disk},
    (∀ p ∈ images, OnDisk disk p.1 p.2) → redoImages disk images = (disk, 0)
  | [], _, _ => rfl
  | (key, image) :: images, disk, h => by
    simp only [MiniPostgres.redoImages, redoImage_of_onDisk (h (key, image) (List.mem_cons_self ..))]
    rw [redoImages_of_onDisk images (fun p hp => h p (List.mem_cons_of_mem _ hp)), Nat.add_zero]

def WalEntry.images (e : WalEntry) : List (PageKey × Image) :=
  match e.record with
  | .heapPageImages images => images
  | _                      => []

/-- What one record does to the files. -/
def redoEntry (startLsn : Nat) (disk : Disk) (e : WalEntry) : Disk :=
  if startLsn ≤ e.lsn then (redoImages disk e.images).1 else disk

def redoFrom (startLsn : Nat) (disk : Disk) (entries : List WalEntry) : Disk := entries.foldl (redoEntry startLsn) disk

theorem OnDisk.redoEntry {k : PageKey} {i : Image} {startLsn : Nat} {disk : Disk} (h : OnDisk disk k i) (e : WalEntry) :
    OnDisk (redoEntry startLsn disk e) k i := by
  unfold MiniPostgres.redoEntry
  split
  · exact h.redoImages _
  · exact h

theorem OnDisk.redoFrom {k : PageKey} {i : Image} {startLsn : Nat} : ∀ (entries : List WalEntry) {disk : Disk},
    OnDisk disk k i → OnDisk (redoFrom startLsn disk entries) k i
  | [], _, h => h
  | e :: entries, _, h => OnDisk.redoFrom entries (h.redoEntry e)

/-- **After REDO every image of the log from the start on is on disk.** -/
theorem redoFrom_onDisk {startLsn : Nat} {p : PageKey × Image} : ∀ (entries : List WalEntry) (disk : Disk)
    {e : WalEntry}, e ∈ entries → startLsn ≤ e.lsn → p ∈ e.images → OnDisk (redoFrom startLsn disk entries) p.1 p.2
  | e' :: entries, disk, e, he, hs, hi => by
    rcases List.mem_cons.1 he with rfl | he
    · have hone : OnDisk (redoEntry startLsn disk e) p.1 p.2 := by
        unfold redoEntry
        rw [if_pos hs]
        exact redoImages_onDisk e.images disk hi
      exact OnDisk.redoFrom entries hone
    · exact redoFrom_onDisk entries _ he hs hi

/-- The images of the records before `startLsn` are on disk. -/
def Reached (disk : Disk) (startLsn : Nat) (entries : List WalEntry) : Prop :=
  ∀ e ∈ entries, e.lsn < startLsn → ∀ p ∈ e.images, OnDisk disk p.1 p.2

theorem recoverEntry_skips {startLsn : Nat} {r : Recovery} {e : WalEntry}
    (h : e.lsn < startLsn → ∀ p ∈ e.images, OnDisk r.disk p.1 p.2) : recoverEntry startLsn r e = recoverEntry 0 r e := by
  unfold recoverEntry
  unfold WalEntry.images at h
  cases hr : e.record with
  | begin | commit | abort | checkpoint _ => rfl
  | heapPageImages images =>
    simp only [hr, Nat.zero_le, if_true] at h ⊢
    by_cases hs : startLsn ≤ e.lsn
    · rw [if_pos hs]
    · rw [if_neg hs, redoImages_of_onDisk images (h (by omega))]
      rfl

theorem recoverEntry_disk {startLsn : Nat} {r r' : Recovery} {e : WalEntry} (h : recoverEntry startLsn r e = .ok r') :
    r'.disk = redoEntry startLsn r.disk e := by
  unfold recoverEntry at h
  unfold redoEntry WalEntry.images
  cases hr : e.record with
  | begin | checkpoint _ =>
    rw [hr] at h
    cases h
    exact (ite_self _).symm
  | commit | abort =>
    rw [hr] at h
    obtain ⟨st, -, he⟩ := bind_eq_ok.1 h
    cases he
    exact (ite_self _).symm
  | heapPageImages images =>
    rw [hr] at h
    simp only at h ⊢
    split at h <;> rename_i hs <;> cases h
    · rw [if_pos hs]
    · rw [if_neg hs]

theorem foldlM_skips {startLsn : Nat} : ∀ (entries : List WalEntry) {r : Recovery}, Reached r.disk startLsn entries →
    entries.foldlM (recoverEntry startLsn) r = entries.foldlM (recoverEntry 0) r
  | [], _, _ => rfl
  | e :: entries, r, h => by
    rw [List.foldlM_cons, List.foldlM_cons, recoverEntry_skips (h e (List.mem_cons_self ..))]
    cases hr : recoverEntry 0 r e with
    | error _ => rfl
    | ok r' =>
      refine foldlM_skips entries (fun f hf hl p hp => ?_)
      rw [recoverEntry_disk hr]
      exact (h f (List.mem_cons_of_mem _ hf) hl p hp).redoEntry e

/-- **Recovery may start after records that are on disk.** -/
theorem recover_skips {entries : List WalEntry} {disk : Disk} {startLsn : Nat} (h : Reached disk startLsn entries)
    (statuses : StatusTable) (nextXid : Nat) :
    recover entries disk startLsn statuses nextXid = recover entries disk 0 statuses nextXid := by
  unfold recover
  rw [foldlM_skips entries h]

/-! ## Outcomes -/

def outcomeEntry (statuses : StatusTable) (e : WalEntry) : StatusTable :=
  match e.record with
  | .commit => Function.update statuses e.xid (some .committed)
  | .abort  => Function.update statuses e.xid (some .aborted)
  | _       => statuses

def outcomes (statuses : StatusTable) (entries : List WalEntry) : StatusTable := entries.foldl outcomeEntry statuses

/-- `decided` is the one outcome of each transaction, in the log and in the table. -/
structure Coherent (decided : Nat → Option TransactionStatus) (statuses : StatusTable) (entries : List WalEntry) : Prop where
  table   : ∀ x, statuses.get x ≠ .inProgress → decided x = some (statuses.get x)
  commits : ∀ e ∈ entries, e.record = .commit → decided e.xid = some .committed
  aborts  : ∀ e ∈ entries, e.record = .abort → decided e.xid = some .aborted

theorem get_update (t : StatusTable) (x y : Nat) (st : TransactionStatus) :
    StatusTable.get (Function.update t x (some st)) y = if y = x then st else t.get y := by
  unfold StatusTable.get
  rw [Function.update_apply]
  split <;> rfl

theorem set_of_decided {t : StatusTable} {x : Nat} {st : TransactionStatus} {d : Option TransactionStatus}
    (ht : t.get x ≠ .inProgress → d = some (t.get x)) (hd : d = some st) :
    t.set x st = .ok (Function.update t x (some st)) := by
  unfold StatusTable.set
  rw [if_neg]
  rintro ⟨hne, hst⟩
  rw [ht hne] at hd
  exact hst (Option.some.inj hd)

theorem Coherent.tail {decided : Nat → Option TransactionStatus} {t : StatusTable} {e : WalEntry} {es : List WalEntry}
    (h : Coherent decided t (e :: es)) : Coherent decided (outcomeEntry t e) es := by
  refine ⟨fun x hx => ?_, fun f hf => h.commits f (List.mem_cons_of_mem _ hf),
    fun f hf => h.aborts f (List.mem_cons_of_mem _ hf)⟩
  unfold outcomeEntry at hx ⊢
  split at hx
  · rename_i hr
    simp only [get_update] at hx ⊢
    split
    · rename_i hxe; rw [hxe]; exact h.commits e (List.mem_cons_self ..) hr
    · rename_i hxe; rw [if_neg hxe] at hx; exact h.table x hx
  · rename_i hr
    simp only [get_update] at hx ⊢
    split
    · rename_i hxe; rw [hxe]; exact h.aborts e (List.mem_cons_self ..) hr
    · rename_i hxe; rw [if_neg hxe] at hx; exact h.table x hx
  · exact h.table x hx

/-- **A record whose outcome agrees is processed.** -/
theorem recoverEntry_ok (startLsn : Nat) {decided : Nat → Option TransactionStatus} {r : Recovery} {e : WalEntry}
    {es : List WalEntry} (h : Coherent decided r.statuses (e :: es)) :
    ∃ n, recoverEntry startLsn r e = .ok ⟨outcomeEntry r.statuses e,
      (if e.record = .begin then e.xid :: r.begun else r.begun), max r.maximumXid e.xid, n,
      redoEntry startLsn r.disk e⟩ := by
  unfold recoverEntry outcomeEntry redoEntry WalEntry.images
  cases hr : e.record with
  | begin | checkpoint _ => exact ⟨r.redone, by simp [redoImages]⟩
  | commit =>
    refine ⟨r.redone, ?_⟩
    simp only [set_of_decided (h.table e.xid) (h.commits e (List.mem_cons_self ..) hr), redoImages, ite_self]
    rfl
  | abort =>
    refine ⟨r.redone, ?_⟩
    simp only [set_of_decided (h.table e.xid) (h.aborts e (List.mem_cons_self ..) hr), redoImages, ite_self]
    rfl
  | heapPageImages images =>
    simp only
    split
    · exact ⟨_, rfl⟩
    · exact ⟨r.redone, rfl⟩

theorem foldlM_ok (startLsn : Nat) {decided : Nat → Option TransactionStatus} : ∀ (entries : List WalEntry) {r : Recovery},
    Coherent decided r.statuses entries → ∃ r', entries.foldlM (recoverEntry startLsn) r = .ok r' ∧
      r'.statuses = outcomes r.statuses entries ∧ r'.disk = redoFrom startLsn r.disk entries ∧
      (∀ x, x ∈ r'.begun ↔ x ∈ r.begun ∨ ∃ e ∈ entries, e.xid = x ∧ e.record = .begin) ∧
      (r.maximumXid ≤ r'.maximumXid ∧ ∀ e ∈ entries, e.xid ≤ r'.maximumXid)
  | [], r, _ => ⟨r, rfl, rfl, rfl, by simp, Nat.le_refl _, by simp⟩
  | e :: entries, r, h => by
    obtain ⟨n, hn⟩ := recoverEntry_ok startLsn h
    obtain ⟨r', hr', hst, hdisk, hbegun, hmax, hxids⟩ := foldlM_ok startLsn entries
      (r := ⟨outcomeEntry r.statuses e, (if e.record = .begin then e.xid :: r.begun else r.begun), max r.maximumXid e.xid, n,
        redoEntry startLsn r.disk e⟩) h.tail
    refine ⟨r', ?_, hst, hdisk, fun x => ?_, by simp only at hmax; omega, ?_⟩
    · rw [List.foldlM_cons, hn]
      exact hr'
    · rw [hbegun x]
      simp only [List.exists_mem_cons_iff]
      split
      · rename_i hb; rw [List.mem_cons]; simp only [hb, and_true, @eq_comm _ x]; tauto
      · rename_i hb; simp only [hb, and_false, false_or]
    · intro f hf
      rcases List.mem_cons.1 hf with rfl | hf
      · simp only at hmax; omega
      · exact hxids f hf

/-- **The committed are those of the table and those with a COMMIT record.** -/
theorem outcomes_committed {decided : Nat → Option TransactionStatus} {x : Nat} : ∀ (entries : List WalEntry) {t : StatusTable},
    Coherent decided t entries → (outcomes t entries x = some .committed ↔
      t x = some .committed ∨ ∃ e ∈ entries, e.xid = x ∧ e.record = .commit)
  | [], t, _ => by simp [outcomes]
  | e :: entries, t, h => by
    have hone : outcomeEntry t e x = some .committed ↔ t x = some .committed ∨ (e.xid = x ∧ e.record = .commit) := by
      unfold outcomeEntry
      cases hr : e.record with
      | begin | checkpoint _ | heapPageImages _ => simp
      | commit =>
        simp only [Function.update_apply]
        by_cases hx : x = e.xid
        · simp [hx]
        · simp [hx, Ne.symm hx]
      | abort =>
        simp only [Function.update_apply]
        by_cases hx : x = e.xid
        · -- the table cannot hold the other outcome
          have hne : t x ≠ some .committed := fun hc => by
            have hget : t.get x = .committed := by simp [StatusTable.get, hc]
            have htab := h.table x (by rw [hget]; decide)
            rw [hget, hx, h.aborts e (List.mem_cons_self ..) hr] at htab
            cases htab
          simp [hx] at hne ⊢
          exact hne
        · simp [hx]
    have ih := outcomes_committed (x := x) entries h.tail
    rw [show outcomes t (e :: entries) = outcomes (outcomeEntry t e) entries from rfl, ih, hone]
    simp only [List.exists_mem_cons_iff]
    exact or_assoc

theorem settleStatuses_committed {begun : List Nat} {t : StatusTable} {x : Nat} :
    settleStatuses begun t x = some .committed ↔ t x = some .committed := by
  unfold settleStatuses StatusTable.get
  cases hx : t x with
  | none => simp
  | some st => cases st <;> simp

/-- **Recovery of a coherent log returns**, with the outcomes of the log over those of the control file, and the images
of the log over the files. -/
theorem recover_ok {decided : Nat → Option TransactionStatus} {entries : List WalEntry} {statuses : StatusTable}
    (h : Coherent decided statuses entries) (disk : Disk) (startLsn nextXid : Nat) :
    ∃ r, recover entries disk startLsn statuses nextXid = .ok r ∧ r.disk = redoFrom startLsn disk entries ∧
      (∃ begun, r.statuses = settleStatuses begun (outcomes statuses entries) ∧
        ∀ x, x ∈ begun ↔ ∃ e ∈ entries, e.xid = x ∧ e.record = .begin) ∧
      nextXid ≤ r.nextXid ∧ ∀ e ∈ entries, e.xid < r.nextXid := by
  obtain ⟨r, hr, hst, hdisk, hbegun, hmax, hxids⟩ :=
    foldlM_ok startLsn entries (r := ⟨statuses, [], nextXid - 1, 0, disk⟩) h
  refine ⟨_, by unfold recover; rw [hr]; rfl, hdisk, ⟨r.begun, by rw [hst], fun x => by simp [hbegun x]⟩, ?_, ?_⟩
  · simp only at hmax ⊢; omega
  · intro e he
    have := hxids e he
    simp only; omega

end MiniPostgres
