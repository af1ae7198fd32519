import MiniPostgres.CrashRun
/-!
# CrashSafety — what recovery makes of a crash

A crash leaves a prefix of the log with every flushed record in it, and files that REDO brings to the last images of the
prefix.  So recovery finds the tables of the moment when the prefix was the log, and a scan finds the writes of the
committed transactions.
-/
namespace MiniPostgres

open History (Write WF Serial Closed getElem?_concat lt_of_getElem?)

/-! ## The surviving log -/

section Surviving

variable {s : DbState} {old new p : List WalEntry} {latest : PageKey → Image}

theorem LogInv.nodup {m : TransactionManager} {ending : Option Ending} {st : Storage} {c : ControlState}
    (h : LogInv m ending st c) : st.wal.entries.Nodup := by
  refine h.chained.sorted.imp (fun {a b} hab => ?_)
  rintro rfl
  have := a.lsn_lt
  omega

/-- **The surviving log holds every record before the checkpoint**, and every flushed one since. -/
theorem Between.surviving (hi : s.Inv) (hb : Between s old new latest) (hp : p <+: s.storage.wal.entries)
    (hall : ∀ e ∈ s.storage.wal.entries, e.endLsn ≤ s.storage.wal.flushedLsn → e ∈ p) :
    ∃ new', p = old ++ new' ∧ new' <+: new ∧ ∀ e ∈ new, e.endLsn ≤ s.storage.wal.flushedLsn → e ∈ new' := by
  have hold : old <+: s.storage.wal.entries := ⟨new, hb.split.symm⟩
  have hpre : old <+: p := by
    rcases List.prefix_or_prefix_of_prefix hold hp with h | h
    · exact h
    · have hsub : old ⊆ p := fun e he => hall e (hold.subset he) (hb.before e he).2
      have hnd : old.Nodup := hi.log.nodup.sublist hold.sublist
      have hlen := (List.subperm_of_subset hnd hsub).length_le
      rw [h.eq_of_length_le hlen]
  obtain ⟨new', rfl⟩ := hpre
  refine ⟨new', rfl, ?_, fun e he hle => ?_⟩
  · rw [hb.split] at hp
    exact (List.prefix_append_right_inj old).1 hp
  · rcases List.mem_append.1 (hall e (by rw [hb.split]; exact List.mem_append_right _ he) hle) with ho | hn
    · have := (hb.before e ho).1
      have := hb.after e he
      omega
    · exact hn

theorem imagesOf_sorted {es : List WalEntry} (hs : es.Pairwise (fun a b => a.endLsn ≤ b.lsn))
    (hi : ∀ e ∈ es, e.images.length ≤ 1 ∧ ∀ q ∈ e.images, q.2.lsn = e.lsn ∧ 0 < e.lsn) (k : PageKey) :
    (imagesOf k es).Pairwise (fun a b => a.lsn < b.lsn) := by
  induction es with
  | nil => exact .nil
  | cons e es ih =>
    obtain ⟨hhead, htail⟩ := List.pairwise_cons.1 hs
    rw [imagesOf_cons]
    refine List.pairwise_append.2 ⟨?_, ih htail (fun f hf => hi f (List.mem_cons_of_mem _ hf)), fun a ha b hb => ?_⟩
    · have hlen : ((e.images.filter (fun p => p.1 = k)).map Prod.snd).length ≤ 1 := by
        rw [List.length_map]
        exact Nat.le_trans (List.length_filter_le _ _) (hi e List.mem_cons_self).1
      generalize (e.images.filter (fun p => p.1 = k)).map Prod.snd = l at hlen
      rcases l with _ | ⟨a, _ | ⟨b, rest⟩⟩
      · exact .nil
      · exact List.pairwise_singleton _ _
      · simp at hlen
    · obtain ⟨q, hq, rfl⟩ := List.mem_map.1 ha
      have hq := (List.mem_filter.1 hq).1
      obtain ⟨f, hf, hm⟩ := mem_imagesOf.1 hb
      have hlsn := ((hi e List.mem_cons_self).2 q hq).1
      have hlsn' : b.lsn = f.lsn := ((hi f (List.mem_cons_of_mem _ hf)).2 _ hm).1
      have hle := hhead f hf
      have hlt := e.lsn_lt
      omega

/-- **A page that the crash lost**: it fails its checksum, and no image of it since the checkpoint survives. -/
def Lost (s : DbState) (p : List WalEntry) (disk : Disk) (k : PageKey) : Prop :=
  pageAt disk k = some .torn ∧ ∀ e ∈ p, s.control.checkpointLsn ≤ e.lsn → ∀ i, (k, i) ∉ e.images

theorem Between.written (hb : Between s old new latest) {new' : List WalEntry}
    (hall : ∀ e ∈ new, e.endLsn ≤ s.storage.wal.flushedLsn → e ∈ new') {k : PageKey} {f : PageFile} {w : Image}
    (hf : s.storage.file k = some f) (hw : w ∈ f.writes) : w ∈ imagesOf k new' := by
  obtain ⟨e, he, hm, hfl⟩ := hb.synced.writes k f w hf hw
  exact mem_imagesOf.2 ⟨e, hall e he hfl, hm⟩

/-- What the crash leaves of a page: its checkpointed content, one of the images that survive, or a torn page. -/
theorem Between.found (hb : Between s old new latest) {disk : Disk} (hc : Crashed s.storage disk) {new' : List WalEntry}
    (hall : ∀ e ∈ new, e.endLsn ≤ s.storage.wal.flushedLsn → e ∈ new') (k : PageKey) :
    diskPage disk k = .valid (lastImage old k) ∨ (∃ w ∈ imagesOf k new', diskPage disk k = .valid w) ∨
      pageAt disk k = some .torn := by
  have hbase : s.storage.file k = none ∨ (∃ p, s.storage.file k = some p ∧ p.base = lastImage old k) := by
    cases hf : s.storage.file k with
    | none => exact Or.inl rfl
    | some p => exact Or.inr ⟨p, rfl, hb.synced.base k p hf⟩
  unfold diskPage
  cases hd : pageAt disk k with
  | none =>
    left
    rcases hbase with hf | ⟨p, hf, hp⟩
    · rw [DbState.lastImage_unfiled hb.synced hf]; rfl
    · rw [← hp, hc.missing k p hf hd]; rfl
  | some d =>
    obtain ⟨p, hf, rfl | ⟨w, hw, rfl⟩ | ⟨-, rfl⟩⟩ := hc.pages k d hd
    · left; rw [← hb.synced.base k p hf]; rfl
    · exact Or.inr (Or.inl ⟨w, hb.written hall hf hw, rfl⟩)
    · exact Or.inr (Or.inr rfl)

theorem Between.older (hi : s.Inv) (hb : Between s old new latest) {k : PageKey} {i : Image} (hm : i ∈ imagesOf k new) :
    (lastImage old k).lsn < i.lsn := by
  obtain ⟨e, he, hm⟩ := mem_imagesOf.1 hm
  obtain ⟨hlsn, hpos⟩ := (hi.log.images e (by rw [hb.split]; exact List.mem_append_right _ he)).2 _ hm
  have hafter := hb.after e he
  simp only at hlsn
  unfold lastImage
  cases hlo : (imagesOf k old).getLast? with
  | none => simp only [Option.getD_none, Image.blank]; omega
  | some j =>
    obtain ⟨f, hf, hfm⟩ := mem_imagesOf.1 (List.mem_of_getLast? hlo)
    have hj : j.lsn = f.lsn := ((hi.log.images f (by rw [hb.split]; exact List.mem_append_left _ hf)).2 _ hfm).1
    have hbefore := (hb.before f hf).1
    simp only [Option.getD_some]
    omega

/-- **REDO brings every page to its last image in the surviving log**, but for a lost one, which stays torn. -/
theorem Between.redone (hi : s.Inv) (hb : Between s old new latest) {disk : Disk} (hc : Crashed s.storage disk)
    {new' : List WalEntry} (hnew : new' <+: new) (hall : ∀ e ∈ new, e.endLsn ≤ s.storage.wal.flushedLsn → e ∈ new')
    (k : PageKey) :
    diskPage (redoFrom s.control.checkpointLsn disk (old ++ new')) k = .valid (lastImage (old ++ new') k) ∨
      (Lost s (old ++ new') disk k ∧ diskPage (redoFrom s.control.checkpointLsn disk (old ++ new')) k = .torn) := by
  have hfold : redoFrom s.control.checkpointLsn disk (old ++ new') = redoFrom s.control.checkpointLsn disk new' := by
    unfold redoFrom
    rw [List.foldl_append]
    exact congrArg (fun d => List.foldl _ d new') (redoFrom_before old disk (fun e he => (hb.before e he).1))
  rw [hfold, diskPage_redoFrom k new' disk (fun e he => hb.after e (hnew.subset he))]
  have hdisk := hb.found hc hall k
  have hmem : ∀ e ∈ new', e ∈ s.storage.wal.entries := fun e he => by
    rw [hb.split]; exact List.mem_append_right _ (hnew.subset he)
  cases hl : (imagesOf k new').getLast? with
  | none =>
    have hnil := List.getLast?_eq_none_iff.1 hl
    have hlast : lastImage (old ++ new') k = lastImage old k := by
      rw [lastImage, lastImage, imagesOf_append, hnil, List.append_nil]
    rw [hnil, hlast]
    rcases hdisk with hd | ⟨w, hw, -⟩ | hd
    · exact Or.inl hd
    · rw [hnil] at hw; cases hw
    · refine Or.inr ⟨⟨hd, fun e he hle i hm => ?_⟩, by rw [redoPage, List.foldl_nil, diskPage, hd]; rfl⟩
      rcases List.mem_append.1 he with ho | hn
      · have := (hb.before e ho).1
        omega
      · exact List.not_mem_nil (hnil ▸ mem_imagesOf.2 ⟨e, hn, hm⟩)
  | some last =>
    have hlast : lastImage (old ++ new') k = last := by
      rw [lastImage, imagesOf_append, List.getLast?_append, hl]
      rfl
    rw [hlast]
    left
    have hsorted : new'.Pairwise (fun a b => a.endLsn ≤ b.lsn) := by
      have hpair := hi.log.chained.sorted
      rw [hb.split] at hpair
      exact (List.pairwise_append.1 hpair).2.1.sublist hnew.sublist
    refine redo_lands _ _ _ (imagesOf_sorted hsorted (fun e he => hi.log.images e (hmem e he)) k) ?_ hl
    rcases hdisk with hd | ⟨w, hw, hd⟩ | hd
    · refine Or.inr ⟨_, hd, Or.inr (fun i hin => hb.older hi ?_)⟩
      obtain ⟨e, he, hm⟩ := mem_imagesOf.1 hin
      exact mem_imagesOf.2 ⟨e, hnew.subset he, hm⟩
    · exact Or.inr ⟨w, hd, Or.inl hw⟩
    · exact Or.inl (by rw [diskPage, hd]; rfl)

/-- **Only a page whose allocation was torn is lost**: one that the pool wrote has an image in the surviving log. -/
theorem Between.lost_unwritten (hb : Between s old new latest) {disk : Disk} (hc : Crashed s.storage disk) {new' : List WalEntry}
    (hnew : new' <+: new) (hall : ∀ e ∈ new, e.endLsn ≤ s.storage.wal.flushedLsn → e ∈ new') {k : PageKey}
    (hl : Lost s (old ++ new') disk k) : ∃ f, s.storage.file k = some f ∧ f.base = .blank ∧ f.writes = [] := by
  obtain ⟨f, hf, hv | ⟨w, hw, hv⟩ | ⟨hor, -⟩⟩ := hc.pages k _ hl.1
  · cases hv
  · cases hv
  · have hnil : f.writes = [] := by
      by_contra hne
      obtain ⟨w, hw⟩ := List.exists_mem_of_ne_nil _ hne
      obtain ⟨e, he, hm⟩ := mem_imagesOf.1 (hb.written hall hf hw)
      exact hl.2 e (List.mem_append_right _ he) (hb.after e (hnew.subset he)) w hm
    exact ⟨f, hf, hor.resolve_left (fun hne => hne hnil), hnil⟩

end Surviving

/-! ## The status table after recovery -/

theorem outcomes_known {x : Nat} : ∀ (entries : List WalEntry) {t : StatusTable}, outcomes t entries x ≠ none ↔
    t x ≠ none ∨ ∃ e ∈ entries, e.xid = x ∧ (e.record = .commit ∨ e.record = .abort)
  | [], _ => by simp [outcomes]
  | e :: entries, t => by
    have hone : outcomeEntry t e x ≠ none ↔ t x ≠ none ∨ (e.xid = x ∧ (e.record = .commit ∨ e.record = .abort)) := by
      unfold outcomeEntry
      cases hr : e.record with
      | begin | checkpoint _ | heapPageImages _ => simp
      | commit | abort =>
        simp only [Function.update_apply]
        by_cases hx : x = e.xid
        · simp [hx]
        · simp [hx, Ne.symm hx]
    rw [show outcomes t (e :: entries) = outcomes (outcomeEntry t e) entries from rfl, outcomes_known entries, hone]
    simp only [List.exists_mem_cons_iff]
    exact or_assoc

theorem settleStatuses_terminal {begun : List Nat} {t : StatusTable} {x : Nat} (h : settleStatuses begun t x ≠ none) :
    settleStatuses begun t x = some .committed ∨ settleStatuses begun t x = some .aborted := by
  unfold settleStatuses at h ⊢
  split
  · rename_i hp
    rw [if_pos hp] at h
    split
    · exact Or.inr rfl
    · rename_i hb; rw [if_neg hb] at h; exact absurd rfl h
  · rename_i hp
    rw [if_neg hp] at h
    unfold StatusTable.get at hp
    cases hx : t x with
    | none => exact absurd hx h
    | some st =>
      rw [hx] at hp
      cases st with
      | inProgress => exact absurd rfl hp
      | committed => exact Or.inl rfl
      | aborted => exact Or.inr rfl

theorem settleStatuses_known {begun : List Nat} {t : StatusTable} {x : Nat} :
    settleStatuses begun t x ≠ none ↔ x ∈ begun ∨ t x ≠ none := by
  unfold settleStatuses StatusTable.get
  cases hx : t x with
  | none => simp
  | some st => cases st <;> simp

/-- **What recovery returns**, for the surviving log `p`. -/
structure Restored (s : DbState) (p : List WalEntry) (disk : Disk) (r : RecoveryResult) : Prop where
  committed : ∀ x, r.statuses x = some .committed ↔ s.control.statuses x = some .committed ∨ recorded p x = true
  terminal  : ∀ x, r.statuses x ≠ none → r.statuses x = some .committed ∨ r.statuses x = some .aborted
  begun     : ∀ x, Begun p x ∨ s.control.statuses x ≠ none → r.statuses x ≠ none
  known     : ∀ x, r.statuses x ≠ none → 2 ≤ x ∧ x < r.nextXid
  two_le    : 2 ≤ r.nextXid
  files     : ∀ k, diskPage r.disk k = .valid (lastImage p k) ∨ (Lost s p disk k ∧ diskPage r.disk k = .torn)
  lost      : ∀ k, Lost s p disk k → ∃ f, s.storage.file k = some f ∧ f.base = .blank ∧ f.writes = []

theorem HasWrites.two_le {m : TransactionManager} (hi : TransactionManager.Inv m) {x : Nat} (h : HasWrites m x) : 2 ≤ x := by
  obtain ⟨t, ht, -⟩ := h
  exact (hi.object x t ht).2.1

/-- **Recovery returns after every crash.** -/
theorem DbState.Inv.restored {s : DbState} (h : s.Inv) {size : Nat} {disk : Disk} (hsize : s.storage.wal.flushedLsn ≤ size)
    (hc : Crashed s.storage disk) :
    ∃ r, s.restart size disk = .ok r ∧ Restored s (s.storage.wal.reopen size).entries disk r := by
  obtain ⟨post, hsplit, hall⟩ := reopen_prefix h.log.chained size
  have hp : (s.storage.wal.reopen size).entries <+: s.storage.wal.entries := ⟨post, hsplit.symm⟩
  generalize hpe : (s.storage.wal.reopen size).entries = p at hp hall
  have hcoh : Coherent (decided s.manager s.task.outcome) s.control.statuses p := by
    refine ⟨fun x hx => ?_, fun e he hr => h.log.outcome.commits e (hp.subset he) hr,
      fun e he hr => h.log.outcome.aborts e (hp.subset he) hr⟩
    -- an outcome of the control file is the manager's, and an open transaction has none
    have hst : s.manager.statuses x = some (s.control.statuses.get x) := by
      unfold StatusTable.get at hx ⊢
      cases hcx : s.control.statuses x with
      | none => rw [hcx] at hx; exact absurd rfl hx
      | some st => rw [hcx] at hx; exact h.log.control x st hcx hx
    unfold decided
    split
    · rename_i e he
      split
      · rename_i hxe
        obtain ⟨t, ht, ho⟩ := h.log.outcome.found e he
        have hn := h.log.outcome.manager.undecided _ ((h.log.outcome.manager.active _).2 ⟨t, ht, ho⟩)
        rw [hxe, hn] at hst
        cases hst
      · exact hst
    · exact hst
  obtain ⟨r, hr, hdisk, ⟨begun, hst, hbegun⟩, hnext, hxids⟩ := recover_ok hcoh disk s.control.checkpointLsn s.control.nextXid
  have hwrites : ∀ e ∈ p, e.record = .begin ∨ e.record = .commit ∨ e.record = .abort → HasWrites s.manager e.xid := by
    intro e he hre
    rcases hre with hre | hre
    · exact (h.log.begun _).1 ⟨e, hp.subset he, rfl, hre⟩
    · exact h.log.ended e (hp.subset he) hre
  obtain ⟨old, new, latest, hb⟩ := h.between
  have hfl : ∀ e ∈ s.storage.wal.entries, e.endLsn ≤ s.storage.wal.flushedLsn → e ∈ p :=
    fun e he hle => hall e he (Nat.le_trans hle hsize)
  obtain ⟨new', hpn, hnew, hsince⟩ := hb.surviving h hp hfl
  refine ⟨r, by unfold DbState.restart; rw [hpe]; exact hr, fun x => ?_, fun x hx => ?_, fun x hx => ?_, fun x hx => ?_, ?_,
    fun k => ?_, fun k hl => ?_⟩
  · rw [hst, settleStatuses_committed, outcomes_committed p hcoh, recorded_iff]
  · rw [hst] at hx ⊢
    exact settleStatuses_terminal hx
  · rw [hst, settleStatuses_known, hbegun]
    rcases hx with hx | hx
    · exact Or.inl hx
    · exact Or.inr ((outcomes_known p).2 (Or.inl hx))
  · rw [hst, settleStatuses_known, hbegun] at hx
    rcases hx with ⟨e, he, rfl, hre⟩ | hx
    · exact ⟨(hwrites e he (Or.inl hre)).two_le h.log.outcome.manager, hxids e he⟩
    · rcases (outcomes_known p).1 hx with hx | ⟨e, he, rfl, hre⟩
      · have := h.log.known x hx
        exact ⟨this.1, by omega⟩
      · exact ⟨(hwrites e he (Or.inr hre)).two_le h.log.outcome.manager, hxids e he⟩
  · exact Nat.le_trans h.log.two_le hnext
  · rw [hdisk, hpn]
    exact hb.redone h hc hnew hsince k
  · rw [hpn] at hl
    exact hb.lost_unwritten hc hnew hsince hl

/-! ## The tables after recovery -/

theorem openPages_ok : ∀ (pages : List DiskPage) (f : Nat → Image), (∀ n d, pages[n]? = some d → d = DiskPage.valid (f n)) →
    ∃ heap, openPages pages = .ok heap ∧ ∀ n, heap[n]? = (pages[n]?).map (fun _ => (f n).page)
  | [], _, _ => ⟨[], rfl, by simp⟩
  | d :: pages, f, h => by
    have hd : d = .valid (f 0) := h 0 d rfl
    subst hd
    obtain ⟨heap, hok, hget⟩ := openPages_ok pages (fun n => f (n + 1)) (fun n d hn => h (n + 1) d hn)
    refine ⟨(f 0).page :: heap, by rw [openPages, hok]; rfl, fun n => ?_⟩
    cases n with
    | zero => rfl
    | succ n => exact hget n

theorem openPages_valid : ∀ {disk : List DiskPage} {pages : List HeapPage}, openPages disk = .ok pages → .torn ∉ disk
  | [], _, _                 => List.not_mem_nil
  | .valid image :: disk, _, h => by
    obtain ⟨rest, hrest, -⟩ := bind_eq_ok.1 h
    rw [List.mem_cons, not_or]
    exact ⟨by simp, openPages_valid hrest⟩
  | .torn :: _, _, h         => absurd h raise_ne_ok

theorem look_eq (d : TableData) (a : TID) : d.look a = (d.page a.pageId).read a.slotId := by
  unfold TableData.look HeapTable.physicalVersion TableData.page
  cases d.table.pages[a.pageId]? with
  | none => rfl
  | some p => rfl

section Restart

variable {s : DbState} {p : List WalEntry} {disk : Disk} {r : RecoveryResult}

theorem Restored.valid (hr : Restored s p disk r) {t : Nat} (hv : .torn ∉ r.disk t) (n : Nat) :
    diskPage r.disk ⟨t, n⟩ = .valid (lastImage p ⟨t, n⟩) := by
  refine (hr.files ⟨t, n⟩).resolve_right (fun ⟨hl, ht⟩ => hv ?_)
  unfold diskPage pageAt at ht
  cases hpg : (r.disk t)[n]? with
  | none => rw [hpg] at ht; cases ht
  | some d =>
    rw [hpg] at ht
    obtain rfl : d = .torn := ht
    exact List.mem_of_getElem? hpg

/-- Recovery leaves a page torn only where it was lost. -/
theorem Restored.untorn (hr : Restored s p disk r) {t : Nat} (hl : ∀ n, ¬Lost s p disk ⟨t, n⟩) : .torn ∉ r.disk t := by
  intro hm
  obtain ⟨n, hn⟩ := List.mem_iff_getElem?.1 hm
  have hpage := (hr.files ⟨t, n⟩).resolve_right (fun h => hl n h.1)
  unfold diskPage pageAt at hpage
  rw [hn] at hpage
  cases hpage

/-- **The heap that is opened after recovery holds the versions of the prefix.** -/
theorem Restored.opened (hr : Restored s p disk r) {t : Nat} (hv : .torn ∉ r.disk t) {d : TableData} (hd : Sealed p t d) :
    ∃ pages, openPages (r.disk t) = .ok pages ∧ pages.length = (r.disk t).length ∧ ∀ schema freeSpace,
      (⟨schema, pages, freeSpace⟩ : HeapTable).physicalVersion = d.look := by
  obtain ⟨pages, hok, hget⟩ := openPages_ok (r.disk t) (fun n => lastImage p ⟨t, n⟩) (fun n e he => by
    have hpage := hr.valid hv n
    unfold diskPage pageAt at hpage
    rw [he] at hpage
    exact hpage)
  have hlen : pages.length = (r.disk t).length := by
    refine Nat.le_antisymm ?_ ?_
    · exact List.getElem?_eq_none_iff.1 (by rw [hget, List.getElem?_eq_none_iff.2 (Nat.le_refl _)]; rfl)
    · have hnone := hget pages.length
      rw [List.getElem?_eq_none_iff.2 (Nat.le_refl _)] at hnone
      exact List.getElem?_eq_none_iff.1 (Option.map_eq_none_iff.1 hnone.symm)
  refine ⟨pages, hok, hlen, fun schema freeSpace => funext (fun a => ?_)⟩
  rw [look_eq, hd.pages]
  unfold HeapTable.physicalVersion
  rw [show (⟨schema, pages, freeSpace⟩ : HeapTable).pages = pages from rfl, hget]
  cases hpg : (r.disk t)[a.pageId]? with
  | some e => rfl
  | none =>
    -- a page behind the end of the file has no image
    have hpage := hr.valid hv a.pageId
    unfold diskPage pageAt at hpage
    rw [hpg] at hpage
    rw [← DiskPage.valid.inj hpage]
    rfl

/-- The manager that `recover` starts. -/
def Restored.manager (hr : Restored s p disk r) : Recovered := ⟨r.nextXid, r.statuses, hr.two_le, hr.known⟩

theorem Restored.begun_terminal (hr : Restored s p disk r) {x : Nat} (hb : Begun p x) :
    r.statuses x = some .committed ∨ r.statuses x = some .aborted :=
  hr.terminal x (hr.begun x (Or.inl hb))

/-- Among the transactions with writes, those with a COMMIT record in the surviving log are committed. -/
theorem Restored.committed_iff (h : s.Inv) (hr : Restored s p disk r)
    (hall : ∀ e ∈ s.storage.wal.entries, e.endLsn ≤ s.storage.wal.flushedLsn → e ∈ p) {x : Nat} (hw : HasWrites s.manager x) :
    r.statuses x = some .committed ↔ recorded p x = true := by
  rw [hr.committed]
  refine ⟨fun hc => ?_, Or.inr⟩
  rcases hc with hc | hc
  · obtain ⟨f, hf, hfx, hfr, hle⟩ := h.log.durable x (h.log.control x _ hc (by decide)) hw
    exact recorded_iff.2 ⟨f, hall f hf hle, hfx, hfr⟩
  · exact hc

theorem Restored.status_later (hr : Restored s p disk r) (calls : List TransactionManager.Call) {x : Nat} (hb : Begun p x) :
    ((TransactionManager.start hr.manager).run calls).statuses x = r.statuses x := by
  have hne : (TransactionManager.start hr.manager).statuses x ≠ none := hr.begun x (Or.inl hb)
  exact TransactionManager.status_later (TransactionManager.inv_start _) hne (TransactionManager.later_run calls _)

/-- **A fresh snapshot sees what the committed transactions left.** -/
theorem Restored.visible_iff (h : s.Inv) (hp : p <+: s.storage.wal.entries) (hr : Restored s p disk r)
    (hall : ∀ e ∈ s.storage.wal.entries, e.endLsn ≤ s.storage.wal.flushedLsn → e ∈ p) {t : Nat} {d : TableData}
    (hd : Sealed p t d) (calls : List TransactionManager.Call) {o : Nat} {sn : Snapshot}
    (ht : ((TransactionManager.start hr.manager).run calls).Takes o sn) {a : TID} {v : TupleVersion} (hv : d.look a = some v) :
    isVisible v sn o ((TransactionManager.start hr.manager).run calls).statuses = true ↔
      recorded p v.xmin = true ∧ ¬ recorded p v.xmax = true := by
  have hm := TransactionManager.inv_run (TransactionManager.inv_start hr.manager) calls
  obtain ⟨hfresh, t, htx, hact⟩ := TransactionManager.takes_fresh ht
  have hopen := (hm.active o).2 ⟨t, htx, Or.inl hact⟩
  have hundecided := hm.undecided o hopen
  have h2 := (hm.object o t htx).2.1
  -- a writer of the surviving log is decided: it is not the reader, and its outcome is its COMMIT record
  have hwriter : ∀ w ∈ d.log, w.writer ≠ o ∧ 2 ≤ w.writer ∧
      (((TransactionManager.start hr.manager).run calls).statuses w.writer = some .committed ↔ recorded p w.writer = true) := by
    intro w hw
    have hb := hd.begun w hw
    have hwr := (h.log.begun _).1 (hb.mono hp)
    refine ⟨fun he => ?_, hwr.two_le h.log.outcome.manager, ?_⟩
    · rw [← he, hr.status_later calls hb] at hundecided
      exact hr.begun _ (Or.inl hb) hundecided
    · rw [hr.status_later calls hb]
      exact hr.committed_iff h hall hwr
  obtain ⟨loose, hmir⟩ := hd.mirror
  obtain ⟨w, hw, hx, -⟩ := (hmir.carries a v hv).made
  obtain ⟨hmin, hmin2, hminc⟩ := hwriter w (List.mem_of_getElem? hw)
  rw [hx] at hmin hmin2 hminc
  have hmax : v.xmax ≠ o ∧ (((TransactionManager.start hr.manager).run calls).statuses v.xmax = some .committed ↔
      recorded p v.xmax = true) := by
    by_cases hz : v.xmax = 0
    · rw [hz]
      refine ⟨by omega, ?_⟩
      rw [hm.status_zero]
      refine ⟨fun hc => (by cases hc), fun hc => ?_⟩
      obtain ⟨e, he, hex, hre⟩ := recorded_iff.1 hc
      have hwr := h.log.ended e (hp.subset he) (Or.inl hre)
      rw [hex] at hwr
      exact absurd (hwr.two_le h.log.outcome.manager) (by decide)
    · obtain ⟨j, u, hl, hxu⟩ := (hmir.carries a v hv).deleted hz
      have := hwriter u (List.mem_of_getElem? hl.get)
      rw [hxu] at this
      exact ⟨this.1, this.2.2⟩
  rw [TransactionManager.isVisible_later hm h2 hfresh .refl]
  have hsys : v.xmin ≠ systemXid := fun he => by rw [he] at hmin2; exact absurd hmin2 (by decide)
  simp only [hmin, hmax.1, hsys, false_and, false_or, hminc, hmax.2, not_false_eq_true, true_and, ne_eq]

theorem database_congr {counted counted' : Nat → Bool} : ∀ {log : Log},
    (∀ w ∈ log, counted w.writer = counted' w.writer) → History.database counted log = History.database counted' log := by
  intro log
  induction log using List.reverseRecOn with
  | nil => exact fun _ => rfl
  | append_singleton log w ih =>
    intro h
    rw [History.database_concat, History.database_concat, ih (fun u hu => h u (List.mem_append_left _ hu)),
      h w (List.mem_append_right _ (List.mem_singleton.2 rfl))]

theorem Restored.reads (h : s.Inv) (hp : p <+: s.storage.wal.entries) (hr : Restored s p disk r)
    (hall : ∀ e ∈ s.storage.wal.entries, e.endLsn ≤ s.storage.wal.flushedLsn → e ∈ p) {t : Nat} {d : TableData}
    (hd : Sealed p t d) {heap : HeapTable} (hlook : heap.physicalVersion = d.look)
    (calls : List TransactionManager.Call) {o : Nat}
    {sn : Snapshot} (ht : ((TransactionManager.start hr.manager).run calls).Takes o sn) (row : Nat) :
    Reads (fun x => recorded p x = true)
      (fun v => isVisible v sn o ((TransactionManager.start hr.manager).run calls).statuses) heap d.log row := by
  refine ⟨hd.serial, hd.closed row, fun hz => ?_,
    fun a v hv => hr.visible_iff h hp hall hd calls ht (by rw [← hlook]; exact hv)⟩
  obtain ⟨e, he, hex, hre⟩ := recorded_iff.1 hz
  have hwr := h.log.ended e (hp.subset he) (Or.inl hre)
  rw [hex] at hwr
  exact absurd (hwr.two_le h.log.outcome.manager) (by decide)

/-- **A scan after recovery returns, row by row, what the committed writes of the run left.** -/
theorem Restored.scanned (h : s.Inv) (hp : p <+: s.storage.wal.entries) (hr : Restored s p disk r)
    (hall : ∀ e ∈ s.storage.wal.entries, e.endLsn ≤ s.storage.wal.flushedLsn → e ∈ p) {t : Nat} {d : TableData}
    (hd : Sealed p t d) (hk : Kept (recorded p) d (s.tables t)) {heap : HeapTable} (hlook : heap.physicalVersion = d.look)
    (calls : List TransactionManager.Call) {o : Nat} {sn : Snapshot}
    (ht : ((TransactionManager.start hr.manager).run calls).Takes o sn) (row : Nat) :
    ((heap.scanned (fun v => isVisible v sn o ((TransactionManager.start hr.manager).run calls).statuses)).filter
        (fun q => (s.tables t).rowOf q.1 = row)).map Prod.snd =
      (History.database (fun x => decide (r.statuses x = some .committed)) (s.tables t).log row).toList := by
  obtain ⟨loose, hmir⟩ := hd.mirror
  rw [← hlook] at hmir
  have hvis := fun a v hv => hr.visible_iff h hp hall hd calls ht (a := a) (v := v) hv
  have hscan := (hr.reads h hp hall hd hlook calls ht row).scanned_eq hmir hd.wf (by rw [hlook]; exact hd.stored)
  have hdb : History.database (fun x => decide (r.statuses x = some .committed)) (s.tables t).log =
      History.database (recorded p) (s.tables t).log := by
    refine database_congr (fun w hw => ?_)
    rw [Bool.eq_iff_iff, decide_eq_true_iff]
    exact hr.committed_iff h hall ((h.log.begun _).1 (h.begun t w hw))
  rw [hdb, ← hk.database row]
  simp only [Bool.decide_eq_true] at hscan
  rw [← hscan]
  refine congrArg _ (List.filter_congr (fun q hq => ?_))
  -- a row that is seen is of a committed transaction, so it is the same row in the run
  obtain ⟨v, hv, hpass⟩ : ∃ v, heap.physicalVersion q.1 = some v ∧
      isVisible v sn o ((TransactionManager.start hr.manager).run calls).statuses = true := by
    obtain ⟨v, hv, hpass, -⟩ := HeapTable.scanned_sound hmir hd.wf hq
    exact ⟨v, hv, hpass⟩
  rw [hlook] at hv
  obtain ⟨-, -, -, hrow⟩ := hk.rows q.1 v hv ((hvis q.1 v hv).1 hpass).1
  rw [show (s.tables t).rowOf q.1 = d.rowOf q.1 from hrow]
  rfl

end Restart

namespace DbState

/-- **Crash safety.**  After any crash of a single-threaded run, `WalManager.open` and `recover` return; committed are the
transactions committed in the control file or with a COMMIT record in the surviving log, every other one of them has aborted; a
transaction with writes whose `commit` has returned is among them; and a table without a lost page opens, beside a free-space map
that does not run ahead of it, and a scan under a fresh snapshot returns the writes of the committed transactions in order. -/
theorem crash_safe (schemas : Nat → Schema) (calls : List DbCall) (size : Nat) (disk : Disk)
    (hsize : ((start schemas).run calls).storage.wal.flushedLsn ≤ size)
    (hc : Crashed ((start schemas).run calls).storage disk) :
    let s := (start schemas).run calls
    let p := (s.storage.wal.reopen size).entries
    ∃ r, s.restart size disk = .ok r ∧
      (∀ x, r.statuses x = some .committed ↔ s.control.statuses x = some .committed ∨ ∃ e ∈ p, e.xid = x ∧ e.record = .commit) ∧
      (∀ x, (∃ e ∈ p, e.xid = x ∧ e.record = .begin) ∨ s.control.statuses x ≠ none →
        r.statuses x ≠ some .committed → r.statuses x = some .aborted) ∧
      (∀ x t, s.manager.transactions x = some t → t.hasWrites = true → s.manager.statuses x = some .committed →
        r.statuses x = some .committed) ∧
      (∀ k, Lost s p disk k → ∃ f, s.storage.file k = some f ∧ f.base = .blank ∧ f.writes = []) ∧
      ∃ recovered : Recovered, recovered.statuses = r.statuses ∧ recovered.nextXid = r.nextXid ∧
        ∀ t, (∀ n, ¬Lost s p disk ⟨t, n⟩) → ∀ sidecar : FreeSpaceMap, sidecar.length ≤ (r.disk t).length →
          ∃ heap, openTable (schemas t) (r.disk t) sidecar = .ok heap ∧
            ∀ (later : List TransactionManager.Call) (o : Nat) (sn : Snapshot),
            ((TransactionManager.start recovered).run later).Takes o sn →
            ∃ rows, heap.scanVisible sn o ((TransactionManager.start recovered).run later).statuses = .ok rows ∧
              ∀ row, (rows.filter (fun q => (s.tables t).rowOf q.1 = row)).map Prod.snd =
                (History.database (fun x => decide (r.statuses x = some .committed)) (s.tables t).log row).toList := by
  intro s p
  have h : s.Inv := inv_run schemas calls
  obtain ⟨post, hsplit, hcut⟩ := reopen_prefix h.log.chained size
  have hp : p <+: s.storage.wal.entries := ⟨post, hsplit.symm⟩
  have hall : ∀ e ∈ s.storage.wal.entries, e.endLsn ≤ s.storage.wal.flushedLsn → e ∈ p :=
    fun e he hle => hcut e he (Nat.le_trans hle hsize)
  obtain ⟨r, hok, hr⟩ := h.restored hsize hc
  refine ⟨r, hok, fun x => by rw [hr.committed x, recorded_iff], fun x hx hne => ?_, fun x t ht hw hst => ?_, hr.lost, hr.manager,
    rfl, rfl, fun t hl sidecar hlen => ?_⟩
  · rcases hr.terminal x (hr.begun x hx) with hcom | hab
    · exact absurd hcom hne
    · exact hab
  · obtain ⟨f, hf, hfx, hfr, hle⟩ := h.log.durable x hst ⟨t, ht, hw⟩
    exact (hr.committed x).2 (Or.inr (recorded_iff.2 ⟨f, hall f hf hle, hfx, hfr⟩))
  · obtain ⟨past, hpast⟩ := h.prefixes p hp
    obtain ⟨hd, hk⟩ := hpast t
    obtain ⟨pages, hpages, hcount, hlook⟩ := hr.opened (hr.untorn hl) hd
    have hopen : openTable (schemas t) (r.disk t) sidecar =
        .ok ⟨schemas t, pages, HeapTable.bootstrapFreeSpace (pages.drop sidecar.length) sidecar⟩ := by
      rw [openTable, hpages]
      show HeapTable.openHeap _ _ _ = _
      rw [HeapTable.openHeap, if_neg (by omega)]
    refine ⟨_, hopen, fun later o sn ht => ?_⟩
    obtain ⟨loose, hmir⟩ := hd.mirror
    rw [← hlook (schemas t) (HeapTable.bootstrapFreeSpace (pages.drop sidecar.length) sidecar)] at hmir
    exact ⟨_, HeapTable.scanVisible_ok hmir hd.wf sn o _, fun row => hr.scanned h hp hall hd hk (hlook _ _) later ht row⟩

/-- One row committed; the pool has written no page. -/
def committedInsert : List DbCall :=
  [.begin .readCommitted, .insert 0 2 [.int 5], .advance, .advance, .advance, .advance, .advance, .commit 2, .advance, .advance]

/-- The crash tears the page in the middle of its allocation. -/
def tornAllocation : Disk := Function.update (fun _ => []) 0 [.torn]

theorem committedInsert_files : ((start (fun _ => HeapState.oneColumn)).run committedInsert).storage.files =
    Function.update (fun _ => []) 0 [⟨.blank, []⟩] := rfl

theorem committedInsert_file {k : PageKey} {p : PageFile}
    (hp : ((start (fun _ => HeapState.oneColumn)).run committedInsert).storage.file k = some p) :
    k = ⟨0, 0⟩ ∧ p = ⟨.blank, []⟩ := by
  obtain ⟨table, page⟩ := k
  unfold Storage.file at hp
  rw [committedInsert_files, Function.update_apply] at hp
  split at hp
  · rename_i ht
    obtain ⟨hlt, hget⟩ := List.getElem?_eq_some_iff.1 hp
    obtain rfl : page = 0 := by simpa using hlt
    obtain rfl : table = 0 := ht
    exact ⟨rfl, hget.symm⟩
  · simp at hp

theorem committedInsert_crashed :
    Crashed ((start (fun _ => HeapState.oneColumn)).run committedInsert).storage tornAllocation := by
  refine ⟨fun k d hd => ?_, fun k p hp _ => by rw [(committedInsert_file hp).2]⟩
  obtain ⟨table, page⟩ := k
  unfold pageAt tornAllocation at hd
  rw [Function.update_apply] at hd
  split at hd
  · rename_i ht
    obtain ⟨hlt, hget⟩ := List.getElem?_eq_some_iff.1 hd
    obtain rfl : page = 0 := by simpa using hlt
    obtain rfl : table = 0 := ht
    refine ⟨⟨.blank, []⟩, ?_, Or.inr (Or.inr ⟨Or.inr rfl, hget.symm⟩)⟩
    rw [Storage.file, committedInsert_files, Function.update_self]
    rfl
  · simp at hd

theorem takes_first (recovered : Recovered) :
    ∃ sn, ((TransactionManager.start recovered).run [.begin .readCommitted]).Takes recovered.nextXid sn := by
  have hobject : ((TransactionManager.start recovered).run [.begin .readCommitted]).transactions recovered.nextXid =
      some { xid := recovered.nextXid, isolation := .readCommitted } := Function.update_self _ _ _
  refine ⟨⟨recovered.nextXid + 1, [], by simp⟩, ⟨(TransactionManager.start recovered).run [.begin .readCommitted], ?_⟩,
    fun t ht hi => ?_⟩
  · unfold TransactionManager.statementSnapshot TransactionManager.object
    rw [hobject]
    show Except.bind (TransactionManager.freshSnapshot _ _) _ = _
    unfold TransactionManager.freshSnapshot
    have hactive : (((TransactionManager.start recovered).run [.begin .readCommitted]).active.filter
        (· ≠ recovered.nextXid)) = [] := by
      show ([recovered.nextXid].filter (· ≠ recovered.nextXid)) = []
      simp
    rw [hactive]
    rfl
  · rw [hobject] at ht
    obtain rfl := Option.some.inj ht
    cases hi

/-- The image of the insert survives, so REDO replaces the torn page. -/
theorem committedInsert_redone (n : Nat) : ¬Lost ((start (fun _ => HeapState.oneColumn)).run committedInsert)
    (((start (fun _ => HeapState.oneColumn)).run committedInsert).storage.wal.reopen
      ((start (fun _ => HeapState.oneColumn)).run committedInsert).storage.wal.flushedLsn).entries tornAllocation ⟨0, n⟩ := by
  rintro ⟨htorn, hnone⟩
  have himage : (((start (fun _ => HeapState.oneColumn)).run committedInsert).storage.wal.reopen
      ((start (fun _ => HeapState.oneColumn)).run committedInsert).storage.wal.flushedLsn).entries.any
        (fun e => e.images.any (fun q => decide (q.1 = ⟨0, 0⟩))) = true := by rfl
  obtain ⟨hlt, -⟩ := List.getElem?_eq_some_iff.1 (show ([.torn] : List DiskPage)[n]? = some .torn from htorn)
  obtain rfl : n = 0 := by simpa using hlt
  obtain ⟨e, he, hq⟩ := List.any_eq_true.1 himage
  obtain ⟨⟨k, i⟩, hi, hk⟩ := List.any_eq_true.1 hq
  obtain rfl : k = ⟨0, 0⟩ := of_decide_eq_true hk
  exact hnone e he (Nat.zero_le _) i hi

theorem crash_safe_example :
    let s := (start (fun _ => HeapState.oneColumn)).run committedInsert
    s.storage.wal.flushedLsn ≤ s.storage.wal.flushedLsn ∧ Crashed s.storage tornAllocation ∧
      ∃ r heap st o sn rows, s.restart s.storage.wal.flushedLsn tornAllocation = .ok r ∧ r.statuses 2 = some .committed ∧
        openTable HeapState.oneColumn (r.disk 0) [255] = .ok heap ∧ heap.scanVisible sn o st = .ok rows ∧
        (rows.filter (fun q => (s.tables 0).rowOf q.1 = 0)).map Prod.snd = [[.int 5]] := by
  intro s
  obtain ⟨r, hr, -, -, hdur, -, recovered, -, -, htables⟩ :=
    crash_safe _ committedInsert _ _ (Nat.le_refl _) committedInsert_crashed
  have hcommitted : r.statuses 2 = some .committed := hdur 2 ⟨2, .readCommitted, .committed, none, true⟩ (by rfl) rfl (by rfl)
  have hlen : (r.disk 0).length = 1 := by
    have h : (s.restart s.storage.wal.flushedLsn tornAllocation).map (fun r => (r.disk 0).length) = .ok 1 := by
      decide +kernel
    rw [hr] at h
    exact Except.ok.inj h
  obtain ⟨heap, hopen, hscan⟩ := htables 0 committedInsert_redone [255] (by rw [hlen]; exact Nat.le_refl _)
  obtain ⟨sn, htakes⟩ := takes_first recovered
  obtain ⟨rows, hrows, hdb⟩ := hscan [.begin .readCommitted] _ sn htakes
  refine ⟨Nat.le_refl _, committedInsert_crashed, r, heap, _, _, sn, rows, hr, hcommitted, hopen, hrows, (hdb 0).trans ?_⟩
  have hlog : (s.tables 0).log = [⟨2, 0, none, some [.int 5]⟩] := by rfl
  rw [hlog]
  unfold History.database
  simp [hcommitted]

-- the two ways in which `HeapTable.open` fails after a crash
example : openTable HeapState.oneColumn [] [255] =
    raise .corruptPage "free-space map contains entries beyond the heap relation" := rfl

example : openTable HeapState.oneColumn [.torn] [] = raise .corruptPage "page checksum mismatch" := rfl

/-- A transaction without writes leaves no record: its `commit` has returned, and recovery does not know it. -/
theorem readOnly_commit_unrecorded :
    let s := (start (fun _ => HeapState.oneColumn)).run [.begin .readCommitted, .commit 2]
    s.storage.wal.flushedLsn ≤ 0 ∧ Crashed s.storage (fun _ => []) ∧ s.manager.statuses 2 = some .committed ∧
      ∃ r, s.restart 0 (fun _ => []) = .ok r ∧ r.statuses 2 ≠ some .committed := by
  intro s
  have hfiles : s.storage.files = fun _ => [] := rfl
  refine ⟨Nat.le_refl _, ⟨fun k d hd => by simp [pageAt] at hd, fun k p hp _ => ?_⟩, rfl, _, rfl, by decide⟩
  unfold Storage.file at hp
  rw [hfiles] at hp
  simp at hp

end DbState

end MiniPostgres
