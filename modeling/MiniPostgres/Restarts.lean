import MiniPostgres.Redo
import MiniPostgres.CrashSafety
/-!
# Restarts — recovery after a crash, started again and again

A relation grows by one page at a time, and a page is logged before the next one is allocated (`PagesLogged`).  So no image of
the log leaves a gap, the files of a crash are such that REDO brings them up to date, and a recovery that is interrupted, however
often, ends where an uninterrupted one does.
-/
namespace MiniPostgres

/-! ## A relation grows page by page -/

/-- The images of the log, in order. -/
def loggedImages (entries : List WalEntry) : List (PageKey × Image) := entries.flatMap WalEntry.images

theorem loggedImages_append (entries more : List WalEntry) :
    loggedImages (entries ++ more) = loggedImages entries ++ loggedImages more := List.flatMap_append

theorem imagesOf_eq_filter (k : PageKey) (entries : List WalEntry) :
    imagesOf k entries = ((loggedImages entries).filter fun q => q.1 = k).map Prod.snd := by
  unfold imagesOf loggedImages
  rw [List.filter_flatMap, List.map_flatMap]

/-- **Every page of a table is in the log**, and its first image is behind one of each page before it. -/
structure PagesLogged (s : DbState) : Prop where
  order  : Gapless (loggedImages s.storage.wal.entries) fun _ => []
  logged : ∀ t n, n < (s.tables t).table.pages.length → ∃ i, (⟨t, n⟩, i) ∈ loggedImages s.storage.wal.entries

theorem Gapless.concat {images : List (PageKey × Image)} {disk : Disk} {key : PageKey} {image : Image} (h : Gapless images disk)
    (hk : ∀ n < key.page, ∃ i, (⟨key.table, n⟩, i) ∈ images) : Gapless (images ++ [(key, image)]) disk := by
  intro done key' image' todo he n hn
  rcases List.eq_nil_or_concat todo with rfl | ⟨todo, last, rfl⟩
  · obtain ⟨rfl, hlast⟩ := List.append_inj' he rfl
    cases hlast
    exact Or.inr (hk n hn)
  · rw [List.concat_eq_append, ← List.cons_append, ← List.append_assoc] at he
    exact h done key' image' todo (List.append_inj' he rfl).1 n hn

theorem PagesLogged.unpublished {s s' : DbState} (h : PagesLogged s) {more : List WalEntry}
    (he : s'.storage.wal.entries = s.storage.wal.entries ++ more) (hm : loggedImages more = [])
    (ht : s'.tables = s.tables) : PagesLogged s' := by
  have hsame : loggedImages s'.storage.wal.entries = loggedImages s.storage.wal.entries := by
    rw [he, loggedImages_append, hm, List.append_nil]
  exact ⟨hsame ▸ h.order, by rw [hsame, ht]; exact h.logged⟩

theorem PagesLogged.same {s s' : DbState} (h : PagesLogged s) (he : s'.storage.wal.entries = s.storage.wal.entries)
    (ht : s'.tables = s.tables) : PagesLogged s' := h.unpublished (he.trans (List.append_nil _).symm) rfl ht

namespace DbState

variable {s : DbState}

theorem pagesLogged_publishStep (h : s.Inv) (hg : PagesLogged s) {table x page : Nat} {after : TableData}
    {todo : List (Nat × TableData)}
    (htask : s.task = .publish table x ((page, after) :: todo)) : PagesLogged (s.publishStep table x page after todo) := by
  have hok := h.task
  unfold TaskOk at hok
  simp only [htask] at hok
  obtain ⟨-, -, hpage, -⟩ : Usable s.manager x ∧ Pending s.manager x (s.tables table) ((page, after) :: todo) := by
    rcases hok with hnil | hok
    · cases hnil
    · exact hok
  unfold publishStep
  split
  · exact hg.same rfl rfl
  · split
    · exact hg
    · split
      · have hlogged : ∀ n < page, ∃ i, (⟨table, n⟩, i) ∈ loggedImages s.storage.wal.entries :=
          fun n hn => hg.logged table n (Nat.lt_of_lt_of_le hn hpage.next)
        refine ⟨?_, fun t n hn => ?_⟩
        · show Gapless (loggedImages (s.storage.wal.entries ++ [_])) _
          rw [loggedImages_append]
          exact hg.order.concat hlogged
        · show ∃ i, _ ∈ loggedImages (s.storage.wal.entries ++ [_])
          rw [loggedImages_append]
          simp only [Function.update_apply] at hn
          split at hn
          · rename_i ht
            have hnext := hpage.next
            have hgrows := hpage.grows
            by_cases hnp : n = page
            · exact ⟨_, List.mem_append_right _ (by rw [ht, hnp]; exact List.mem_singleton.2 rfl)⟩
            · obtain ⟨i, hi⟩ := hg.logged table n (by omega)
              exact ⟨i, List.mem_append_left _ (ht ▸ hi)⟩
          · obtain ⟨i, hi⟩ := hg.logged t n hn
            exact ⟨i, List.mem_append_left _ hi⟩
      · exact @PagesLogged.unpublished _ _ hg [_] rfl rfl rfl

theorem pagesLogged_advance (h : s.Inv) (hg : PagesLogged s) : PagesLogged s.advance := by
  unfold advance
  split
  · exact hg
  · exact hg.same rfl rfl
  · rename_i htask
    exact pagesLogged_publishStep h hg htask
  · split
    · rename_i storage hin
      unfold Storage.install at hin
      split at hin
      · exact absurd hin raise_ne_ok
      · split at hin
        · exact absurd hin raise_ne_ok
        · cases hin
          exact hg.same rfl rfl
    · exact hg
  · unfold endingStep
    split
    · split
      · exact hg.same rfl rfl
      · exact hg
    · exact hg.same rfl rfl
  · unfold checkpointStep
    split
    · exact hg.same rfl rfl
    · exact hg.same rfl rfl
    · exact hg.same rfl rfl
    · exact @PagesLogged.unpublished _ _ hg [_] rfl rfl rfl
    · exact hg.same rfl rfl
    · exact hg.same rfl rfl
    · exact hg

theorem pagesLogged_endTransaction (hg : PagesLogged s) (t : Transaction) (status : TransactionStatus) {record : WalRecord}
    (hr : record = .commit ∨ record = .abort) (plain : Result TransactionManager) :
    PagesLogged (s.endTransaction t status record plain) := by
  unfold endTransaction
  split
  · rcases hr with rfl | rfl
    · exact @PagesLogged.unpublished _ _ hg [_] rfl rfl rfl
    · exact @PagesLogged.unpublished _ _ hg [_] rfl rfl rfl
  · split
    · exact hg.same rfl rfl
    · exact hg

theorem pagesLogged_statement (hg : PagesLogged s) (c : DbCall) : PagesLogged (s.statement c) := by
  have hpublications : ∀ t x (p : Result (List (Nat × TableData))), PagesLogged (s.publications t x p) := by
    intro t x p
    unfold publications
    split
    · exact hg.same rfl rfl
    · exact hg
  cases c with
  | begin | statementSnapshot | markFailed | checkpoint => exact hg.same rfl rfl
  | insert | update | delete => exact hpublications ..
  | commit x =>
    simp only [statement]
    split
    · split
      · exact pagesLogged_endTransaction hg _ _ (Or.inl rfl) _
      · exact hg
    · exact hg
  | abort x =>
    simp only [statement]
    split
    · split
      · exact pagesLogged_endTransaction hg _ _ (Or.inr rfl) _
      · exact hg
    · exact hg
  | advance | flushFrame | evict => exact hg

theorem entries_flushFrame (s : Storage) (key : PageKey) : (s.flushFrame key).wal.entries = s.wal.entries := by
  unfold Storage.flushFrame
  split
  · rfl
  · rfl

theorem pagesLogged_step (h : s.Inv) (hg : PagesLogged s) (c : DbCall) : PagesLogged (s.step c) := by
  cases c with
  | advance => exact pagesLogged_advance h hg
  | flushFrame key => exact hg.same (entries_flushFrame _ _) rfl
  | evict key => exact hg.same (entries_flushFrame _ _) rfl
  | _ =>
    simp only [step]
    split
    · exact pagesLogged_statement hg _
    · exact hg

/-- **In every run a relation grows page by page.** -/
theorem pagesLogged_run (schemas : Nat → Schema) (calls : List DbCall) : PagesLogged ((start schemas).run calls) := by
  have hrun : ∀ (calls : List DbCall) (s : DbState), s.Inv → PagesLogged s → PagesLogged (s.run calls) := by
    intro calls
    induction calls with
    | nil => exact fun _ _ hg => hg
    | cons c cs ih => exact fun s h hg => ih _ (inv_step h c) (pagesLogged_step h hg c)
  refine hrun calls _ (inv_start schemas) ⟨fun done key image todo he => ?_, fun t n hn => ?_⟩
  · exact absurd he (List.append_ne_nil_of_right_ne_nil _ (List.cons_ne_nil _ _)).symm
  · exact absurd hn (Nat.not_lt_zero n)

end DbState

/-! ## The log and the files that a crash leaves -/

section Surviving

variable {s : DbState} {old new new' : List WalEntry} {latest : PageKey → Image} {disk : Disk}

theorem Between.since (hb : Between s old new latest) (hnew : new' <+: new) :
    MiniPostgres.since s.control.checkpointLsn (old ++ new') = new' := by
  unfold MiniPostgres.since
  rw [List.filter_append, List.filter_eq_nil_iff.2, List.filter_eq_self.2, List.nil_append]
  · intro e he
    simpa using hb.after e (hnew.subset he)
  · intro e he
    simpa using (hb.before e he).1

/-- **A page that was checkpointed is in its file after a crash**: its content is not the blank page. -/
theorem Between.kept (hi : s.Inv) (hb : Between s old new latest) (hc : Crashed s.storage disk) {k : PageKey} {i : Image}
    (hm : (k, i) ∈ loggedImages old) : pageAt disk k ≠ none := by
  intro hnone
  obtain ⟨e, he, hm⟩ := List.mem_flatMap.1 hm
  obtain ⟨p, hp⟩ := Option.ne_none_iff_exists'.1 (hb.synced.filed e (List.mem_append_left _ he) _ hm)
  have hblank : lastImage old k = .blank := (hb.synced.base k p hp).symm.trans (hc.missing k p hp hnone)
  unfold lastImage at hblank
  cases hl : (imagesOf k old).getLast? with
  | none =>
    have hmem : i ∈ imagesOf k old := mem_imagesOf.2 ⟨e, he, hm⟩
    rw [List.getLast?_eq_none_iff.1 hl] at hmem
    cases hmem
  | some j =>
    obtain ⟨f, hf, hj⟩ := mem_imagesOf.1 (List.mem_of_getLast? hl)
    obtain ⟨hlsn, hpos⟩ := (hi.log.images f (by rw [hb.split]; exact List.mem_append_left _ hf)).2 _ hj
    rw [hl] at hblank
    have hzero : j.lsn = 0 := congrArg Image.lsn hblank
    simp only at hlsn
    omega

/-- **The images that are redone leave no gap in the files.** -/
theorem Between.gapless (hi : s.Inv) (hg : PagesLogged s) (hb : Between s old new latest) (hc : Crashed s.storage disk)
    (hnew : new' <+: new) : Gapless (imagesFrom s.control.checkpointLsn (old ++ new')) disk := by
  rw [show imagesFrom s.control.checkpointLsn (old ++ new') = loggedImages new' from congrArg loggedImages (hb.since hnew)]
  intro done key image todo he n hn
  obtain ⟨rest, hrest⟩ := hnew
  have hall : loggedImages s.storage.wal.entries =
      (loggedImages old ++ done) ++ (key, image) :: (todo ++ loggedImages rest) := by
    rw [hb.split, ← hrest, loggedImages_append, loggedImages_append, he]
    simp only [List.append_assoc, List.cons_append]
  rcases hg.order _ key image _ hall n hn with hlt | ⟨i, hi'⟩
  · exact absurd hlt (Nat.not_lt_zero n)
  · rcases List.mem_append.1 hi' with ho | hd
    · left
      by_contra hge
      exact hb.kept hi hc ho (List.getElem?_eq_none_iff.2 (not_lt.1 hge))
    · exact Or.inr ⟨i, hd⟩

theorem Between.redoable (hi : s.Inv) (hb : Between s old new latest) (hc : Crashed s.storage disk) (hnew : new' <+: new)
    (hall : ∀ e ∈ new, e.endLsn ≤ s.storage.wal.flushedLsn → e ∈ new') :
    Redoable s.control.checkpointLsn (old ++ new') disk := by
  intro k
  rw [hb.since hnew]
  rcases hb.found hc hall k with hd | ⟨w, hw, hd⟩ | hd
  · refine Or.inr ⟨_, hd, Or.inr fun i hm => hb.older hi ?_⟩
    obtain ⟨e, he, hm⟩ := mem_imagesOf.1 hm
    exact mem_imagesOf.2 ⟨e, hnew.subset he, hm⟩
  · exact Or.inr ⟨w, hd, Or.inl (by rw [imagesOf_append]; exact List.mem_append_right _ hw)⟩
  · exact Or.inl (by rw [diskPage, hd]; rfl)

theorem DbState.Inv.stamped {p : List WalEntry} (h : s.Inv) (hp : p <+: s.storage.wal.entries) : Stamped p where
  increasing := (h.log.chained.sorted.sublist hp.sublist).imp fun {e f} hle => Nat.lt_of_lt_of_le e.lsn_lt hle
  positive e he q hq := by
    obtain ⟨hlsn, hpos⟩ := (h.log.images e (hp.subset he)).2 q hq
    omega
  stamped e he q hq := ((h.log.images e (hp.subset he)).2 q hq).1
  once e he := by
    have hone := (h.log.images e (hp.subset he)).1
    generalize e.images = images at hone
    rcases images with _ | ⟨q, _ | ⟨q', rest⟩⟩
    · exact List.nodup_nil
    · exact List.nodup_singleton _
    · simp at hone

end Surviving

namespace DbState

/-- **Recovery converges after every crash of every run, however often it is interrupted**: it ends in the outcomes and the files
of the uninterrupted one, with every page at the last of its images that are redone and every other page as it was, or blank in
front of one that was missing.  Another recovery redoes nothing. -/
theorem recovery_converges (schemas : Nat → Schema) (calls : List DbCall) (size : Nat) (disk disk' : Disk)
    (hsize : ((start schemas).run calls).storage.wal.flushedLsn ≤ size)
    (hc : Crashed ((start schemas).run calls).storage disk)
    (hstops : Relation.ReflTransGen (Interrupted (imagesFrom ((start schemas).run calls).control.checkpointLsn
      (((start schemas).run calls).storage.wal.reopen size).entries)) disk disk') :
    let s := (start schemas).run calls
    let redone := since s.control.checkpointLsn (s.storage.wal.reopen size).entries
    ∃ r n, s.restart size disk = .ok r ∧ s.restart size disk' = .ok { r with redonePages := n } ∧
      s.restart size r.disk = .ok { r with redonePages := 0 } ∧
      (∀ k last, (imagesOf k redone).getLast? = some last → pageAt r.disk k = some (.valid last)) ∧
      ∀ k, imagesOf k redone = [] →
        pageAt r.disk k = pageAt disk k ∨ (pageAt disk k = none ∧ pageAt r.disk k = some (.valid .blank)) := by
  intro s redone
  have h : s.Inv := inv_run schemas calls
  have hg : PagesLogged s := pagesLogged_run schemas calls
  obtain ⟨post, hsplit, hcut⟩ := reopen_prefix h.log.chained size
  have hp : (s.storage.wal.reopen size).entries <+: s.storage.wal.entries := ⟨post, hsplit.symm⟩
  obtain ⟨old, new, latest, hb⟩ := h.between
  obtain ⟨new', hpn, hnew, hall⟩ := hb.surviving h hp fun e he hle => hcut e he (Nat.le_trans hle hsize)
  obtain ⟨r, hr, -⟩ := h.restored hsize hc
  have hd : Redoable s.control.checkpointLsn (s.storage.wal.reopen size).entries disk := hpn ▸ hb.redoable h hc hnew hall
  have hgap : Gapless (imagesFrom s.control.checkpointLsn (s.storage.wal.reopen size).entries) disk :=
    hpn ▸ hb.gapless h hg hc hnew
  obtain ⟨⟨n, hagain⟩, hends⟩ := recover_restarts (h.stamped hp) hd hgap hstops s.control.statuses s.control.nextXid
  unfold restart at hr ⊢
  obtain ⟨hlast, hpages, hother⟩ := hends r hr
  exact ⟨r, n, hr, by rw [hagain, hr]; rfl, hlast, hpages, hother⟩

theorem recovery_converges_example :
    let s := (start (fun _ => HeapState.oneColumn)).run committedInsert
    s.storage.wal.flushedLsn ≤ s.storage.wal.flushedLsn ∧ Crashed s.storage (fun _ => []) ∧
      Relation.ReflTransGen (Interrupted (imagesFrom s.control.checkpointLsn
        (s.storage.wal.reopen s.storage.wal.flushedLsn).entries)) (fun _ => []) tornAllocation ∧
      ∃ r n image, s.restart s.storage.wal.flushedLsn (fun _ => []) = .ok r ∧
        s.restart s.storage.wal.flushedLsn tornAllocation = .ok { r with redonePages := n } ∧
        s.restart s.storage.wal.flushedLsn r.disk = .ok { r with redonePages := 0 } ∧
        pageAt r.disk ⟨0, 0⟩ = some (.valid image) ∧ 0 < image.lsn := by
  intro s
  have hcrash : Crashed s.storage (fun _ => []) :=
    ⟨fun k d hd => by simp [pageAt] at hd, fun k p hp _ => by obtain ⟨-, rfl⟩ := committedInsert_file hp; rfl⟩
  have hkeys : (imagesFrom s.control.checkpointLsn (s.storage.wal.reopen s.storage.wal.flushedLsn).entries).map
      (fun q => (q.1, decide (0 < q.2.lsn))) = [(⟨0, 0⟩, true)] := by decide +kernel
  obtain ⟨⟨key, image⟩, himages, hkey⟩ := List.map_eq_singleton_iff.1 hkeys
  obtain ⟨rfl, hpos⟩ := Prod.mk.inj hkey
  have hlsn : 0 < image.lsn := of_decide_eq_true hpos
  -- the first recovery stops in the allocation of the page, the second in its repair
  have hallocating : Interrupted [(⟨0, 0⟩, image)] (fun _ => []) tornAllocation :=
    .allocating [] [] ⟨0, 0⟩ image rfl 0 (Nat.le_refl _) (Nat.le_refl _)
  have hrepairing : Interrupted [(⟨0, 0⟩, image)] tornAllocation tornAllocation := by
    have htorn : tornAllocation.withPages 0 [.torn] = tornAllocation := Function.update_idem ..
    have hstop : Interrupted [(⟨0, 0⟩, image)] tornAllocation (tornAllocation.withPages 0 [.torn]) :=
      .repairing [] [] ⟨0, 0⟩ image rfl (by rintro ⟨current, hcurrent, -⟩; cases hcurrent)
    rwa [htorn] at hstop
  have hstops := Relation.ReflTransGen.tail (Relation.ReflTransGen.single hallocating) hrepairing
  rw [← himages] at hstops
  obtain ⟨r, n, hr, hagain, hlast, hpages, -⟩ :=
    recovery_converges _ committedInsert _ _ _ (Nat.le_refl _) hcrash hstops
  refine ⟨Nat.le_refl _, hcrash, hstops, r, n, image, hr, hagain, hlast, hpages _ _ ?_, hlsn⟩
  rw [imagesOf_eq_filter]
  show (List.map Prod.snd (List.filter _ (imagesFrom _ _))).getLast? = _
  rw [himages]
  rfl

end DbState
end MiniPostgres
