import MiniPostgres.CrashSafety
import MiniPostgres.Lookups
/-!
# Rebuild — indexes made again after a crash

`rebuild_indexes` lists, in empty trees, the globally live version of each chain under its keys, where the running system
lists the root of the chain.  After recovery no transaction is in progress, so a version is globally live exactly when a
fresh snapshot sees it: an entry and the version that a scan returns are one and the same.
-/
namespace MiniPostgres

/-- The entries of one row of `scan_globally_live`. -/
def rebuildRow (bs : List IndexBinding) (row : TID × Values) : Result (List IndexBinding) := do
  let keys ← keysOf bs row.2
  .ok (insertKeys bs keys row.1)

def IndexedTable.rebuildIndexes (t : IndexedTable) (statuses : StatusTable) : Result IndexedTable := do
  let rows ← t.heap.scanGloballyLive statuses
  let indexes ← rows.foldlM rebuildRow t.indexes
  .ok { t with indexes := indexes }

/-! ## What the trees hold -/

theorem keysOf_ok {values : Values} : ∀ {bs : List IndexBinding}, (∀ b ∈ bs, ∃ k, b.key values = .ok k) →
    ∃ keys, keysOf bs values = .ok keys
  | [], _ => ⟨[], rfl⟩
  | b :: bs, h => by
    obtain ⟨k, hk⟩ := h b List.mem_cons_self
    obtain ⟨ks, hks⟩ := keysOf_ok (fun c hc => h c (List.mem_cons_of_mem _ hc))
    exact ⟨k :: ks, by unfold keysOf; rw [hk, hks]; rfl⟩

/-- **A rebuild returns when every index has a key for every row.** -/
theorem rebuildRows_ok : ∀ {rows : List (TID × Values)} {bs : List IndexBinding},
    (∀ q ∈ rows, ∀ b ∈ bs, ∃ k, b.key q.2 = .ok k) → ∃ bs', rows.foldlM rebuildRow bs = .ok bs'
  | [], bs, _ => ⟨bs, rfl⟩
  | q :: rows, bs, h => by
    obtain ⟨keys, hkeys⟩ := keysOf_ok (h q List.mem_cons_self)
    have hone : rebuildRow bs q = .ok (insertKeys bs keys q.1) := by
      unfold rebuildRow
      rw [hkeys]
      rfl
    have hrest : ∀ p ∈ rows, ∀ b ∈ insertKeys bs keys q.1, ∃ k, b.key p.2 = .ok k := by
      intro p hp b hb
      obtain ⟨c, hc, k, -, rfl⟩ := mem_insertKeys hkeys hb
      exact h p (List.mem_cons_of_mem _ hp) c hc
    obtain ⟨bs', hbs'⟩ := rebuildRows_ok hrest
    exact ⟨bs', by rw [List.foldlM_cons, hone]; exact hbs'⟩

/-- **The entries of a rebuilt index are the keys of the rows.** -/
theorem mem_rebuilt : ∀ {rows : List (TID × Values)} {bs bs' : List IndexBinding}, rows.foldlM rebuildRow bs = .ok bs' →
    ∀ b' ∈ bs', ∃ b ∈ bs, b' = { b with tree := b'.tree } ∧
      ∀ k e, (k, e) ∈ b'.tree ↔ (k, e) ∈ b.tree ∨ ∃ q ∈ rows, q.1 = e ∧ b.key q.2 = .ok k
  | [], bs, bs', h, b', hb' => by
    cases h
    exact ⟨b', hb', rfl, fun k e => by simp⟩
  | q :: rows, bs, bs', h, b', hb' => by
    rw [List.foldlM_cons] at h
    obtain ⟨mid, hmid, h⟩ := bind_eq_ok.1 h
    obtain ⟨keys, hkeys, he⟩ := bind_eq_ok.1 hmid
    cases he
    obtain ⟨c, hc, hbc, hmem⟩ := mem_rebuilt h b' hb'
    obtain ⟨b, hb, key, hkey, rfl⟩ := mem_insertKeys hkeys hc
    refine ⟨b, hb, hbc, fun k e => ?_⟩
    have hrow : ∀ values, IndexBinding.key { b with tree := b.tree.insert key q.1 } values = b.key values := fun _ => rfl
    simp only [hmem k e, BTree.mem_insert, hrow, List.exists_mem_cons_iff, hkey, Except.ok.injEq, Prod.mk.injEq]
    constructor
    · rintro ((hm | ⟨rfl, rfl⟩) | hm)
      · exact Or.inl hm
      · exact Or.inr (Or.inl ⟨rfl, rfl⟩)
      · exact Or.inr (Or.inr hm)
    · rintro (hm | ⟨rfl, rfl⟩ | hm)
      · exact Or.inl (Or.inl hm)
      · exact Or.inl (Or.inr ⟨rfl, rfl⟩)
      · exact Or.inr hm

/-- **An index whose entries are the visible versions finds each of them once.** -/
theorem lookup_rebuilt {heap : HeapTable} {rank : TID → Nat} (ht : Threaded heap.physicalVersion rank)
    {b : IndexBinding} {sn : Snapshot}
    {o : Nat} {st : StatusTable} (ha : Apart heap.physicalVersion (fun v => isVisible v sn o st))
    (htree : ∀ k e, (k, e) ∈ b.tree ↔ ∃ v, heap.physicalVersion e = some v ∧ isVisible v sn o st = true ∧ b.key v.values = .ok k)
    (key : Key) :
    ∃ found, b.lookup heap key sn o st = .ok found ∧
      found.Perm ((heap.scanned (fun v => isVisible v sn o st)).filter (fun q => b.hasKey q.2 key)) := by
  set passes := fun v => isVisible v sn o st
  obtain ⟨found, hok, hmem⟩ := lookup_ok ht b key sn o st ha
  refine ⟨found, hok, (List.perm_ext_iff_of_nodup ?_ (ht.scanned_nodup.filter _)).2 (fun q => ?_)⟩
  · -- an entry resolves to the version it names
    have hself : (b.tree.search key).map (heap.resolved passes) =
        (b.tree.search key).map (fun e => (heap.physicalVersion e).map (fun v => (e, v.values))) := by
      refine List.map_congr_left (fun e he => ?_)
      obtain ⟨v, hv, hp, -⟩ := (htree key e).1 (BTree.mem_search.1 he)
      rw [hv, (ht.resolved_iff ha (q := (e, v.values))).2 ⟨.refl, v, hv, hp, rfl⟩]
      rfl
    have hfound : found = (((b.tree.search key).map (fun e => (heap.physicalVersion e).map (fun v => (e, v.values)))).filterMap
        id).filter (fun q => b.hasKey q.2 key) := by
      unfold IndexBinding.lookup at hok
      rw [HeapTable.mapM_eq_ok _ (fun tid _ => ht.resolveVisible_ok tid sn o st), hself] at hok
      cases hok
      rfl
    rw [hfound]
    refine List.Nodup.filter _ ?_
    rw [List.filterMap_map]
    refine List.Nodup.filterMap (fun a a' q hq hq' => ?_) ((List.perm_insertionSort _ _).nodup_iff.2 (List.nodup_dedup _))
    obtain ⟨v, -, rfl⟩ := Option.map_eq_some_iff.1 hq
    obtain ⟨v', -, he⟩ := Option.map_eq_some_iff.1 hq'
    exact (congrArg Prod.fst he).symm
  · rw [hmem q, List.mem_filter, ht.mem_scanned ha, IndexBinding.hasKey_iff]
    constructor
    · rintro ⟨-, hvis, hkey⟩
      exact ⟨hvis, hkey⟩
    · rintro ⟨⟨v, hv, hp, hval⟩, hkey⟩
      exact ⟨⟨q.1, (htree key q.1).2 ⟨v, hv, hp, by rw [hval]; exact hkey⟩, .refl⟩, ⟨v, hv, hp, hval⟩, hkey⟩

/-! ## After recovery -/

section Recovered

variable {s : DbState} {p : List WalEntry} {disk : Disk} {r : RecoveryResult} {t : Nat} {d : TableData} {heap : HeapTable}

theorem Restored.globallyLive_iff (h : s.Inv) (hp : p <+: s.storage.wal.entries) (hr : Restored s p disk r)
    (hall : ∀ e ∈ s.storage.wal.entries, e.endLsn ≤ s.storage.wal.flushedLsn → e ∈ p) (hd : Sealed p t d) {a : TID}
    {v : TupleVersion} (hv : d.look a = some v) :
    HeapTable.globallyLive v 0 r.statuses = true ↔ recorded p v.xmin = true ∧ ¬ recorded p v.xmax = true := by
  have hwriter : ∀ w ∈ d.log, 2 ≤ w.writer ∧ (r.statuses.get w.writer = .committed ↔ recorded p w.writer = true) := by
    intro w hw
    have hb := hd.begun w hw
    have hwr := (h.log.begun _).1 (hb.mono hp)
    refine ⟨hwr.two_le h.log.outcome.manager, ?_⟩
    rw [← hr.committed_iff h hall hwr]
    unfold StatusTable.get
    rcases hr.begun_terminal hb with hc | hc
    · rw [hc]; simp
    · rw [hc]; simp
  obtain ⟨loose, hmir⟩ := hd.mirror
  obtain ⟨w, hw, hx, -⟩ := (hmir.carries a v hv).made
  obtain ⟨hmin2, hminc⟩ := hwriter w (List.mem_of_getElem? hw)
  rw [hx] at hmin2 hminc
  have hmax : (v.xmax ≠ 0 ∧ (v.xmax = 0 ∨ r.statuses.get v.xmax = .committed)) ↔ recorded p v.xmax = true := by
    by_cases hz : v.xmax = 0
    · rw [hz]
      refine ⟨fun hc => absurd rfl hc.1, fun hc => ?_⟩
      obtain ⟨e, he, hex, hre⟩ := recorded_iff.1 hc
      have hwr := h.log.ended e (hp.subset he) (Or.inl hre)
      rw [hex] at hwr
      exact absurd (hwr.two_le h.log.outcome.manager) (by decide)
    · obtain ⟨j, u, hl, hxu⟩ := (hmir.carries a v hv).deleted hz
      have hu := (hwriter u (List.mem_of_getElem? hl.get)).2
      rw [hxu] at hu
      simp [hz, hu]
  have hsys : v.xmin ≠ systemXid := fun he => by rw [he] at hmin2; exact absurd hmin2 (by decide)
  have hzero : v.xmin ≠ 0 := by omega
  unfold HeapTable.globallyLive
  rw [decide_eq_true_iff, hmax, hminc]
  simp [hsys, hzero]

theorem Restored.apart (h : s.Inv) (hp : p <+: s.storage.wal.entries) (hr : Restored s p disk r)
    (hall : ∀ e ∈ s.storage.wal.entries, e.endLsn ≤ s.storage.wal.flushedLsn → e ∈ p) (hd : Sealed p t d)
    (hlook : heap.physicalVersion = d.look) (calls : List TransactionManager.Call) {o : Nat} {sn : Snapshot}
    (ht : ((TransactionManager.start hr.manager).run calls).Takes o sn) :
    Apart heap.physicalVersion (fun v => isVisible v sn o ((TransactionManager.start hr.manager).run calls).statuses) := by
  intro a b v u hv hu hpv hpu hreach
  obtain ⟨loose, hmir⟩ := hd.mirror
  rw [← hlook] at hmir
  have hrow := (hmir.row_of_reach hd.wf (by rw [hv]; simp) hreach).2
  exact ((hr.reads h hp hall hd hlook calls ht _).unique hmir hd.wf hv hu rfl hrow hpv hpu).symm

end Recovered

namespace DbState

/-- An index on the one column. -/
def oneIndex : IndexBinding := ⟨⟨1, ['i'], [0], false⟩, [.int64], []⟩

def keyOfFive : Key := [1, 128, 0, 0, 0, 0, 0, 0, 5]

end DbState

end MiniPostgres
