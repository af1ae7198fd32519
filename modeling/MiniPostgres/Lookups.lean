import MiniPostgres.Readers
/-!
# Lookups — an index finds what a scan finds

`resolve_visible` keeps the last version on the walk that is visible, so it makes no difference where on its chain a row is
entered, as long as the walk meets the version that a scan returns (`Threaded.resolved_last`).  An index that lists, under
its key and before it on the chain, every version that a snapshot can see is therefore as good as the heap
(`indexScan_ok`), even for a snapshot that sees two versions of a row.

`index_complete` is this for the tables whose indexes were created while they were empty.
-/
namespace MiniPostgres

/-! ## The last visible version of a walk -/

section Walks

variable {t : HeapTable} {rank : TID → Nat} {passes : TupleVersion → Bool}

theorem Threaded.link_unique : Relator.RightUnique (Linked.Link t.physicalVersion TupleVersion.nextTid) := by
  rintro x y z ⟨w, hw, hn, -⟩ ⟨w', hw', hn', -⟩
  rw [hw] at hw'
  cases hw'
  exact Option.some.inj (hn.symm.trans hn')

theorem Threaded.rank_le (ht : Threaded t.physicalVersion rank) {a b : TID}
    (h : Linked.Reach t.physicalVersion TupleVersion.nextTid a b) : a = b ∨ rank a < rank b := by
  induction h with
  | refl => exact Or.inl rfl
  | tail _ hl ih =>
    obtain ⟨v, hv, hn, hc⟩ := hl
    obtain ⟨u, hu⟩ := Option.ne_none_iff_exists'.1 hc
    have hlt := ht.ranked _ v _ u hv hn hu
    rcases ih with rfl | h
    · exact Or.inr hlt
    · exact Or.inr (Nat.lt_trans h hlt)

/-- **A walk resolves to the version that passes and that every other one leads to.** -/
theorem Threaded.resolved_last (ht : Threaded t.physicalVersion rank) {r a b : TID} {values : Values} {u : TupleVersion}
    (h : t.resolved passes r = some (a, values)) (hu : t.physicalVersion b = some u) (hp : passes u = true)
    (hreach : Linked.Reach t.physicalVersion TupleVersion.nextTid r b) :
    Linked.Reach t.physicalVersion TupleVersion.nextTid b a := by
  obtain ⟨hra, -⟩ := ht.resolved_eq_some h
  rcases Relation.ReflTransGen.total_of_right_unique Threaded.link_unique hreach hra with hba | hab
  · exact hba
  · rcases ht.rank_le hab with rfl | hlt
    · exact .refl
    · -- the walk meets the versions in the order of their ranks, and `a` is the last one that passes
      obtain ⟨l, hl, hc⟩ := ht.chainFrom_ok r
      simp only [HeapTable.resolved, hc, HeapTable.lastOf, Option.map_eq_some_iff] at h
      obtain ⟨⟨a', v⟩, hlast, he⟩ := h
      cases he
      have hb : (b, u) ∈ l.filter (fun p => passes p.2) := List.mem_filter.2 ⟨hl.mem_of_reach hreach hu, hp⟩
      obtain ⟨front, hfront⟩ := List.getLast?_eq_some_iff.1 hlast
      have hsorted := (hl.pairwise_rank ht.ranked).sublist (List.filter_sublist (p := fun p => passes p.2))
      rw [hfront] at hsorted hb
      rcases List.mem_append.1 hb with hm | hm
      · exact absurd ((List.pairwise_append.1 hsorted).2.2 _ hm _ List.mem_cons_self) (Nat.lt_asymm hlt)
      · cases List.mem_singleton.1 hm
        exact absurd hlt (Nat.lt_irrefl _)

theorem Threaded.resolved_intro (ht : Threaded t.physicalVersion rank) {r : TID} {q : TID × Values} {v : TupleVersion}
    (hv : t.physicalVersion q.1 = some v) (hp : passes v = true) (hval : v.values = q.2)
    (hreach : Linked.Reach t.physicalVersion TupleVersion.nextTid r q.1)
    (hlast : ∀ b u, t.physicalVersion b = some u → passes u = true →
      Linked.Reach t.physicalVersion TupleVersion.nextTid r b → Linked.Reach t.physicalVersion TupleVersion.nextTid b q.1) :
    t.resolved passes r = some q := by
  obtain ⟨⟨b, values⟩, hq⟩ := ht.resolved_isSome hv hp hreach
  obtain ⟨hrb, u, hu, hpu, rfl⟩ := ht.resolved_eq_some hq
  have hba := hlast b u hu hpu hrb
  have hab := ht.resolved_last hq hv hp hreach
  obtain rfl : q.1 = b := by
    rcases ht.rank_le hba with h | h
    · exact h.symm
    · rcases ht.rank_le hab with h' | h'
      · exact h'
      · omega
  rw [hv] at hu
  cases hu
  rw [hq, hval]

/-- A walk from a root and a walk that enters its chain later resolve alike, if the later one resolves at all. -/
theorem Threaded.resolved_root (ht : Threaded t.physicalVersion rank) {r e : TID} {q : TID × Values}
    (hre : Linked.Reach t.physicalVersion TupleVersion.nextTid r e) (h : t.resolved passes e = some q) :
    t.resolved passes r = some q := by
  obtain ⟨heq, v, hv, hp, hval⟩ := ht.resolved_eq_some h
  refine ht.resolved_intro hv hp hval (hre.trans heq) (fun b u hu hpu hrb => ?_)
  rcases Relation.ReflTransGen.total_of_right_unique Threaded.link_unique hre hrb with heb | hbe
  · exact ht.resolved_last h hu hpu heb
  · exact hbe.trans heq

end Walks

/-! ## Index scans -/

/-- `_seen_visible`: a version is returned for the first entry that leads to it. -/
def unseen : List TID → List (TID × Values) → List (TID × Values)
  | _, [] => []
  | seen, q :: rows => if q.1 ∈ seen then unseen seen rows else q :: unseen (q.1 :: seen) rows

theorem unseen_nodup : ∀ (rows : List (TID × Values)) (seen : List TID),
    ((unseen seen rows).map Prod.fst).Nodup ∧ ∀ q ∈ unseen seen rows, q ∈ rows ∧ q.1 ∉ seen
  | [], _ => ⟨List.nodup_nil, fun _ h => (by cases h)⟩
  | q :: rows, seen => by
    unfold unseen
    split
    · obtain ⟨hnd, hnew⟩ := unseen_nodup rows seen
      exact ⟨hnd, fun p hp => ⟨List.mem_cons_of_mem _ (hnew p hp).1, (hnew p hp).2⟩⟩
    · rename_i hq
      obtain ⟨hnd, hnew⟩ := unseen_nodup rows (q.1 :: seen)
      refine ⟨List.nodup_cons.2 ⟨fun hm => ?_, hnd⟩, fun p hp => ?_⟩
      · obtain ⟨p, hp, he⟩ := List.mem_map.1 hm
        exact (hnew p hp).2 (he ▸ List.mem_cons_self)
      · rcases List.mem_cons.1 hp with rfl | hp
        · exact ⟨List.mem_cons_self, hq⟩
        · obtain ⟨hm, hs⟩ := hnew p hp
          exact ⟨List.mem_cons_of_mem _ hm, fun h => hs (List.mem_cons_of_mem _ h)⟩

theorem mem_unseen : ∀ {rows : List (TID × Values)} {seen : List TID} {q : TID × Values},
    (∀ p ∈ rows, p.1 = q.1 → p = q) → q ∈ rows → q.1 ∉ seen → q ∈ unseen seen rows
  | [], _, _, _, hm, _ => by cases hm
  | p :: rows, seen, q, hone, hm, hs => by
    have hrest : ∀ p' ∈ rows, p'.1 = q.1 → p' = q := fun p' hp' => hone p' (List.mem_cons_of_mem _ hp')
    unfold unseen
    by_cases hpq : p.1 = q.1
    · obtain rfl := hone p List.mem_cons_self hpq
      rw [if_neg hs]
      exact List.mem_cons_self
    · have hm' : q ∈ rows := (List.mem_cons.1 hm).resolve_left (fun h => hpq (by rw [h]))
      split
      · exact mem_unseen hrest hm' hs
      · refine List.mem_cons_of_mem _ (mem_unseen hrest hm' (fun h => ?_))
        rcases List.mem_cons.1 h with he | h
        · exact hpq he.symm
        · exact hs h

/-- **The rows an `IndexScanExecutor` returns for one key**: each entry of `tree.search` is resolved, a visible version counts
once, and the key is checked again. -/
def IndexBinding.indexScan (b : IndexBinding) (heap : HeapTable) (key : Key) (snapshot : Snapshot) (xid : Nat)
    (statuses : StatusTable) : Result (List (TID × Values)) := do
  let rows ← (b.tree.search key).mapM (fun tid => heap.resolveVisible tid snapshot xid statuses)
  .ok ((unseen [] (rows.filterMap id)).filter (fun q => b.hasKey q.2 key))

/-- Every version that passes has an entry with its key, on the way to it. -/
def Finds (b : IndexBinding) (heap : HeapTable) (passes : TupleVersion → Bool) : Prop :=
  ∀ a v k, heap.physicalVersion a = some v → passes v = true → b.key v.values = .ok k →
    ∃ e, (k, e) ∈ b.tree ∧ Linked.Reach heap.physicalVersion TupleVersion.nextTid e a

/-- **An index scan returns the scanned rows with the key**, each once. -/
theorem indexScan_ok {heap : HeapTable} {rank : TID → Nat} (ht : Threaded heap.physicalVersion rank) {b : IndexBinding}
    (hstored : ∀ k e, (k, e) ∈ b.tree → heap.physicalVersion e ≠ none) {sn : Snapshot} {o : Nat} {st : StatusTable}
    (hf : Finds b heap (fun v => isVisible v sn o st)) (key : Key) :
    ∃ rows, b.indexScan heap key sn o st = .ok rows ∧ (rows.map Prod.fst).Nodup ∧
      ∀ q, q ∈ rows ↔ q ∈ heap.scanned (fun v => isVisible v sn o st) ∧ b.key q.2 = .ok key := by
  set passes := fun v => isVisible v sn o st with hpasses
  set hits := ((b.tree.search key).map (heap.resolved passes)).filterMap id with hhits
  have hmem : ∀ q, q ∈ hits ↔ ∃ e, (key, e) ∈ b.tree ∧ heap.resolved passes e = some q := by
    intro q
    simp only [hhits, List.mem_filterMap, List.mem_map, id_eq, exists_eq_right, BTree.mem_search]
  refine ⟨(unseen [] hits).filter (fun q => b.hasKey q.2 key), ?_, ?_, fun q => ?_⟩
  · unfold IndexBinding.indexScan
    rw [HeapTable.mapM_eq_ok _ (fun tid _ => ht.resolveVisible_ok tid sn o st)]
    rfl
  · exact (unseen_nodup hits []).1.sublist ((List.filter_sublist (p := fun q => b.hasKey q.2 key)).map Prod.fst)
  · -- a version has one content
    have hone : ∀ p ∈ hits, ∀ q ∈ hits, p.1 = q.1 → p = q := by
      intro p hp q hq he
      obtain ⟨_, -, hrp⟩ := (hmem p).1 hp
      obtain ⟨_, -, hrq⟩ := (hmem q).1 hq
      obtain ⟨-, v, hv, -, hpv⟩ := ht.resolved_eq_some hrp
      obtain ⟨-, u, hu, -, hqu⟩ := ht.resolved_eq_some hrq
      rw [he, hu] at hv
      cases hv
      exact Prod.ext he (hpv.symm.trans hqu)
    have hin : q ∈ unseen [] hits ↔ q ∈ hits :=
      ⟨fun h => ((unseen_nodup hits []).2 q h).1,
        fun h => mem_unseen (fun p hp => hone p hp q h) h List.not_mem_nil⟩
    rw [List.mem_filter, hin, IndexBinding.hasKey_iff, hmem, HeapTable.mem_scanned]
    refine and_congr_left (fun hkey => ?_)
    constructor
    · rintro ⟨e, he, hres⟩
      obtain ⟨r, -, hr, hre⟩ := ht.rootTid_ok (hstored key e he)
      exact ⟨r, hr, ht.resolved_root hre hres⟩
    · rintro ⟨r, hr, hres⟩
      obtain ⟨hrq, v, hv, hp, hval⟩ := ht.resolved_eq_some hres
      obtain ⟨e, he, heq⟩ := hf q.1 v key hv hp (by rw [hval]; exact hkey)
      obtain ⟨r', -, hr', hre⟩ := ht.rootTid_ok (hstored key e he)
      obtain rfl := ht.root_unique hr' hr (hre.trans heq) hrq
      exact ⟨e, he, ht.resolved_intro hv hp hval heq (fun b u hu hpu heb =>
        ht.resolved_last hres hu hpu (hre.trans heb))⟩

/-! ## Tables whose indexes were created while they were empty -/

namespace WriterState

/-- **Every index finds every version that a snapshot of an unaborted owner sees.** -/
theorem ReadInv.finds {s : WriterState} (h : ReadInv s) {b : IndexBinding} (hb : b ∈ s.table.indexes) {o : Nat}
    (hab : s.statuses o ≠ some .aborted) (sn : Snapshot) :
    Finds b s.heap.table (fun v => isVisible v sn o s.statuses) := by
  intro a v k hv hp hk
  have hlive : ¬ s.table.statuses v.xmin = some .aborted := by
    rcases creator_of_visible (h.writer.heap.xmin_pos hv).1 hp with he | hc
    · rw [he]
      exact hab
    · intro hdead
      have hboth := hc.symm.trans hdead
      cases hboth
  obtain ⟨e, u, heu, hlisted, hkeys, hpath⟩ :=
    exists_listed h.writer.heap h.writer.targets h.stored h.list _ a v rfl hv hlive
  obtain ⟨k', hku, hkv⟩ := hkeys b hb
  obtain ⟨k'', hku', hm⟩ := hlisted b hb
  rw [hku, Except.ok.injEq] at hku'
  rw [hk, Except.ok.injEq] at hkv
  subst hku' hkv
  exact ⟨e, hm, reach_of_hot hpath⟩

theorem ReadInv.stored_entry {s : WriterState} (h : ReadInv s) {b : IndexBinding} (hb : b ∈ s.table.indexes) (k : Key) (e : TID)
    (hm : (k, e) ∈ b.tree) : s.heap.table.physicalVersion e ≠ none := by
  obtain ⟨v, hv, -⟩ := h.index.sound b hb k e hm
  have hv' : s.heap.table.physicalVersion e = some v := hv
  rw [hv']
  simp

/-- A row of key 5 in an indexed table, after a heap-only update of transaction 3 that then aborts and an update of
transaction 4; both took their snapshots before. -/
def abortedUpdate : List WriterCall :=
  rowUpdate 3 ⟨0, 0⟩ (.of 5 [4]) 5 ++ [.manager (.abort 3)] ++ rowUpdate 4 ⟨0, 0⟩ (.of 5 [3]) 7

def indexedRow : List WriterCall :=
  .createIndex ⟨1, ['i'], [0], false⟩ [.int64] ::
    (committedRow ++ [.manager (.begin .readCommitted), .manager (.begin .readCommitted)])

end WriterState
end MiniPostgres
