import MiniPostgres.TupleLocks
/-!
# Entries — what the indexes list

Every entry of an index names a stored version with the entry's key (`IndexInv`): a new version is listed in every index
under its keys, or, as a heap-only version, in none (`Listing`).  A vacuum that reclaims a version in its second loop takes
the version's entries with it.
-/
namespace MiniPostgres

open History (Write getElem?_concat)

/-! ## Trees -/

theorem BTree.mem_insert {tree : BTree} {key : Key} {tid : TID} {e : Key × TID} :
    e ∈ tree.insert key tid ↔ e ∈ tree ∨ e = (key, tid) := by
  unfold BTree.insert
  split
  · rename_i hm
    refine ⟨Or.inl, ?_⟩
    rintro (h | rfl)
    · exact h
    · exact BTree.mem_search.1 hm
  · rw [List.mem_append, List.mem_singleton]

theorem BTree.nodup_insert {tree : BTree} (h : tree.Nodup) (key : Key) (tid : TID) : (tree.insert key tid).Nodup := by
  unfold BTree.insert
  split
  · exact h
  · rename_i hm
    refine List.nodup_append.2 ⟨h, List.nodup_singleton _, fun a ha b hb => ?_⟩
    rw [List.mem_singleton] at hb
    subst hb
    rintro rfl
    exact hm (BTree.mem_search.2 ha)

theorem BTree.not_mem_delete {tree : BTree} (h : tree.Nodup) (key : Key) (tid : TID) : (key, tid) ∉ (tree.delete key tid).1 := by
  unfold BTree.delete
  split
  · exact h.not_mem_erase
  · assumption

theorem BTree.nodup_delete {tree : BTree} (h : tree.Nodup) (key : Key) (tid : TID) : (tree.delete key tid).1.Nodup := by
  unfold BTree.delete
  split
  · exact h.erase _
  · exact h

/-! ## All the indexes of a table -/

theorem mem_insertKeys {values : Values} {tid : TID} : ∀ {bs : List IndexBinding} {keys : List Key} {b' : IndexBinding},
    keysOf bs values = .ok keys → b' ∈ insertKeys bs keys tid →
      ∃ b ∈ bs, ∃ k, b.key values = .ok k ∧ b' = { b with tree := b.tree.insert k tid }
  | [], keys, b', _, h => by cases keys <;> cases h
  | b :: bs, keys, b', hk, h => by
    obtain ⟨k, hkey, hk⟩ := bind_eq_ok.1 hk
    obtain ⟨ks, hks, he⟩ := bind_eq_ok.1 hk
    cases he
    rcases List.mem_cons.1 h with rfl | h
    · exact ⟨b, List.mem_cons_self, k, hkey, rfl⟩
    · obtain ⟨c, hc, hrest⟩ := mem_insertKeys hks h
      exact ⟨c, List.mem_cons_of_mem _ hc, hrest⟩

theorem mem_deleteKeys {values : Values} {tid : TID} : ∀ {bs : List IndexBinding} {keys : List Key} {b' : IndexBinding},
    keysOf bs values = .ok keys → b' ∈ (deleteKeys bs keys tid).1 →
      ∃ b ∈ bs, ∃ k, b.key values = .ok k ∧ b' = { b with tree := (b.tree.delete k tid).1 }
  | [], keys, b', _, h => by cases keys <;> cases h
  | b :: bs, keys, b', hk, h => by
    obtain ⟨k, hkey, hk⟩ := bind_eq_ok.1 hk
    obtain ⟨ks, hks, he⟩ := bind_eq_ok.1 hk
    cases he
    rcases List.mem_cons.1 h with rfl | h
    · exact ⟨b, List.mem_cons_self, k, hkey, rfl⟩
    · obtain ⟨c, hc, hrest⟩ := mem_deleteKeys hks h
      exact ⟨c, List.mem_cons_of_mem _ hc, hrest⟩

theorem mem_buildTree {b : IndexBinding} : ∀ {rows : List (TID × Values)} {seen : List Key} {tree : BTree},
    buildTree b rows seen = .ok tree → b.tree.Nodup →
      tree.Nodup ∧ ∀ e ∈ tree, e ∈ b.tree ∨ ∃ q ∈ rows, e.2 = q.1 ∧ b.key q.2 = .ok e.1
  | [], seen, tree, h, hnd => by
    cases h
    exact ⟨hnd, fun e he => Or.inl he⟩
  | (tid, values) :: rows, seen, tree, h, hnd => by
    obtain ⟨key, hkey, h⟩ := bind_eq_ok.1 h
    split at h
    · exact absurd h raise_ne_ok
    · obtain ⟨h1, h2⟩ := mem_buildTree h (BTree.nodup_insert hnd key tid)
      refine ⟨h1, fun e he => ?_⟩
      rcases h2 e he with hm | ⟨q, hq, hrest⟩
      · rcases BTree.mem_insert.1 hm with hm | rfl
        · exact Or.inl hm
        · exact Or.inr ⟨(tid, values), List.mem_cons_self, rfl, hkey⟩
      · exact Or.inr ⟨q, List.mem_cons_of_mem _ hq, hrest⟩

/-! ## What one call lists -/

/-- The only slot that is new in the second state. -/
structure NewVersion (s s' : TableState) (tid : TID) (v : TupleVersion) : Prop where
  fresh  : s.heap.table.physicalVersion tid = none
  stored : s'.heap.table.physicalVersion tid = some v
  only   : ∀ a, a ≠ tid → s'.heap.table.physicalVersion a ≠ none → s.heap.table.physicalVersion a ≠ none

/-- **Every effect of a call on the indexes**: nothing, a new index (of a call that `creates` one), or a new version that is
listed in all of them, or in none because it lies on the page of the version it replaces and has its keys. -/
inductive Listing (creates : Prop) (s s' : TableState) : Prop
  | same (hi : s'.indexes = s.indexes)
      (hold : ∀ a, s'.heap.table.physicalVersion a ≠ none → s.heap.table.physicalVersion a ≠ none)
  | created (hc : creates) (b : IndexBinding) (rows : List (TID × Values)) (tree : BTree) (hh : s'.heap = s.heap)
      (hrows : s.heap.table.scanGloballyLive s.statuses = .ok rows) (hb : b.tree = []) (ht : buildTree b rows [] = .ok tree)
      (hi : s'.indexes = s.indexes ++ [{ b with tree := tree }])
  | listed (tid : TID) (v : TupleVersion) (keys : List Key) (hn : NewVersion s s' tid v)
      (hk : keysOf s.indexes v.values = .ok keys) (hi : s'.indexes = insertKeys s.indexes keys tid)
  | hot (tid a : TID) (v u : TupleVersion) (keys : List Key) (hn : NewVersion s s' tid v)
      (hu : s.heap.table.physicalVersion a = some u) (hpage : tid.pageId = a.pageId)
      (ho : ∃ w, s'.heap.log[s'.heap.origin tid]? = some w ∧ w.target = some (s.heap.origin a))
      (hk : keysOf s.indexes u.values = .ok keys) (hk' : keysOf s.indexes v.values = .ok keys) (hi : s'.indexes = s.indexes)

theorem insertMvcc_listing {creates : Prop} {s s' : TableState} {x : Nat} {values : Values} {tid : TID}
    (h : s.insertMvcc x values = .ok (s', tid)) : Listing creates s s' := by
  obtain ⟨validated, -, h⟩ := bind_eq_ok.1 h
  obtain ⟨keys, hk, h⟩ := bind_eq_ok.1 h
  obtain ⟨u, -, h⟩ := bind_eq_ok.1 h
  obtain ⟨⟨heap, tid'⟩, hins, he⟩ := bind_eq_ok.1 h
  cases he
  obtain ⟨u, -, hins⟩ := bind_eq_ok.1 hins
  obtain ⟨⟨table, tid''⟩, ht, he⟩ := bind_eq_ok.1 hins
  cases he
  have hi := (HeapTable.insertVersion_eq_ok ht).1
  refine .listed tid ⟨x, 0, none, validated⟩ keys ⟨hi.fresh, hi.get, fun a ha hne => ?_⟩ hk rfl
  simp only [hi.versions, Function.update_of_ne ha] at hne
  exact hne

theorem replaceChecked_listing {creates : Prop} {s s' : TableState} {x : Nat} {a : TID} {u : TupleVersion} {values : Values}
    {r : Option TID} (hu : s.heap.table.physicalVersion a = some u)
    (h : s.replaceChecked x a u.values values = .ok (s', r)) : Listing creates s s' := by
  obtain ⟨validated, -, h⟩ := bind_eq_ok.1 h
  obtain ⟨oldKeys, hold, h⟩ := bind_eq_ok.1 h
  obtain ⟨newKeys, hnew, h⟩ := bind_eq_ok.1 h
  obtain ⟨_, -, h⟩ := bind_eq_ok.1 h
  obtain ⟨⟨heap, replacement⟩, hr, h⟩ := bind_eq_ok.1 h
  cases replacement with
  | none => cases h; exact .same rfl (fun _ hne => hne)
  | some new =>
    obtain ⟨_, -, hr⟩ := bind_eq_ok.1 hr
    obtain ⟨⟨table, r'⟩, ht, hr⟩ := bind_eq_ok.1 hr
    rcases HeapTable.replaceVersion_eq_ok ht with ⟨rfl, rfl⟩ | ⟨old, new', rfl, ho, -, mid, ⟨hins, -⟩, hrew, -⟩
    · cases hr
    · cases hr
      have hne : s.heap.table.physicalVersion a ≠ none := by rw [hu]; simp
      have hna : new ≠ a := fun he => hins.ne hne he.symm
      have hn : ∀ indexes, NewVersion s ⟨{ s.heap with
          table := table
          log := s.heap.log ++ [⟨x, s.heap.rowOf a, some (s.heap.origin a), some validated⟩]
          origin := Function.update s.heap.origin new s.heap.log.length }, indexes⟩ new ⟨x, 0, none, validated⟩ := by
        refine fun indexes => ⟨hins.fresh, ?_, fun b hb hstored => ?_⟩
        · simp only [hrew.versions, Function.update_of_ne hna]
          exact hins.get
        · simp only [hrew.versions] at hstored
          by_cases hba : b = a
          · rw [hba]; exact hne
          · rw [Function.update_of_ne hba, hins.versions, Function.update_of_ne hb] at hstored
            exact hstored
      simp only at h
      split at h
      · rename_i hhot
        cases h
        simp only [hotEligible, Bool.and_eq_true, decide_eq_true_eq] at hhot
        obtain ⟨hpage, rfl⟩ := hhot
        refine .hot new a _ u oldKeys (hn s.indexes) hu hpage
          ⟨⟨x, s.heap.rowOf a, some (s.heap.origin a), some validated⟩, ?_, rfl⟩ hold hnew rfl
        simp only [Function.update_self]
        exact getElem?_concat.2 (Or.inr ⟨rfl, rfl⟩)
      · cases h
        exact .listed new _ newKeys (hn _) hnew rfl

namespace WriterState

theorem listing_of_table {creates : Prop} {s s' : TableState} (hi : s'.indexes = s.indexes)
    (ht : s'.heap.table = s.heap.table) : Listing creates s s' :=
  .same hi (fun _ hne => by rw [← ht]; exact hne)

theorem managerCall_table (s : WriterState) (c : TransactionManager.Call) :
    (s.managerCall c).table.indexes = s.table.indexes ∧ (s.managerCall c).table.heap.table = s.table.heap.table := by
  unfold managerCall
  split
  · exact ⟨rfl, rfl⟩
  · cases c <;> exact ⟨rfl, rfl⟩

theorem failTask_table (s : WriterState) (x : Nat) :
    (s.failTask x).table.indexes = s.table.indexes ∧ (s.failTask x).table.heap.table = s.table.heap.table := by
  unfold failTask
  split
  · exact ⟨rfl, rfl⟩
  · exact ⟨rfl, rfl⟩

/-- The turns of a row write before its last one leave the table. -/
theorem turn_table {s s' : WriterState} {x : Nat} {k : RowTask} {stage : Option WriteStage}
    (hturn : s.turn x k = .ok (s', stage)) (hst : ∀ root a old, k.stage ≠ .writing root a old) : s'.table = s.table := by
  unfold turn at hturn
  cases hk : k.stage with
  | locking root =>
    rw [hk] at hturn
    obtain ⟨u, -, hturn⟩ := bind_eq_ok.1 hturn
    cases hturn
    rfl
  | resolving root =>
    rw [hk] at hturn
    obtain ⟨live, -, hturn⟩ := bind_eq_ok.1 hturn
    cases hturn
    rfl
  | checking root live =>
    rw [hk] at hturn
    obtain ⟨t, -, hturn⟩ := bind_eq_ok.1 hturn
    obtain ⟨u, -, hturn⟩ := bind_eq_ok.1 hturn
    cases live with
    | none =>
      cases hwr : k.write with
      | update values => rw [hwr] at hturn; exact absurd hturn raise_ne_ok
      | delete => rw [hwr] at hturn; cases hturn; rfl
    | some q =>
      simp only at hturn
      split at hturn
      · cases hturn; rfl
      · cases hturn; rfl
  | writing root a old => exact absurd hk (hst root a old)

theorem startWrite_table {s s' : WriterState} {leased : Bool} {x : Nat} {w : RowWrite} {tid : TID} {sn : Snapshot}
    {recheck : Values → Bool} (hw : s.startWrite leased x w tid sn recheck = .ok s') : s'.table = s.table := by
  obtain ⟨t, -, hw⟩ := bind_eq_ok.1 hw
  obtain ⟨u, -, hw⟩ := bind_eq_ok.1 hw
  split at hw
  · exact absurd hw raise_ne_ok
  · split at hw
    · exact absurd hw raise_ne_ok
    · split at hw
      · obtain ⟨root, -, he⟩ := bind_eq_ok.1 hw
        cases he
        rfl
      · exact absurd hw raise_ne_ok

/-- A delete stores no version that was not there. -/
theorem deleteVersion_stored {s heap : HeapState} {x : Nat} {a : TID} {deleted : Bool}
    (h : s.deleteVersion x a = .ok (heap, deleted)) (c : TID) (hne : heap.table.physicalVersion c ≠ none) :
    s.table.physicalVersion c ≠ none := by
  obtain ⟨u, -, h⟩ := bind_eq_ok.1 h
  obtain ⟨⟨table, deleted'⟩, hd, h⟩ := bind_eq_ok.1 h
  rcases HeapTable.deleteVersion_eq_ok hd with ⟨rfl, rfl⟩ | ⟨old, rfl, hold, -, hrew, -⟩
  · cases h; exact hne
  · cases h
    simp only [hrew.versions] at hne
    by_cases hca : c = a
    · rw [hca, hold]
      simp
    · rw [Function.update_of_ne hca] at hne
      exact hne

theorem turn_listing {creates : Prop} {s s' : WriterState} (h : WriterInv s) {x : Nat} {k : RowTask} (hk : s.tasks x = some k)
    {stage : Option WriteStage} (hturn : s.turn x k = .ok (s', stage)) :
    Listing creates s.table s'.table := by
  by_cases hst : ∃ root a old, k.stage = .writing root a old
  · obtain ⟨root, a, old, hst⟩ := hst
    unfold turn at hturn
    rw [hst] at hturn
    have ht := h.tasks x k hk
    obtain ⟨v, hv, -, -, rfl⟩ := (ht.root.resolved_live h.heap h.targets ht.active).1 (ht.live (some (a, old)) (by rw [hst]; rfl))
    cases hwr : k.write with
    | update values =>
      rw [hwr] at hturn
      obtain ⟨⟨table, replacement⟩, hr, hturn⟩ := bind_eq_ok.1 hturn
      cases replacement with
      | none => exact absurd hturn raise_ne_ok
      | some new =>
        cases hturn
        exact replaceChecked_listing hv hr
    | delete =>
      rw [hwr] at hturn
      obtain ⟨⟨heap, b⟩, hr, hturn⟩ := bind_eq_ok.1 hturn
      cases hturn
      exact .same rfl (deleteVersion_stored hr)
  · rw [turn_table hturn (fun root a old he => hst ⟨root, a, old, he⟩)]
    exact listing_of_table rfl rfl

/-- **Every call but a vacuum has one of these effects.** -/
theorem step_listing {s : WriterState} (h : WriterInv s) {c : WriterCall} (hc : ∀ horizon, c ≠ .vacuum horizon) :
    Listing (∃ md d, c = .createIndex md d) s.table (s.step c).table := by
  have hsame : ∀ {creates : Prop}, Listing creates s.table s.table := listing_of_table rfl rfl
  cases c with
  | manager c =>
    have hmanager : ∀ {creates : Prop}, Listing creates s.table (s.managerCall c).table :=
      listing_of_table (s.managerCall_table c).1 (s.managerCall_table c).2
    cases c with
    | commit x =>
      simp only [step]
      split
      · exact hsame
      · exact hmanager
    | begin | statementSnapshot | abort | markFailed => exact hmanager
  | insert x values =>
    simp only [step]
    split
    · rename_i table tid hins
      exact insertMvcc_listing hins
    · exact hsame
  | createIndex md d =>
    simp only [step]
    split
    · rename_i table hcr
      obtain ⟨rows, hrows, hcr⟩ := bind_eq_ok.1 hcr
      obtain ⟨tree, ht, he⟩ := bind_eq_ok.1 hcr
      cases he
      exact .created ⟨md, d, rfl⟩ ⟨md, d, []⟩ rows tree rfl hrows rfl ht rfl
    · exact hsame
  | write leased x w tid sn recheck =>
    simp only [step]
    split
    · rename_i s' _ hw
      rw [startWrite_table hw]
      exact hsame
    · exact hsame
  | turn x =>
    simp only [step]
    split
    · exact hsame
    · rename_i k hk
      split
      · rename_i s' stage hturn
        have hl : ∀ {creates : Prop}, Listing creates s.table s'.table := turn_listing h hk hturn
        exact hl
      · exact listing_of_table (s.failTask_table x).1 (s.failTask_table x).2
  | vacuum horizon => exact absurd rfl (hc horizon)

end WriterState

/-! ## The entries of a table -/

/-- **Every entry names a stored version with the entry's key**, once. -/
structure IndexInv (s : TableState) : Prop where
  nodup : ∀ b ∈ s.indexes, b.tree.Nodup
  sound : ∀ b ∈ s.indexes, ∀ k a, (k, a) ∈ b.tree → ∃ v, s.heap.table.physicalVersion a = some v ∧ b.key v.values = .ok k

theorem Listing.indexInv {creates : Prop} {s s' : TableState} (hheap : HeapInv s.heap) (hs : HeapStepped True s.heap s'.heap)
    (hl : Listing creates s s') (h : IndexInv s) : IndexInv s' := by
  -- an entry of a version that was there
  have hkeep : ∀ {b : IndexBinding} {k : Key} {a : TID}, b ∈ s.indexes → (k, a) ∈ b.tree →
      ∃ v, s'.heap.table.physicalVersion a = some v ∧ b.key v.values = .ok k := by
    intro b k a hb hm
    obtain ⟨v, hv, hkey⟩ := h.sound b hb k a hm
    obtain ⟨v', hv', -, hval, -⟩ := hs.stays hv
    exact ⟨v', hv', by rw [hval]; exact hkey⟩
  cases hl with
  | same hi _ | hot _ _ _ _ _ _ _ _ _ _ _ hi =>
    exact ⟨by rw [hi]; exact h.nodup, fun b hb k a hm => hkeep (hi ▸ hb) hm⟩
  | created hc b rows tree hh hrows hb ht hi =>
    obtain ⟨hnd, hmem⟩ := mem_buildTree ht (by rw [hb]; exact List.nodup_nil)
    rw [HeapTable.scanGloballyLive_ok hheap.mirror hheap.wf, Except.ok.injEq] at hrows
    refine ⟨fun b' hb' => ?_, fun b' hb' k a hm => ?_⟩
    · rw [hi, List.mem_append, List.mem_singleton] at hb'
      rcases hb' with hb' | rfl
      · exact h.nodup b' hb'
      · exact hnd
    · rw [hi, List.mem_append, List.mem_singleton] at hb'
      rcases hb' with hb' | rfl
      · exact hkeep hb' hm
      · rcases hmem (k, a) hm with hm | ⟨q, hq, rfl, hkey⟩
        · rw [hb] at hm
          cases hm
        · rw [← hrows] at hq
          obtain ⟨v, hv, -, hval⟩ := HeapTable.scanned_sound hheap.mirror hheap.wf hq
          exact ⟨v, by rw [hh]; exact hv, by rw [hval]; exact hkey⟩
  | listed tid v keys hn hk hi =>
    refine ⟨fun b' hb' => ?_, fun b' hb' k a hm => ?_⟩
    · obtain ⟨b, hb, k, -, rfl⟩ := mem_insertKeys hk (hi ▸ hb')
      exact BTree.nodup_insert (h.nodup b hb) k tid
    · obtain ⟨b, hb, k', hkey, rfl⟩ := mem_insertKeys hk (hi ▸ hb')
      rcases BTree.mem_insert.1 hm with hm | he
      · obtain ⟨u, hu, hkey'⟩ := hkeep hb hm
        exact ⟨u, hu, hkey'⟩
      · cases he
        exact ⟨v, hn.stored, hkey⟩

namespace WriterState

theorem indexInv_run : ∀ (calls : List WriterCall) {s : WriterState}, (∀ c ∈ calls, ∀ horizon, c ≠ .vacuum horizon) →
    WriterInv s → IndexInv s.table → IndexInv (s.run calls).table
  | [], _, _, _, hi => hi
  | c :: calls, s, hno, h, hi => by
    have hc := hno c (List.mem_cons_self ..)
    have hm := step_moved h hc
    exact indexInv_run calls (fun d hd => hno d (List.mem_cons_of_mem _ hd)) (hm.writerInv h)
      ((step_listing h hc).indexInv h.heap hm.stepped hi)

theorem indexInv_start (r : Recovered) (schema : Schema) : IndexInv (start r schema).table :=
  ⟨fun _ hb => (by cases hb), fun _ hb => (by cases hb)⟩

end WriterState

/-! ## Which versions are listed -/

/-- Every index lists the version under its key. -/
def Listed (indexes : List IndexBinding) (a : TID) (v : TupleVersion) : Prop :=
  ∀ b ∈ indexes, ∃ k, b.key v.values = .ok k ∧ (k, a) ∈ b.tree

def Unlisted (indexes : List IndexBinding) (a : TID) : Prop := ∀ b ∈ indexes, ∀ k, (k, a) ∉ b.tree

/-- The two versions have the same key in every index. -/
def SameKeys (indexes : List IndexBinding) (u v : TupleVersion) : Prop :=
  ∀ b ∈ indexes, ∃ k, b.key u.values = .ok k ∧ b.key v.values = .ok k

/-- A version that no index lists: it was made over a version of its page with the same keys. -/
structure HeapOnly (s : TableState) (a : TID) (v : TupleVersion) : Prop where
  unlisted : Unlisted s.indexes a
  replaces : ∃ p u w, s.heap.table.physicalVersion p = some u ∧ s.heap.log[s.heap.origin a]? = some w ∧
    w.target = some (s.heap.origin p) ∧ a.pageId = p.pageId ∧ SameKeys s.indexes u v

/-- **Every stored version is listed in all the indexes, or heap-only.** -/
def ListInv (s : TableState) : Prop :=
  ∀ a v, s.heap.table.physicalVersion a = some v → Listed s.indexes a v ∨ HeapOnly s a v

theorem sameKeys_of_keysOf {u v : TupleVersion} : ∀ {bs : List IndexBinding} {keys : List Key},
    keysOf bs u.values = .ok keys → keysOf bs v.values = .ok keys → SameKeys bs u v
  | [], _, _, _, b, hb => by cases hb
  | c :: bs, keys, h, h', b, hb => by
    obtain ⟨k, hk, h⟩ := bind_eq_ok.1 h
    obtain ⟨ks, hks, he⟩ := bind_eq_ok.1 h
    cases he
    obtain ⟨k', hk', h'⟩ := bind_eq_ok.1 h'
    obtain ⟨ks', hks', he⟩ := bind_eq_ok.1 h'
    cases he
    rcases List.mem_cons.1 hb with rfl | hb
    · exact ⟨k, hk, hk'⟩
    · exact sameKeys_of_keysOf hks hks' b hb

/-- A version that was there is listed, or heap-only, as before. -/
theorem HeapOnly.stays {s s' : TableState} (hs : HeapStepped True s.heap s'.heap) (hi : s'.indexes = s.indexes) {a : TID}
    {v v' : TupleVersion} (hval : v'.values = v.values) (ho : s'.heap.origin a = s.heap.origin a) (h : HeapOnly s a v) :
    HeapOnly s' a v' := by
  obtain ⟨p, u, w, hp, hw, ht, hpage, hkeys⟩ := h.replaces
  obtain ⟨u', hu', -, huval, huo, -⟩ := hs.stays hp
  refine ⟨by rw [hi]; exact h.unlisted, p, u', w, hu', by rw [ho]; exact hs.log_get hw, by rw [huo]; exact ht, hpage, ?_⟩
  rw [hi]
  intro b hb
  rw [huval, hval]
  exact hkeys b hb

theorem Listing.listInv {creates : Prop} {s s' : TableState} (hidx : IndexInv s) (hs : HeapStepped True s.heap s'.heap)
    (hl : Listing creates s s') (hempty : creates → s.heap.table.scanVersions = []) (h : ListInv s) : ListInv s' := by
  -- a version that was there, when the indexes are the same
  have hkeep : s'.indexes = s.indexes → ∀ a v', s'.heap.table.physicalVersion a = some v' →
      s.heap.table.physicalVersion a ≠ none → Listed s'.indexes a v' ∨ HeapOnly s' a v' := by
    intro hi a v' hv' hne
    obtain ⟨v, hv⟩ := Option.ne_none_iff_exists'.1 hne
    obtain ⟨u, hu, -, hval, ho, -⟩ := hs.stays hv
    rw [hv'] at hu
    cases hu
    refine (h a v hv).imp (fun hlist => ?_) (fun hh => hh.stays hs hi hval ho)
    rw [hi]
    intro b hb
    rw [hval]
    exact hlist b hb
  cases hl with
  | same hi hold => exact fun a v' hv' => hkeep hi a v' hv' (hold a (by rw [hv']; simp))
  | created hc b rows tree hh hrows hb ht hi =>
    intro a v hv
    rw [hh] at hv
    have hmem := HeapTable.mem_scanVersions.2 hv
    rw [hempty hc] at hmem
    cases hmem
  | listed tid v keys hn hk hi =>
    intro a v' hv'
    by_cases hat : a = tid
    · subst hat
      rw [hn.stored] at hv'
      cases hv'
      refine Or.inl (fun b' hb' => ?_)
      rw [hi] at hb'
      obtain ⟨b, hb, k, hkey, rfl⟩ := mem_insertKeys hk hb'
      exact ⟨k, hkey, BTree.mem_insert.2 (Or.inr rfl)⟩
    · obtain ⟨u, hu⟩ := Option.ne_none_iff_exists'.1 (hn.only a hat (by rw [hv']; simp))
      obtain ⟨u', hu', -, hval, ho, -⟩ := hs.stays hu
      rw [hv'] at hu'
      cases hu'
      refine (h a u hu).imp (fun hlist b' hb' => ?_) (fun hh => ?_)
      · rw [hi] at hb'
        obtain ⟨b, hb, k, -, rfl⟩ := mem_insertKeys hk hb'
        obtain ⟨k', hkey', hm⟩ := hlist b hb
        exact ⟨k', by rw [hval]; exact hkey', BTree.mem_insert.2 (Or.inl hm)⟩
      · obtain ⟨p, y, w, hp, hw, ht, hpage, hkeys⟩ := hh.replaces
        obtain ⟨y', hy', -, hyval, hyo, -⟩ := hs.stays hp
        refine ⟨fun b' hb' k' hm => ?_, p, y', w, hy', by rw [ho]; exact hs.log_get hw, by rw [hyo]; exact ht, hpage,
          fun b' hb' => ?_⟩
        · rw [hi] at hb'
          obtain ⟨b, hb, k, -, rfl⟩ := mem_insertKeys hk hb'
          rcases BTree.mem_insert.1 hm with hm | he
          · exact hh.unlisted b hb k' hm
          · exact hat (Prod.mk.inj he).2
        · rw [hi] at hb'
          obtain ⟨b, hb, k, -, rfl⟩ := mem_insertKeys hk hb'
          obtain ⟨k', hk1, hk2⟩ := hkeys b hb
          exact ⟨k', by rw [hyval]; exact hk1, by rw [hval]; exact hk2⟩
  | hot tid a v u keys hn hu hpage ho hk hk' hi =>
    intro c v' hv'
    by_cases hct : c = tid
    · subst hct
      rw [hn.stored] at hv'
      cases hv'
      obtain ⟨w, hw, htarget⟩ := ho
      obtain ⟨u', hu', -, huval, huo, -⟩ := hs.stays hu
      refine Or.inr ⟨fun b hb k hm => ?_, a, u', w, hu', hw, by rw [huo]; exact htarget, hpage, ?_⟩
      · rw [hi] at hb
        obtain ⟨y, hy, -⟩ := hidx.sound b hb k c hm
        rw [hn.fresh] at hy
        cases hy
      · rw [hi]
        intro b hb
        rw [huval]
        exact sameKeys_of_keysOf hk hk' b hb
    · exact hkeep hi c v' hv' (hn.only c hct (by rw [hv']; simp))

end MiniPostgres
