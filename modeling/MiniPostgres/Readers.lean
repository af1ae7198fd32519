import MiniPostgres.Thinning
import MiniPostgres.FirstUpdater
import MiniPostgres.VacuumReturns
/-!
# Readers — what a vacuum does to its readers

A reader sees at most one version of a row, and none that the vacuum calls dead (`Reader`).  So a scan of the heap returns the
same rows before and after a vacuum, however the chains fell apart.  An index lookup does unless the first loop removed the
only versions through which an index found the row: `vacuum_invisible` says exactly when.
-/
namespace MiniPostgres

open History (Write Closed lt_of_getElem?)

/-! ## Index lookups -/

def IndexBinding.hasKey (b : IndexBinding) (values : Values) (key : Key) : Bool :=
  match b.key values with
  | .ok k    => decide (k = key)
  | .error _ => false

/-- The rows an `IndexScanExecutor` fetches for a key: each hit of `tree.search` is resolved and the key is checked again. -/
def IndexBinding.lookup (b : IndexBinding) (heap : HeapTable) (key : Key) (snapshot : Snapshot) (xid : Nat)
    (statuses : StatusTable) : Result (List (TID × Values)) := do
  let rows ← (b.tree.search key).mapM (fun tid => heap.resolveVisible tid snapshot xid statuses)
  .ok ((rows.filterMap id).filter (fun q => b.hasKey q.2 key))

theorem IndexBinding.hasKey_iff {b : IndexBinding} {values : Values} {key : Key} :
    b.hasKey values key = true ↔ b.key values = .ok key := by
  unfold hasKey
  split
  · rename_i k hk
    rw [hk, decide_eq_true_eq, Except.ok.injEq]
  · rename_i e he
    rw [he]
    simp

/-- **A lookup returns the visible versions with the key that are reached from an entry.** -/
theorem lookup_ok {heap : HeapTable} {rank : TID → Nat} (ht : Threaded heap.physicalVersion rank) (b : IndexBinding) (key : Key)
    (sn : Snapshot) (o : Nat) (st : StatusTable) (ha : Apart heap.physicalVersion (fun v => isVisible v sn o st)) :
    ∃ rows, b.lookup heap key sn o st = .ok rows ∧ ∀ q, q ∈ rows ↔
      (∃ tid, (key, tid) ∈ b.tree ∧ Linked.Reach heap.physicalVersion TupleVersion.nextTid tid q.1) ∧
        (∃ v, heap.physicalVersion q.1 = some v ∧ isVisible v sn o st = true ∧ v.values = q.2) ∧ b.key q.2 = .ok key := by
  refine ⟨(((b.tree.search key).map (heap.resolved (fun v => isVisible v sn o st))).filterMap id).filter
    (fun q => b.hasKey q.2 key), ?_, fun q => ?_⟩
  · unfold IndexBinding.lookup
    rw [HeapTable.mapM_eq_ok _ (fun tid _ => ht.resolveVisible_ok tid sn o st)]
    rfl
  · simp only [List.mem_filter, List.mem_filterMap, List.mem_map, id_eq, exists_eq_right, IndexBinding.hasKey_iff,
      BTree.mem_search]
    constructor
    · rintro ⟨⟨tid, hm, hres⟩, hkey⟩
      obtain ⟨hreach, hvis⟩ := (ht.resolved_iff ha).1 hres
      exact ⟨⟨tid, hm, hreach⟩, hvis, hkey⟩
    · rintro ⟨⟨tid, hm, hreach⟩, hvis, hkey⟩
      exact ⟨⟨tid, hm, (ht.resolved_iff ha).2 ⟨hreach, hvis⟩⟩, hkey⟩

/-! ## Heap-only chains -/

/-- The version that `a` was made over names it, while the creator of `a` did not abort and nothing was reclaimed. -/
theorem HeapInv.link_of_target {s : HeapState} (hi : HeapInv s) (hst : Stored s.table.physicalVersion s.log s.origin) {a p : TID}
    {v u : TupleVersion} {w : Write Nat Values} (hv : s.table.physicalVersion a = some v)
    (hu : s.table.physicalVersion p = some u) (hw : s.log[s.origin a]? = some w) (ht : w.target = some (s.origin p))
    (hlive : ¬ s.manager.statuses v.xmin = some .aborted) : u.nextTid = some a := by
  obtain ⟨w', hw', hx, hval⟩ := (hi.mirror.carries a v hv).made
  rw [hw] at hw'
  cases hw'
  cases hn : u.nextTid with
  | none =>
    have := hi.mirror.plain p u hu hn _ w hw ht
    rw [hval] at this
    cases this
  | some c =>
    obtain ⟨hc, hsuccs⟩ := hi.mirror.named p u c hu hn
    obtain ⟨y, hlast⟩ : ∃ y, LastReplaced s.log (s.origin p) (s.origin c) y := by
      cases hsuccs with
      | one h => exact ⟨_, h⟩
      | step h hg _ =>
        obtain ⟨e, he, ho⟩ := hst _ _ h.get h.value
        exact absurd ho (hg e he)
    have hle := hlast.last _ w hw ht (by rw [hval]; simp)
    rcases Nat.lt_or_eq_of_le hle with hlt | heq
    · exact absurd (hx ▸ hi.serial _ _ w y _ hlt hw hlast.get ht hlast.target) hlive
    · rw [hi.mirror.inj a c (by rw [hv]; simp) hc heq]

/-- A link to a version that no index lists. -/
def HotLink (t : IndexedTable) (x a : TID) : Prop :=
  Linked.Link t.heap.physicalVersion TupleVersion.nextTid x a ∧ Unlisted t.indexes a

/-- **Every version whose creator did not abort has its keys listed**, at a version from which heap-only links lead to it. -/
theorem exists_listed {s : TableState} (hi : HeapInv s.heap) (hl : LiveTargets s.statuses s.heap.log)
    (hst : Stored s.heap.table.physicalVersion s.heap.log s.heap.origin) (h : ListInv s) :
    ∀ (n : Nat) (a : TID) (v : TupleVersion), s.heap.origin a = n → s.heap.table.physicalVersion a = some v →
      ¬ s.statuses v.xmin = some .aborted → ∃ e u, s.heap.table.physicalVersion e = some u ∧ Listed s.indexes e u ∧
        SameKeys s.indexes u v ∧ Relation.ReflTransGen (HotLink s.table) e a := by
  intro n
  induction n using Nat.strongRecOn with
  | ind n ih =>
    intro a v hn hv hlive
    rcases h a v hv with hlist | hh
    · refine ⟨a, v, hv, hlist, fun b hb => ?_, .refl⟩
      obtain ⟨k, hk, -⟩ := hlist b hb
      exact ⟨k, hk, hk⟩
    · obtain ⟨p, u, w, hp, hw, ht, -, hkeys⟩ := hh.replaces
      have hlink := hi.link_of_target hst hv hp hw ht hlive
      obtain ⟨y, hy, hxy, -⟩ := (hi.mirror.carries p u hp).made
      obtain ⟨w', hw', hxw, -⟩ := (hi.mirror.carries a v hv).made
      rw [hw] at hw'
      cases hw'
      have hlt := (hi.wf.writes _ w _ hw ht).1
      -- the creator of the version before is the same transaction, or committed
      have hlive' : ¬ s.statuses u.xmin = some .aborted := by
        rcases hl _ w _ y hw ht hy with he | hc
        · rw [← hxy, he, hxw]; exact hlive
        · rw [← hxy]
          intro hab
          rw [hab] at hc
          cases hc
      obtain ⟨e, ue, he, hlist, hke, hpath⟩ := ih _ (hn ▸ hlt) p u rfl hp hlive'
      have hstored : s.heap.table.physicalVersion a ≠ none := by rw [hv]; simp
      refine ⟨e, ue, he, hlist, fun b hb => ?_, hpath.tail ⟨⟨u, hp, hlink, hstored⟩, hh.unlisted⟩⟩
      obtain ⟨k, hk1, hk2⟩ := hke b hb
      obtain ⟨k', hk1', hk2'⟩ := hkeys b hb
      rw [hk2, Except.ok.injEq] at hk1'
      subst hk1'
      exact ⟨k, hk1, hk2'⟩

theorem Unlisted.not_indexed {indexes : List IndexBinding} (hne : indexes ≠ []) {a : TID} (h : Unlisted indexes a)
    {values : Values} : indexedByAll a values indexes ≠ .ok true := by
  cases indexes with
  | nil => exact absurd rfl hne
  | cons b bs =>
    intro hall
    obtain ⟨k, -, hall⟩ := bind_eq_ok.1 hall
    split at hall
    · rename_i hm
      exact h b List.mem_cons_self k (BTree.mem_search.1 hm)
    · cases hall

/-! ## What stays on the chains -/

section Vacuum

variable {t t' : IndexedTable} {log : Log} {origin : TID → Nat} {horizon : Nat} {st : StatusTable} {r : VacuumResult}

theorem mem_removableOf_of {chain : List (TID × TupleVersion)} {c : TID} {w : TupleVersion}
    (hlast : (chain.getLast?).map Prod.fst ≠ some c) (hm : (c, w) ∈ chain.tail) (hd : classifyVersion w horizon st = .dead) :
    c ∈ removableOf chain horizon st := by
  simp only [removableOf, List.mem_filter, List.mem_map, decide_eq_true_eq]
  exact ⟨⟨(c, w), ⟨hm, hd⟩, rfl⟩, fun he => hlast he.symm⟩

/-- **What stays of a pruned chain**: its root, the versions that are not dead, and the newest. -/
theorem PruneShape.stays (h0 : Mirror (Retired st) t.heap.physicalVersion log origin) (hwf : History.WF log) {p : Pruning}
    (hp : PruneShape t horizon st (fun a => t.heap.physicalVersion a ≠ none) p) {a : TID} {v : TupleVersion}
    (hv : t.heap.physicalVersion a = some v) (ha : OnPruned t a) (hs : p.heap.physicalVersion a ≠ none) :
    a ∈ t.heap.roots ∨ classifyVersion v horizon st = .keep ∨ v.nextTid = none := by
  obtain ⟨root, hsel, hreach⟩ := ha
  obtain ⟨vr, hvr, -⟩ := id hsel
  have hstored : t.heap.physicalVersion root ≠ none := by rw [hvr]; simp
  obtain ⟨l, hl⟩ := exists_chain h0 hwf hvr
  have hc : Linked.Complete t.heap.physicalVersion TupleVersion.nextTid (some root) ((root, vr) :: l) := .cons root vr l hvr hl
  have hmem : (a, v) ∈ (root, vr) :: l := hc.path.mem_of_reach hreach hv
  rcases List.mem_cons.1 hmem with he | hal
  · obtain ⟨rfl, -⟩ := Prod.mk.inj he
    refine Or.inl (HeapTable.mem_roots.2 ⟨⟨v, hv⟩, fun b u hb hn => hsel.not_continuation ?_⟩)
    exact HeapTable.mem_continuations.2 ⟨b, u, hb, hn⟩
  · refine Or.inr ?_
    rw [or_iff_not_imp_right]
    refine fun hn => VersionDisposition.eq_keep (fun hdead => ?_)
    have halm : a ∈ l.map Prod.fst := List.mem_map.2 ⟨(a, v), hal, rfl⟩
    have hlast : (((root, vr) :: l).getLast?).map Prod.fst ≠ some a := by
      intro he
      obtain ⟨q, hq, rfl⟩ := Option.map_eq_some_iff.1 he
      have hqv := hc.path.look_of_mem (List.mem_of_getLast? hq)
      rw [hv] at hqv
      cases hqv
      exact hn (hc.last_next hq)
    refine hs ?_
    rw [hp.members root vr l hsel hstored hvr hl a (Or.inr halm)]
    exact prunedLook_removed l _ root vr (hc.path.nodup (h0.ranked hwf)) a (mem_removableOf_of hlast hal hdead) halm

theorem vacuum_pruned_stays (h0 : Mirror (Retired st) t.heap.physicalVersion log origin) (hwf : History.WF log)
    (h : t.vacuum horizon st = .ok (t', r)) {a : TID} {v : TupleVersion} (hv : t.heap.physicalVersion a = some v)
    (ha : OnPruned t a) (hk : a ∈ t.heap.roots ∨ classifyVersion v horizon st = .keep) : t'.heap.physicalVersion a ≠ none := by
  rcases hk with hroot | hkeep
  · exact vacuum_root_stored h0 hwf h hroot hv (Or.inr (Or.inl ha))
  · exact vacuum_kept h0 hwf h hv hkeep

theorem vacuum_pruned_only (h0 : Mirror (Retired st) t.heap.physicalVersion log origin) (hwf : History.WF log)
    (h : t.vacuum horizon st = .ok (t', r)) {a : TID} {v : TupleVersion} (hv : t.heap.physicalVersion a = some v)
    (ha : OnPruned t a) (hs : t'.heap.physicalVersion a ≠ none) :
    a ∈ t.heap.roots ∨ classifyVersion v horizon st = .keep ∨ v.nextTid = none := by
  obtain ⟨p, s, hp, hsw, -, rfl⟩ := vacuum_loops h0 hwf h
  refine hp.stays h0 hwf hv ha ?_
  obtain ⟨u, hu⟩ := Option.ne_none_iff_exists'.1 hs
  rw [hsw.sub a u hu]
  simp

/-- **The members of a pruned chain that stay are still on one chain.** -/
theorem vacuum_pruned_reach (h0 : Mirror (Retired st) t.heap.physicalVersion log origin) (hwf : History.WF log)
    (h : t.vacuum horizon st = .ok (t', r)) {e a : TID} (he : OnPruned t e) (hes : t'.heap.physicalVersion e ≠ none)
    (has : t'.heap.physicalVersion a ≠ none) (hreach : Linked.Reach t.heap.physicalVersion TupleVersion.nextTid e a) :
    Linked.Reach t'.heap.physicalVersion TupleVersion.nextTid e a := by
  obtain ⟨p, s, hp, hs, hP, -, rfl⟩ := vacuum_thinned h0 hwf h
  -- the second loop leaves the pruned chains
  have hsame : ∀ x, x ∈ p.processed → s.heap.physicalVersion x = p.heap.physicalVersion x := by
    intro x hx
    cases hl : p.heap.physicalVersion x with
    | none =>
      cases hs' : s.heap.physicalVersion x with
      | none => rfl
      | some u => rw [hs.sub x u hs'] at hl; cases hl
    | some u =>
      cases hs' : s.heap.physicalVersion x with
      | none => exact absurd hx (hs.gone x u hl hs').2.1
      | some u' => rw [hs.sub x u' hs'] at hl; exact hl
  have hep := (hp.processed_iff e).2 he
  have hpe : p.heap.physicalVersion e ≠ none := by rw [← hsame e hep]; exact hes
  have hpa : p.heap.physicalVersion a ≠ none := by
    obtain ⟨u, hu⟩ := Option.ne_none_iff_exists'.1 has
    rw [hs.sub a u hu]
    simp
  have hpr := hP.joined e a hpe hpa hreach
  have key : a ∈ p.processed ∧ Linked.Reach s.heap.physicalVersion TupleVersion.nextTid e a := by
    clear has hpa hreach
    induction hpr with
    | refl => exact ⟨hep, .refl⟩
    | tail _ hlink ih =>
      obtain ⟨hx, hr⟩ := ih
      obtain ⟨u, hu, hn, hy⟩ := hlink
      have hyp := hp.inner _ u _ hx hu hn
      refine ⟨hyp, hr.tail ⟨u, by rw [hsame _ hx]; exact hu, hn, ?_⟩⟩
      show s.heap.physicalVersion _ ≠ none
      rw [hsame _ hyp]
      exact hy
  exact key.2

/-- **A heap-only path outside the pruned chains stays** when its end does. -/
theorem vacuum_hot_path (h0 : Mirror (Retired st) t.heap.physicalVersion log origin) (hwf : History.WF log)
    (h : t.vacuum horizon st = .ok (t', r)) (hne : t.indexes ≠ []) {e a : TID}
    (hpath : Relation.ReflTransGen (HotLink t) e a) (ha : ¬ OnPruned t a) (has : t'.heap.physicalVersion a ≠ none) :
    t'.heap.physicalVersion e ≠ none ∧ Linked.Reach t'.heap.physicalVersion TupleVersion.nextTid e a := by
  induction hpath with
  | refl => exact ⟨has, .refl⟩
  | @tail x y _ hlink ih =>
    obtain ⟨⟨u, hu, hn, hy⟩, hun⟩ := hlink
    have hx : ¬ OnPruned t x := by
      rintro ⟨root, hsel, hreach⟩
      exact ha ⟨root, hsel, hreach.tail ⟨u, hu, hn, hy⟩⟩
    have hxs : t'.heap.physicalVersion x ≠ none := by
      intro hgone
      obtain ⟨-, hnext⟩ := (vacuum_swept h0 hwf h hu hx).1 hgone
      obtain ⟨-, w, -, hall⟩ := (hnext y hn).resolve_left hne
      exact hun.not_indexed hne hall
    obtain ⟨hes, hreach⟩ := ih hx hxs
    refine ⟨hes, hreach.tail ⟨u, ?_, hn, has⟩⟩
    obtain ⟨p, s, hp, hs, -, rfl⟩ := vacuum_loops h0 hwf h
    obtain ⟨u', hu'⟩ := Option.ne_none_iff_exists'.1 hxs
    have := hs.sub x u' hu'
    rw [hp.same x (fun hm => hx ((hp.processed_iff x).1 hm)), hu] at this
    cases this
    exact hu'

/-- **The entries of the versions that stay, stay.** -/
theorem vacuum_entry_stays (h0 : Mirror (Retired st) t.heap.physicalVersion log origin) (hwf : History.WF log)
    (h : t.vacuum horizon st = .ok (t', r)) {i : Nat} {b b' : IndexBinding} (hb : t.indexes[i]? = some b)
    (hb' : t'.indexes[i]? = some b') :
    (∀ values, b'.key values = b.key values) ∧ (∀ e ∈ b'.tree, e ∈ b.tree) ∧
      ∀ k a, (k, a) ∈ b.tree → t'.heap.physicalVersion a ≠ none → (k, a) ∈ b'.tree := by
  obtain ⟨p, s, hp, hs, -, rfl⟩ := vacuum_loops h0 hwf h
  have hsh := List.forall₂_iff_get.1 hs.indexes
  obtain ⟨hi, rfl⟩ := List.getElem?_eq_some_iff.1 hb
  obtain ⟨hi', rfl⟩ := List.getElem?_eq_some_iff.1 hb'
  have hone := hsh.2 i hi hi'
  refine ⟨hone.key, hone.sub, fun k a hm ha => hone.kept k a ?_ hm⟩
  obtain ⟨u, hu⟩ := Option.ne_none_iff_exists'.1 ha
  exact hu.trans (hs.sub a u hu).symm

/-! ## What a reader finds -/

theorem OnPruned.back (h0 : Mirror (Retired st) t.heap.physicalVersion log origin) (hwf : History.WF log) {e a : TID}
    (ha : OnPruned t a) (hes : t.heap.physicalVersion e ≠ none)
    (hreach : Linked.Reach t.heap.physicalVersion TupleVersion.nextTid e a) : OnPruned t e := by
  obtain ⟨root, -, hroot, hre⟩ := HeapTable.rootTid_ok h0 hwf hes
  exact ⟨root, (onPruned_iff h0 hwf hroot (hre.trans hreach)).1 ha, hre⟩

end Vacuum

/-- **A reader of a heap**: what it sees of a version is its creator, its deleter and its values; it sees no version that is
dead at the horizon and none of an aborted creator, and one version of a row at most. -/
structure Reader (s : HeapState) (horizon : Nat) (passes : TupleVersion → Bool) : Prop where
  body  : ∀ v v', SameBody v v' → passes v' = passes v
  kept  : ∀ a v, s.table.physicalVersion a = some v → passes v = true →
    classifyVersion v horizon s.manager.statuses = .keep
  alone : ∀ a b v u, s.table.physicalVersion a = some v → s.table.physicalVersion b = some u → s.rowOf a = s.rowOf b →
    passes v = true → passes u = true → a = b
  live  : ∀ a v, s.table.physicalVersion a = some v → passes v = true → ¬ s.manager.statuses v.xmin = some .aborted

/-- The same rows from a scan, and from every index for every key. -/
structure SameReads (t t' : IndexedTable) (sn : Snapshot) (o : Nat) (st : StatusTable) : Prop where
  scan    : ∃ rows rows', t.heap.scanVisible sn o st = .ok rows ∧ t'.heap.scanVisible sn o st = .ok rows' ∧ rows.Perm rows'
  lookups : List.Forall₂ (fun b b' => ∀ key, ∃ rows rows', b.lookup t.heap key sn o st = .ok rows ∧
    b'.lookup t'.heap key sn o st = .ok rows' ∧ ∀ q, q ∈ rows ↔ q ∈ rows') t.indexes t'.indexes

/-- **Every index keeps a way to the versions a reader sees on a pruned chain**: an entry with the key of the version, at a
version before it on the chain that is the root or not dead. -/
def StaysListed (t : IndexedTable) (horizon : Nat) (st : StatusTable) (passes : TupleVersion → Bool) : Prop :=
  ∀ a v, t.heap.physicalVersion a = some v → passes v = true → OnPruned t a → ∀ b ∈ t.indexes, ∃ k e u,
    b.key v.values = .ok k ∧ (k, e) ∈ b.tree ∧ t.heap.physicalVersion e = some u ∧
      Linked.Reach t.heap.physicalVersion TupleVersion.nextTid e a ∧
      (e ∈ t.heap.roots ∨ classifyVersion u horizon st = .keep)

section Reads

variable {s : TableState} {t' : IndexedTable} {horizon : Nat} {r : VacuumResult} {passes : TupleVersion → Bool}

theorem Reader.apart (hi : HeapInv s.heap) (h : Reader s.heap horizon passes) :
    Apart s.heap.table.physicalVersion passes := by
  intro a b v u hv hu hpv hpu hreach
  have hstored : s.heap.table.physicalVersion a ≠ none := by rw [hv]; simp
  exact h.alone a b v u hv hu (hi.mirror.row_of_reach hi.wf hstored hreach).2.symm hpv hpu

variable (hi : HeapInv s.heap) (hv : s.table.vacuum horizon s.statuses = .ok (t', r))

include hi hv

theorem Reader.apart_after (h : Reader s.heap horizon passes) : Apart t'.heap.physicalVersion passes := by
  obtain ⟨p, q, -, -, -, ht, rfl⟩ := vacuum_thinned hi.mirror hi.wf hv
  intro a b v u hav hbu hpv hpu hreach
  obtain ⟨v₀, hv₀, hbv⟩ := ht.same a v hav
  obtain ⟨u₀, hu₀, hbu⟩ := ht.same b u hbu
  rw [h.body _ _ hbv] at hpv
  rw [h.body _ _ hbu] at hpu
  exact h.apart hi a b v₀ u₀ hv₀ hu₀ hpv hpu (ht.reach a b hreach)

/-- **The versions a reader sees are those it saw.** -/
theorem Reader.same (h : Reader s.heap horizon passes) (a : TID) (values : Values) :
    (∃ v, s.heap.table.physicalVersion a = some v ∧ passes v = true ∧ v.values = values) ↔
      ∃ v, t'.heap.physicalVersion a = some v ∧ passes v = true ∧ v.values = values := by
  have hthin : ∀ v', t'.heap.physicalVersion a = some v' → ∃ v, s.heap.table.physicalVersion a = some v ∧ SameBody v v' := by
    obtain ⟨p, q, -, -, -, ht, rfl⟩ := vacuum_thinned hi.mirror hi.wf hv
    exact ht.same a
  constructor
  · rintro ⟨v, hav, hp, rfl⟩
    obtain ⟨v', hv'⟩ := Option.ne_none_iff_exists'.1 (vacuum_kept hi.mirror hi.wf hv hav (h.kept a v hav hp))
    obtain ⟨v₀, hv₀, hb⟩ := hthin v' hv'
    rw [hav] at hv₀
    cases hv₀
    exact ⟨v', hv', by rw [h.body _ _ hb]; exact hp, hb.2.2⟩
  · rintro ⟨v', hv', hp, rfl⟩
    obtain ⟨v, hav, hb⟩ := hthin v' hv'
    exact ⟨v, hav, by rw [← h.body _ _ hb]; exact hp, hb.2.2.symm⟩

omit hv in
theorem Reader.found (h : Reader s.heap horizon passes) (hl : LiveTargets s.statuses s.heap.log)
    (hst : Stored s.heap.table.physicalVersion s.heap.log s.heap.origin) (hlist : ListInv s) {a : TID} {v : TupleVersion}
    (hav : s.heap.table.physicalVersion a = some v) (hp : passes v = true) {b : IndexBinding} (hb : b ∈ s.indexes) :
    ∃ k e, b.key v.values = .ok k ∧ (k, e) ∈ b.tree ∧ s.heap.table.physicalVersion e ≠ none ∧
      Relation.ReflTransGen (HotLink s.table) e a := by
  obtain ⟨e, u, heu, hlisted, hkeys, hpath⟩ := exists_listed hi hl hst hlist _ a v rfl hav (h.live a v hav hp)
  obtain ⟨k, hku, hkv⟩ := hkeys b hb
  obtain ⟨k', hku', hm⟩ := hlisted b hb
  rw [hku, Except.ok.injEq] at hku'
  subst hku'
  exact ⟨k, e, hkv, hm, by rw [heu]; simp, hpath⟩

omit hi hv in
theorem reach_of_hot {t : IndexedTable} {e a : TID} (h : Relation.ReflTransGen (HotLink t) e a) :
    Linked.Reach t.heap.physicalVersion TupleVersion.nextTid e a :=
  Relation.ReflTransGen.mono (fun _ _ hl => hl.1) e a h

/-- **After the vacuum, an index finds a version a reader sees** exactly when the version is on no pruned chain, or keeps a
way on it. -/
theorem Reader.found_after (h : Reader s.heap horizon passes) (hl : LiveTargets s.statuses s.heap.log)
    (hst : Stored s.heap.table.physicalVersion s.heap.log s.heap.origin) (hlist : ListInv s) {a : TID} {v : TupleVersion}
    (hav : s.heap.table.physicalVersion a = some v) (hp : passes v = true) {i : Nat} {b b' : IndexBinding}
    (hb : s.indexes[i]? = some b) (hb' : t'.indexes[i]? = some b') :
    (∃ k tid, b.key v.values = .ok k ∧ (k, tid) ∈ b'.tree ∧
        Linked.Reach t'.heap.physicalVersion TupleVersion.nextTid tid a) ↔
      (OnPruned s.table a → ∃ k e u, b.key v.values = .ok k ∧ (k, e) ∈ b.tree ∧ s.heap.table.physicalVersion e = some u ∧
        Linked.Reach s.heap.table.physicalVersion TupleVersion.nextTid e a ∧
        (e ∈ s.heap.table.roots ∨ classifyVersion u horizon s.statuses = .keep)) := by
  have hmem := List.mem_of_getElem? hb
  obtain ⟨-, hsub, hstays⟩ := vacuum_entry_stays hi.mirror hi.wf hv hb hb'
  have has := vacuum_kept hi.mirror hi.wf hv hav (h.kept a v hav hp)
  have hne : s.table.indexes ≠ [] := List.ne_nil_of_mem hmem
  constructor
  · rintro ⟨k, tid, hk, hm, hreach⟩ hon
    have hbefore : Linked.Reach s.heap.table.physicalVersion TupleVersion.nextTid tid a := by
      obtain ⟨p, q, -, -, -, ht, rfl⟩ := vacuum_thinned hi.mirror hi.wf hv
      exact ht.reach tid a hreach
    have hafter : t'.heap.physicalVersion tid ≠ none := by
      rcases Relation.ReflTransGen.cases_head hreach with rfl | ⟨x, ⟨y, hy, -⟩, -⟩
      · exact has
      · rw [hy]; simp
    obtain ⟨u, hu⟩ := Option.ne_none_iff_exists'.1 (vacuum_stored hi.mirror hi.wf hv hafter)
    refine ⟨k, tid, u, hk, hsub _ hm, hu, hbefore, ?_⟩
    have hstored : s.heap.table.physicalVersion tid ≠ none := vacuum_stored hi.mirror hi.wf hv hafter
    rcases vacuum_pruned_only hi.mirror hi.wf hv hu (hon.back hi.mirror hi.wf hstored hbefore) hafter with hr | hk | hn
    · exact Or.inl hr
    · exact Or.inr hk
    · -- the last version of the chain is the one the reader sees
      rcases Relation.ReflTransGen.cases_head hbefore with rfl | ⟨x, ⟨y, hy, hyn, -⟩, -⟩
      · have hau := hav.symm.trans hu
        cases hau
        exact Or.inr (h.kept tid v hav hp)
      · have huy := hu.symm.trans hy
        cases huy
        rw [hn] at hyn
        cases hyn
  · intro hcon
    by_cases hon : OnPruned s.table a
    · obtain ⟨k, e, u, hk, hm, hu, hreach, hkept⟩ := hcon hon
      have hstored : s.heap.table.physicalVersion e ≠ none := by rw [hu]; simp
      have hone := hon.back hi.mirror hi.wf hstored hreach
      have hes := vacuum_pruned_stays hi.mirror hi.wf hv hu hone hkept
      exact ⟨k, e, hk, hstays k e hm hes, vacuum_pruned_reach hi.mirror hi.wf hv hone hes has hreach⟩
    · obtain ⟨k, e, hk, hm, -, hpath⟩ := h.found hi hl hst hlist hav hp hmem
      obtain ⟨hes, hreach⟩ := vacuum_hot_path hi.mirror hi.wf hv hne hpath hon has
      exact ⟨k, e, hk, hstays k e hm hes, hreach⟩

theorem vacuum_threaded : Threaded t'.heap.physicalVersion s.heap.origin := by
  obtain ⟨p, q, -, -, -, ht, rfl⟩ := vacuum_thinned hi.mirror hi.wf hv
  exact ht.threaded

theorem sameLookups_iff (hl : LiveTargets s.statuses s.heap.log)
    (hst : Stored s.heap.table.physicalVersion s.heap.log s.heap.origin) (hlist : ListInv s) {sn : Snapshot} {o : Nat}
    {st : StatusTable} (h : Reader s.heap horizon (fun v => isVisible v sn o st)) {i : Nat} {b b' : IndexBinding}
    (hb : s.indexes[i]? = some b) (hb' : t'.indexes[i]? = some b') :
    (∀ key, ∃ rows rows', b.lookup s.heap.table key sn o st = .ok rows ∧ b'.lookup t'.heap key sn o st = .ok rows' ∧
        ∀ q, q ∈ rows ↔ q ∈ rows') ↔
      ∀ a v, s.heap.table.physicalVersion a = some v → isVisible v sn o st = true → OnPruned s.table a → ∃ k e u,
        b.key v.values = .ok k ∧ (k, e) ∈ b.tree ∧ s.heap.table.physicalVersion e = some u ∧
          Linked.Reach s.heap.table.physicalVersion TupleVersion.nextTid e a ∧
          (e ∈ s.heap.table.roots ∨ classifyVersion u horizon s.statuses = .keep) := by
  have hrows := fun key => lookup_ok (hi.mirror.threaded hi.wf) b key sn o st (h.apart hi)
  have hrows' := fun key => lookup_ok (vacuum_threaded hi hv) b' key sn o st (h.apart_after hi hv)
  have hmem := List.mem_of_getElem? hb
  constructor
  · intro hsame a v hav hp
    refine (h.found_after hi hv hl hst hlist hav hp hb hb').1 ?_
    -- the lookup of the version's key finds it before, so after
    obtain ⟨k, e, hk, hm, -, hpath⟩ := h.found hi hl hst hlist hav hp hmem
    obtain ⟨rows, rows', hok, hok', hiff⟩ := hsame k
    obtain ⟨r₁, hr₁, hmem₁⟩ := hrows k
    obtain ⟨r₂, hr₂, hmem₂⟩ := hrows' k
    have he₁ := hok.symm.trans hr₁
    cases he₁
    have he₂ := hok'.symm.trans hr₂
    cases he₂
    have hin := (hmem₁ (a, v.values)).2 ⟨⟨e, hm, reach_of_hot hpath⟩, ⟨v, hav, hp, rfl⟩, hk⟩
    obtain ⟨⟨tid, hm', hreach⟩, -, -⟩ := (hmem₂ _).1 ((hiff _).1 hin)
    exact ⟨k, tid, hk, hm', hreach⟩
  · intro hcon key
    obtain ⟨hkeys, hsub, -⟩ := vacuum_entry_stays hi.mirror hi.wf hv hb hb'
    obtain ⟨r₁, hr₁, hmem₁⟩ := hrows key
    obtain ⟨r₂, hr₂, hmem₂⟩ := hrows' key
    refine ⟨r₁, r₂, hr₁, hr₂, fun q => ?_⟩
    rw [hmem₁ q, hmem₂ q, hkeys, ← h.same hi hv q.1 q.2]
    constructor
    · rintro ⟨-, ⟨v, hav, hp, hval⟩, hk⟩
      obtain ⟨k, tid, hk', hm, hreach⟩ := (h.found_after hi hv hl hst hlist hav hp hb hb').2 (hcon q.1 v hav hp)
      rw [hval, hk, Except.ok.injEq] at hk'
      subst hk'
      exact ⟨⟨tid, hm, hreach⟩, ⟨v, hav, hp, hval⟩, hk⟩
    · rintro ⟨⟨tid, hm, hreach⟩, hvis, hk⟩
      obtain ⟨p, q', -, -, -, ht, rfl⟩ := vacuum_thinned hi.mirror hi.wf hv
      exact ⟨⟨tid, hsub _ hm, ht.reach tid q.1 hreach⟩, hvis, hk⟩

/-- **A reader reads the same before and after a vacuum** exactly when every index keeps a way to what it sees on the pruned
chains. -/
theorem sameReads_iff (hl : LiveTargets s.statuses s.heap.log)
    (hst : Stored s.heap.table.physicalVersion s.heap.log s.heap.origin) (hlist : ListInv s) {sn : Snapshot} {o : Nat}
    {st : StatusTable} (h : Reader s.heap horizon (fun v => isVisible v sn o st)) :
    SameReads s.table t' sn o st ↔ StaysListed s.table horizon s.statuses (fun v => isVisible v sn o st) := by
  have hlen : s.table.indexes.length = t'.indexes.length := by
    obtain ⟨p, q, -, hq, -, rfl⟩ := vacuum_loops hi.mirror hi.wf hv
    exact hq.indexes.length_eq
  constructor
  · intro hsame a v hav hp hon b hb
    obtain ⟨i, hi₁, rfl⟩ := List.getElem_of_mem hb
    have hi₂ : i < t'.indexes.length := hlen ▸ hi₁
    exact (sameLookups_iff hi hv hl hst hlist h (List.getElem?_eq_getElem hi₁) (List.getElem?_eq_getElem hi₂)).1
      ((List.forall₂_iff_get.1 hsame.lookups).2 i hi₁ hi₂) a v hav hp hon
  · intro hcon
    have hth := hi.mirror.threaded hi.wf
    have hth' := vacuum_threaded hi hv
    refine ⟨⟨_, _, hth.scanVisible_ok sn o st, hth'.scanVisible_ok sn o st, ?_⟩,
      List.forall₂_iff_get.2 ⟨hlen, fun i hi₁ hi₂ => ?_⟩⟩
    · exact scanned_perm hth hth' (h.apart hi) (h.apart_after hi hv) (fun a values => h.same hi hv a values)
    · have hb : s.indexes[i]? = some (s.table.indexes.get ⟨i, hi₁⟩) := List.getElem?_eq_getElem hi₁
      exact (sameLookups_iff hi hv hl hst hlist h hb (List.getElem?_eq_getElem hi₂)).2
        (fun a v hav hp hon => hcon a v hav hp hon _ (List.mem_of_getElem? hb))

end Reads

/-! ## The readers of a run -/

theorem isVisible_body {sn : Snapshot} {o : Nat} {st : StatusTable} (v v' : TupleVersion) (h : SameBody v v') :
    isVisible v' sn o st = isVisible v sn o st := by
  obtain ⟨hmin, hmax, -⟩ := h
  unfold isVisible
  rw [hmin, hmax]

/-- **The retained snapshot of an open REPEATABLE READ transaction reads.** -/
theorem Retained.reader {before s : WriterState} {o : Nat} {sn : Snapshot} (h : WriterInv s) (hr : Retained before s o sn)
    (ho : o ∈ s.active) : Reader s.heap s.table.horizon (fun v => isVisible v sn o s.statuses) := by
  have hi := h.heap
  have hopen : s.heap.manager.statuses o = none := hi.manager.undecided o ho
  have hab : s.heap.manager.statuses o ≠ some .aborted := by rw [hopen]; simp
  obtain ⟨t, ht, -, hsn⟩ := hr.object
  refine ⟨isVisible_body, fun a v hv hp => ?_, fun a b v u hv hu hrow hpv hpu => ?_, fun a v hv hp hdead => ?_⟩
  · refine VersionDisposition.eq_keep (fun hd => ?_)
    obtain ⟨hmax, hact⟩ := cleanupHorizon_le_retained (n := s.heap.manager.nextXid)
      (List.mem_filterMap.2 ⟨o, ho, ht⟩) hsn
    have hinv := TransactionManager.dead_not_visible hi.manager hd hr.view.two_le hopen (s := sn) (fun hlt _ =>
      ⟨Nat.lt_of_lt_of_le hlt hmax, fun hm => Nat.lt_irrefl _ (Nat.lt_of_lt_of_le hlt (hact v.xmax hm))⟩) .refl
    have hvis : isVisible v sn o s.heap.manager.statuses = true := hp
    rw [hinv] at hvis
    cases hvis
  · exact ((hr.view.reads hab (hr.view.not_overtakes hab (hr.closed _))).unique hi.mirror hi.wf hv hu rfl hrow.symm hpv
      hpu).symm
  · rcases creator_of_visible (hi.xmin_pos hv).1 hp with he | hc
    · rw [he, hopen] at hdead
      cases hdead
    · have hboth := hc.symm.trans hdead
      cases hboth

theorem heapLater_manager {h : HeapState} {m : TransactionManager} (hl : TransactionManager.Later h.manager m) :
    HeapLater True h { h with manager := m } := by
  induction hl with
  | refl => exact .refl
  | tail _ hs ih => exact ih.tail (.manager _ hs)

/-- **A snapshot taken later reads.** -/
theorem taken_reader {s : WriterState} (h : WriterInv s)
    (hst : Stored s.heap.table.physicalVersion s.heap.log s.heap.origin) {m : TransactionManager}
    (hl : TransactionManager.Later s.heap.manager m) {o : Nat} {sn : Snapshot} (htakes : m.Takes o sn) :
    Reader s.heap s.table.horizon (fun v => isVisible v sn o m.statuses) := by
  have hi := h.heap
  have hlater : HeapLater True s.heap { s.heap with manager := m } := heapLater_manager hl
  have hi' := heapInv_later hi hlater
  obtain ⟨hfresh, t, ht, hact⟩ := TransactionManager.takes_fresh htakes
  have ho : o ∈ m.active := (hi'.manager.active o).2 ⟨t, ht, Or.inl hact⟩
  have hopen : m.statuses o = none := hi'.manager.undecided o ho
  have hview : View { s.heap with manager := m } { s.heap with manager := m } o sn :=
    ⟨hi', liveTargets_later hi h.targets hlater, hst, .refl, hfresh, ho⟩
  refine ⟨isVisible_body, fun a v hv hp => ?_, fun a b v u hv hu hrow hpv hpu => ?_, fun a v hv hp hdead => ?_⟩
  · refine VersionDisposition.eq_keep (fun hd => ?_)
    obtain ⟨hmax, hxids⟩ := TransactionManager.freshSnapshot_eq_ok hfresh
    have hinv := TransactionManager.dead_not_visible hi.manager hd hview.two_le
      (TransactionManager.no_outcome_before hi.manager hl hopen) (s := sn) (fun _ hc => by
        obtain ⟨hlt, hna⟩ := (TransactionManager.settled_later hi.manager
          (TransactionManager.settled_of_status hi.manager (by rw [hc]; simp)) hl).1
        rw [hmax, hxids, List.mem_filter]
        exact ⟨hlt, fun hm => hna hm.1⟩) hl
    simp only [hinv] at hp
    cases hp
  · have hab : m.statuses o ≠ some .aborted := by rw [hopen]; simp
    have hnone : ¬ Overtakes { s.heap with manager := m } { s.heap with manager := m } o (s.heap.rowOf a) :=
      fun ⟨_, _, _, _, _, _, _, _, _, _, _, hc, hnc⟩ => hnc hc
    exact ((hview.reads hab hnone).unique hi'.mirror hi'.wf hv hu rfl hrow.symm hpv hpu).symm
  · rcases creator_of_visible (hi'.xmin_pos hv).1 hp with he | hc
    · rw [he, TransactionManager.no_outcome_before hi.manager hl hopen] at hdead
      cases hdead
    · have hsame := TransactionManager.status_later hi.manager (by rw [hdead]; simp) hl
      have hc' : m.statuses v.xmin = some .committed := hc
      rw [hsame, hdead] at hc'
      cases hc'

namespace WriterState

/-- **A snapshot that reads the table around a vacuum**, with the outcomes it reads by: the retained one of an open
transaction, or one that is taken after it. -/
inductive ReadBy (s : WriterState) (o : Nat) (sn : Snapshot) : StatusTable → Prop
  | retained (t : Transaction) (ht : t ∈ s.heap.manager.activeTransactions) (ho : t.xid = o)
      (hsn : t.repeatableSnapshot = some sn) : ReadBy s o sn s.statuses
  | taken (calls : List TransactionManager.Call) (h : (s.heap.manager.run calls).Takes o sn) :
      ReadBy s o sn (s.heap.manager.run calls).statuses

/-- No vacuum, and an index is created only while the table stores no version. -/
def onEmpty (s : WriterState) : WriterCall → Prop
  | .createIndex _ _ => s.heap.table.scanVersions = []
  | .vacuum _        => False
  | _                => True

/-- What these calls keep: every version is listed or heap-only, and every retained snapshot was taken in some state. -/
structure ReadInv (s : WriterState) : Prop where
  writer   : WriterInv s
  snapped  : Snapped s
  stored   : Stored s.heap.table.physicalVersion s.heap.log s.heap.origin
  index    : IndexInv s.table
  list     : ListInv s.table
  retained : ∀ o t sn, s.heap.manager.transactions o = some t → t.repeatableSnapshot = some sn →
    ∃ before, Retained before s o sn

theorem readInv_start (r : Recovered) (schema : Schema) : ReadInv (start r schema) where
  writer   := writerInv_start r schema
  snapped  := fun x k hk => by cases hk
  stored   := fun i w hw => by simp [start, heap, TableState.start, HeapState.start] at hw
  index    := indexInv_start r schema
  list     := fun a v hv => by
    simp [start, TableState.start, HeapState.start, HeapTable.create, HeapTable.physicalVersion] at hv
  retained := fun o t sn ht => by
    simp [start, heap, TableState.start, HeapState.start, TransactionManager.start] at ht

theorem readInv_step {s : WriterState} (h : ReadInv s) {c : WriterCall} (hc : s.onEmpty c) : ReadInv (s.step c) := by
  have hno : ∀ horizon, c ≠ .vacuum horizon := by
    rintro horizon rfl
    exact hc
  have hm := step_moved h.writer hno
  have hlist := step_listing h.writer hno
  refine ⟨hm.writerInv h.writer, hm.snapped h.writer.heap h.snapped, stored_stepped hm.stepped h.stored,
    hlist.indexInv h.writer.heap hm.stepped h.index, hlist.listInv h.index hm.stepped ?_ h.list, fun o t' sn ht' hsn => ?_⟩
  · rintro ⟨md, d, rfl⟩
    exact hc
  · have hold : ∀ t, s.heap.manager.transactions o = some t → t.repeatableSnapshot = some sn →
        ∃ before, Retained before (s.step c) o sn := by
      intro t ht hs
      obtain ⟨before, hr⟩ := h.retained o t sn ht hs
      exact ⟨before, hm.retained hr⟩
    rcases hm.manager with he | ⟨mc, hcall⟩
    · rw [he] at ht'
      exact hold t' ht' hsn
    · obtain ⟨t, ht, hs | ⟨hrr, hnone, htakes⟩⟩ := snapshot_of_call h.writer.heap.manager hcall ht' hsn
      · exact hold t ht hs
      · exact ⟨s, retained_takes h.writer h.snapped h.stored hm ht hrr hnone htakes⟩

theorem readInv_run : ∀ (calls : List WriterCall) {s : WriterState}, ReadInv s → Along onEmpty s calls →
    ReadInv (s.run calls)
  | [], _, h, _ => h
  | _ :: calls, _, h, ⟨hc, hcalls⟩ => readInv_run calls (readInv_step h hc) hcalls

theorem ReadInv.reader {s : WriterState} (h : ReadInv s) {o : Nat} {sn : Snapshot} {st : StatusTable}
    (hr : s.ReadBy o sn st) : Reader s.heap s.table.horizon (fun v => isVisible v sn o st) := by
  cases hr with
  | retained t ht ho hsn =>
    obtain ⟨x, hx, htx⟩ := List.mem_filterMap.1 ht
    have hxo : x = o := (h.writer.heap.manager.object x t htx).1.symm.trans ho
    subst hxo
    obtain ⟨before, hret⟩ := h.retained x t sn htx hsn
    exact hret.reader h.writer hx
  | taken calls htakes => exact taken_reader h.writer h.stored (TransactionManager.later_run calls _) htakes

theorem along_onEmpty : ∀ (calls : List WriterCall) {s : WriterState},
    (∀ c ∈ calls, (∀ md d, c ≠ .createIndex md d) ∧ ∀ horizon, c ≠ .vacuum horizon) → Along onEmpty s calls
  | [], _, _ => trivial
  | c :: calls, s, hc => by
    obtain ⟨hcreate, hvacuum⟩ := hc c List.mem_cons_self
    refine ⟨?_, along_onEmpty calls (fun d hd => hc d (List.mem_cons_of_mem _ hd))⟩
    cases c with
    | createIndex md d => exact absurd rfl (hcreate md d)
    | vacuum horizon => exact absurd rfl (hvacuum horizon)
    | manager | insert | write | turn => exact trivial

/-- A row of an indexed table, of key 5, after a heap-only update and two updates to `value`. -/
def updatedRow (value : Int) : List WriterCall :=
  .createIndex ⟨1, ['i'], [0], false⟩ [.int64] :: (committedRow ++ [.manager (.begin .readCommitted)] ++
    rowUpdate 3 ⟨0, 0⟩ (.of 4 []) 5 ++ [.manager (.commit 3), .manager (.begin .readCommitted)] ++
    rowUpdate 4 ⟨0, 1⟩ (.of 5 []) value ++ [.manager (.commit 4), .manager (.begin .readCommitted)] ++
    rowUpdate 5 ⟨0, 2⟩ (.of 6 []) value ++ [.manager (.commit 5)])

/-- The four versions of that row. -/
def updatedChain (value : Int) : List (TID × TupleVersion) :=
  [(⟨0, 0⟩, ⟨2, 3, some ⟨0, 1⟩, [.int 5]⟩), (⟨0, 1⟩, ⟨3, 4, some ⟨0, 2⟩, [.int 5]⟩),
    (⟨0, 2⟩, ⟨4, 5, some ⟨0, 3⟩, [.int value]⟩), (⟨0, 3⟩, ⟨5, 0, none, [.int value]⟩)]

theorem updatedRow_onEmpty (value : Int) : Along onEmpty (start .new HeapState.oneColumn) (updatedRow value) := by
  refine ⟨rfl, along_onEmpty _ ?_⟩
  simp [committedRow, rowUpdate]

end WriterState

end MiniPostgres
