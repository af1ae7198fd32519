import MiniPostgres.Vacuum
/-!
# VacuumSpec — what the loops of a vacuum do to the stored versions

`prunedLook` is the pruning of one chain as updates of the version map, member by member; `pruneLoop_eq_ok` says the loop
computes it on the chain it was given.  `sweepStep_cases` is the same for one item of the second loop.
-/
namespace MiniPostgres

namespace HeapTable

/-! ## One chain -/

theorem versionChainLoop_eq_ok {t : HeapTable} {page : Nat} : ∀ (n : Nat) (visited : List TID) (current : Option TID)
    {l : List (TID × TupleVersion)}, t.versionChainLoop page n visited current = .ok l →
      Linked.Complete t.physicalVersion TupleVersion.nextTid current l ∧ ∀ p ∈ l, p.1.pageId = page
  | n, visited, none, l, h => by
    cases n <;> · cases h; exact ⟨.nil, by simp⟩
  | 0, _, some _, _, h => absurd h raise_ne_ok
  | n + 1, visited, some current, l, h => by
    unfold versionChainLoop at h
    split at h
    · exact absurd h raise_ne_ok
    · split at h
      · exact absurd h raise_ne_ok
      · rename_i hpage
        split at h
        · exact absurd h raise_ne_ok
        · rename_i version hv
          obtain ⟨rest, hrest, he⟩ := bind_eq_ok.1 h
          cases he
          obtain ⟨hc, hp⟩ := versionChainLoop_eq_ok n _ _ hrest
          refine ⟨.cons current version rest hv hc, fun p hmem => ?_⟩
          rcases List.mem_cons.1 hmem with rfl | hmem
          · exact not_not.1 hpage
          · exact hp p hmem

theorem versionChain_eq_ok {t : HeapTable} {root : TID} {l : List (TID × TupleVersion)}
    (h : t.versionChain root = .ok l) :
    Linked.Complete t.physicalVersion TupleVersion.nextTid (some root) l ∧ ∀ p ∈ l, p.1.pageId = root.pageId :=
  versionChainLoop_eq_ok _ _ _ h

theorem versionChainLoop_ok {t : HeapTable} {page : Nat} {s : Option TID} {l : List (TID × TupleVersion)}
    (h : Linked.Complete t.physicalVersion TupleVersion.nextTid s l) :
    ∀ (n : Nat) (visited : List TID), (∀ p ∈ l, p.1.pageId = page) → (l.map Prod.fst).Nodup →
      (∀ c ∈ visited, c ∉ l.map Prod.fst) → l.length < n → t.versionChainLoop page n visited s = .ok l := by
  induction h with
  | nil => intro n visited _ _ _ _; cases n <;> rfl
  | cons a v l hv _ ih =>
    intro n visited hp hnd hvis hn
    obtain ⟨n, rfl⟩ : ∃ k, n = k + 1 := ⟨n - 1, by simp at hn; omega⟩
    rw [List.map_cons, List.nodup_cons] at hnd
    have hna : a ∉ visited := fun hm => hvis a hm (by simp)
    have hpa : ¬ a.pageId ≠ page := not_not.2 (hp (a, v) List.mem_cons_self)
    have hrest := ih n (a :: visited) (fun p hm => hp p (List.mem_cons_of_mem _ hm)) hnd.2
      (fun c hc => by
        rcases List.mem_cons.1 hc with rfl | hc
        · exact hnd.1
        · exact fun hm => hvis c hc (by rw [List.map_cons]; exact List.mem_cons_of_mem _ hm))
      (by simp at hn; omega)
    simp only [versionChainLoop, if_neg hna, if_neg hpa, hv, hrest]
    rfl

/-- The version map after the members of `l` in `removable` are unlinked, `p` being the member before them. -/
def prunedLook (removable : List TID) : Versions → TID → TupleVersion → List (TID × TupleVersion) → Versions
  | look, _, _, [] => look
  | look, p, pv, (c, v) :: l =>
    if c ∈ removable then
      prunedLook removable (Function.update (Function.update look p (some { pv with nextTid := v.nextTid })) c none) p
        { pv with nextTid := v.nextTid } l
    else prunedLook removable look c v l

theorem pruneLoop_eq_ok {removable : List TID} : ∀ (l : List (TID × TupleVersion)) (n : Nat) {t t' : HeapTable} {p : TID}
    {pv : TupleVersion} {cur : Option TID} {counters r : Nat × Nat},
    Linked.Complete t.physicalVersion TupleVersion.nextTid cur l → (p :: l.map Prod.fst).Nodup →
      pruneLoop removable n t p pv cur counters = .ok (t', r) →
      t'.physicalVersion = prunedLook removable t.physicalVersion p pv l ∧ t'.schema = t.schema
  | [], n, t, t', p, pv, cur, counters, r, hc, _, h => by
    cases hc
    cases n <;> · cases h; exact ⟨rfl, rfl⟩
  | (c, v) :: l, n, t, t', p, pv, cur, counters, r, hc, hnd, h => by
    cases hc with
    | cons _ _ _ hv ht =>
      cases n with
      | zero => exact absurd h raise_ne_ok
      | succ n =>
        rw [List.map_cons, List.nodup_cons, List.nodup_cons, List.mem_cons, not_or] at hnd
        obtain ⟨⟨hpc, hpl⟩, hcl, hnl⟩ := hnd
        obtain ⟨removed, reclaimed⟩ := counters
        simp only [pruneLoop, hv] at h
        simp only [prunedLook]
        split at h
        · rename_i hrem
          obtain ⟨t₁, hset, h⟩ := bind_eq_ok.1 h
          obtain ⟨hrew, -⟩ := setVersion_eq_ok hset
          obtain ⟨hlook, hschema⟩ := reclaimVersion_versions t₁ c
          rw [if_pos hrem]
          have hlook' : (t₁.reclaimVersion c).1.physicalVersion =
              Function.update (Function.update t.physicalVersion p (some { pv with nextTid := v.nextTid })) c none := by
            rw [hlook, hrew.versions]
          -- the members after `c` are as they were
          have hrest : Linked.Complete (t₁.reclaimVersion c).1.physicalVersion TupleVersion.nextTid v.nextTid l := by
            refine ht.transfer (fun q hq => ?_)
            have hqc : q.1 ≠ c := fun he => hcl (he ▸ List.mem_map.2 ⟨q, hq, rfl⟩)
            have hqp : q.1 ≠ p := fun he => hpl (he ▸ List.mem_map.2 ⟨q, hq, rfl⟩)
            rw [hlook', Function.update_of_ne hqc, Function.update_of_ne hqp]
            exact ht.path.look_of_mem hq
          obtain ⟨h1, h2⟩ := pruneLoop_eq_ok l n hrest (List.nodup_cons.2 ⟨hpl, hnl⟩) h
          exact ⟨by rw [h1, hlook'], by rw [h2, hschema, hrew.schema]⟩
        · rename_i hrem
          rw [if_neg hrem]
          exact pruneLoop_eq_ok l n ht (List.nodup_cons.2 ⟨hcl, hnl⟩) h

theorem prunedLook_none {removable : List TID} : ∀ (l : List (TID × TupleVersion)) (look : Versions) (p : TID)
    (pv : TupleVersion) {a : TID}, prunedLook removable look p pv l a = none → look a ≠ none → a ∈ removable
  | [], _, _, _, _, h, hne => absurd h hne
  | (c, v) :: l, look, p, pv, a, h, hne => by
    simp only [prunedLook] at h
    split at h
    · rename_i hc
      by_cases hac : a = c
      · rw [hac]; exact hc
      · refine prunedLook_none l _ p _ h ?_
        rw [Function.update_of_ne hac]
        by_cases hap : a = p
        · rw [hap, Function.update_self]; simp
        · rw [Function.update_of_ne hap]; exact hne
    · exact prunedLook_none l look c v h hne

/-- Pruning reads the chain only. -/
theorem prunedLook_congr {removable : List TID} : ∀ (l : List (TID × TupleVersion)) (look look' : Versions) (p : TID)
    (pv : TupleVersion) {a : TID}, look a = look' a → prunedLook removable look p pv l a = prunedLook removable look' p pv l a
  | [], _, _, _, _, _, h => h
  | (c, v) :: l, look, look', p, pv, a, h => by
    simp only [prunedLook]
    split
    · refine prunedLook_congr l _ _ p _ ?_
      by_cases hac : a = c
      · rw [hac, Function.update_self, Function.update_self]
      · rw [Function.update_of_ne hac, Function.update_of_ne hac]
        by_cases hap : a = p
        · rw [hap, Function.update_self, Function.update_self]
        · rw [Function.update_of_ne hap, Function.update_of_ne hap]; exact h
    · exact prunedLook_congr l look look' c v h

theorem prunedLook_other {removable : List TID} : ∀ (l : List (TID × TupleVersion)) (look : Versions) (p : TID)
    (pv : TupleVersion) {a : TID}, a ≠ p → a ∉ l.map Prod.fst → prunedLook removable look p pv l a = look a
  | [], _, _, _, _, _, _ => rfl
  | (c, v) :: l, look, p, pv, a, hap, hal => by
    rw [List.map_cons, List.mem_cons, not_or] at hal
    simp only [prunedLook]
    split
    · rw [prunedLook_other l _ p _ hap hal.2, Function.update_of_ne hal.1, Function.update_of_ne hap]
    · exact prunedLook_other l look c v hal.1 hal.2

end HeapTable

/-! ## Pruning keeps the mirror -/

/-- The creator, the deleter and the values of a version. -/
def SameBody (v v' : TupleVersion) : Prop := v'.xmin = v.xmin ∧ v'.xmax = v.xmax ∧ v'.values = v.values

theorem Carries.sameBody {log : Log} {i : Nat} {v v' : TupleVersion} (h : Carries log i v) (h' : Carries log i v') :
    SameBody v v' := by
  obtain ⟨w, hw, hx, hval⟩ := h.made
  obtain ⟨w', hw', hx', hval'⟩ := h'.made
  rw [hw] at hw'
  cases hw'
  refine ⟨hx'.symm.trans hx, ?_, Option.some.inj (hval'.symm.trans hval)⟩
  by_cases h0 : v.xmax = 0
  · by_contra hne
    obtain ⟨j, u, hl, -⟩ := h'.deleted (fun h0' => hne (h0'.trans h0.symm))
    exact h.kept h0 j u hl.get hl.target
  · obtain ⟨j, u, hl, hu⟩ := h.deleted h0
    have h0' : v'.xmax ≠ 0 := fun h0' => h'.kept h0' j u hl.get hl.target
    obtain ⟨j', u', hl', hu'⟩ := h'.deleted h0'
    obtain ⟨-, rfl⟩ := hl.unique hl'
    exact hu'.symm.trans hu

theorem Mirror.prune {loose : TupleVersion → Prop} {log : Log} {origin : TID → Nat} (hwf : History.WF log)
    (hbody : ∀ v v', SameBody v v' → loose v → loose v') {removable : List TID} :
    ∀ (l : List (TID × TupleVersion)) (look : Versions) (p : TID) (pv : TupleVersion),
      Mirror loose look log origin → look p = some pv → Linked.Complete look TupleVersion.nextTid pv.nextTid l →
      (p :: l.map Prod.fst).Nodup →
      -- every member before a removed one is loose, and a removed one is not the last
      (∀ q ∈ l, q.1 ∈ removable → q.2.nextTid ≠ none) →
      (∀ c, pv.nextTid = some c → c ∈ removable → loose pv) →
      (∀ q ∈ l, ∀ c, q.2.nextTid = some c → c ∈ removable → loose q.2) →
      Mirror loose (HeapTable.prunedLook removable look p pv l) log origin
  | [], _, _, _, hm, _, _, _, _, _, _ => hm
  | (c, v) :: l, look, p, pv, hm, hp, hc, hnd, hlast, hpl, hql => by
    cases hn : pv.nextTid with
    | none => rw [hn] at hc; cases hc
    | some c' =>
      rw [hn] at hc
      cases hc with
      | cons _ _ _ hv ht =>
        rw [List.map_cons, List.nodup_cons, List.nodup_cons, List.mem_cons, not_or] at hnd
        obtain ⟨⟨hpc, hpl'⟩, hcl, hnl⟩ := hnd
        simp only [HeapTable.prunedLook]
        split
        · rename_i hrem
          obtain ⟨d, hd⟩ := Option.ne_none_iff_exists'.1 (hlast (c, v) List.mem_cons_self hrem)
          simp only at hd
          have hloose : loose { pv with nextTid := some d } := hbody pv _ ⟨rfl, rfl, rfl⟩ (hpl c hn hrem)
          have hdc : d ≠ c := by
            rintro rfl
            have := (hm.named d v d hv hd).2.lt hwf
            omega
          rw [hd]
          refine Mirror.prune hwf hbody l _ p _
            (hm.unlink hp hn hv hd hdc hloose (fun a w ha hna => hm.unshared hwf a w p pv c ha hp hna hn)) ?_ ?_
            (List.nodup_cons.2 ⟨hpl', hnl⟩) (fun q hq => hlast q (List.mem_cons_of_mem _ hq)) (fun _ _ _ => hloose)
            (fun q hq => hql q (List.mem_cons_of_mem _ hq))
          · rw [Function.update_of_ne hpc, Function.update_self]
          · simp only
            rw [hd] at ht
            refine ht.transfer (fun q hq => ?_)
            have hqc : q.1 ≠ c := fun he => hcl (he ▸ List.mem_map.2 ⟨q, hq, rfl⟩)
            have hqp : q.1 ≠ p := fun he => hpl' (he ▸ List.mem_map.2 ⟨q, hq, rfl⟩)
            rw [Function.update_of_ne hqc, Function.update_of_ne hqp]
            exact ht.path.look_of_mem hq
        · exact Mirror.prune hwf hbody l look c v hm hv ht (List.nodup_cons.2 ⟨hcl, hnl⟩)
            (fun q hq => hlast q (List.mem_cons_of_mem _ hq)) (hql (c, v) List.mem_cons_self)
            (fun q hq => hql q (List.mem_cons_of_mem _ hq))

/-! ## The first loop -/

/-- A version scanned at the start whose chain the first loop prunes. -/
def Selected (t : IndexedTable) (root : TID) : Prop :=
  ∃ v, t.heap.physicalVersion root = some v ∧
    selects t.indexes t.heap.continuations t.heap root v = .ok true

/-- A version on a chain that the first loop prunes. -/
def OnPruned (t : IndexedTable) (a : TID) : Prop :=
  ∃ r, Selected t r ∧ Linked.Reach t.heap.physicalVersion TupleVersion.nextTid r a

theorem selects_eq_true {indexes : List IndexBinding} {conts : List TID} {heap : HeapTable} {r : TID}
    {v : TupleVersion} (h : selects indexes conts heap r v = .ok true) :
    r ∉ conts ∧ ∃ next, v.nextTid = some next := by
  unfold selects at h
  split at h
  · cases h
  · rename_i next hn
    split at h
    · cases h
    · rename_i hr
      exact ⟨hr, next, hn⟩

/-- The choice reads the heap only at the next version. -/
theorem selects_congr {indexes : List IndexBinding} {conts : List TID} {heap heap' : HeapTable} {r : TID}
    {v : TupleVersion} (h : r ∉ conts → ∀ next, v.nextTid = some next → heap'.physicalVersion next = heap.physicalVersion next) :
    selects indexes conts heap' r v = selects indexes conts heap r v := by
  unfold selects
  split
  · rfl
  · rename_i next hn
    split
    · rfl
    · rename_i hr
      rw [h hr next hn]

theorem mem_removableOf {chain : List (TID × TupleVersion)} {horizon : Nat} {st : StatusTable} {c : TID}
    (h : c ∈ removableOf chain horizon st) :
    (chain.getLast?).map Prod.fst ≠ some c ∧
      ∃ w, (c, w) ∈ chain.tail ∧ classifyVersion w horizon st = .dead := by
  simp only [removableOf, List.mem_filter, List.mem_map, decide_eq_true_eq] at h
  obtain ⟨⟨⟨c', w⟩, ⟨hm, hd⟩, rfl⟩, hne⟩ := h
  exact ⟨fun he => hne he.symm, w, hm, hd⟩

/-- **A vacuum whose reclamations leave no link behind.**  For a version `w` that is dead and is the next version of `v`:
`w` is the newest member of a pruned chain, or an inner member and `v` is retired; or, outside the pruned chains, `w` is held
back, or `v` goes with it — `v` is dead, and in an indexed table it is met before `w` and `w` is in every index. -/
def VacuumSafe (t : IndexedTable) (horizon : Nat) (st : StatusTable) : Prop :=
  ∀ a v c w, t.heap.physicalVersion a = some v → v.nextTid = some c → t.heap.physicalVersion c = some w →
    classifyVersion w horizon st = .dead →
      (OnPruned t c ∧ (w.nextTid = none ∨ Retired st v)) ∨
      (¬ OnPruned t c ∧ (heldBack t.heap t.indexes w = .ok true ∨
        (classifyVersion v horizon st = .dead ∧
          (t.indexes = [] ∨ (a.before c ∧ indexedByAll c w.values t.indexes = .ok true)))))

/-- **What the first loop has done so far**: `done` are the roots it has met.  The pruned chains lie on one page each, their
members are those of `prunedLook`, and every other slot is as it was. -/
structure PruneShape (t : IndexedTable) (horizon : Nat) (st : StatusTable) (done : TID → Prop) (p : Pruning) : Prop where
  same    : ∀ a, a ∉ p.processed → p.heap.physicalVersion a = t.heap.physicalVersion a
  chosen  : ∀ a ∈ p.processed, ∃ r, Selected t r ∧ done r ∧ Linked.Reach t.heap.physicalVersion TupleVersion.nextTid r a
  met     : ∀ r, Selected t r → done r → r ∈ p.processed
  closed  : ∀ a c, Linked.Link t.heap.physicalVersion TupleVersion.nextTid a c → (a ∈ p.processed ↔ c ∈ p.processed)
  inner   : ∀ a v c, a ∈ p.processed → p.heap.physicalVersion a = some v → v.nextTid = some c → c ∈ p.processed
  members : ∀ r vr l, Selected t r → done r → t.heap.physicalVersion r = some vr →
    Linked.Complete t.heap.physicalVersion TupleVersion.nextTid vr.nextTid l → ∀ a, a = r ∨ a ∈ l.map Prod.fst →
      p.heap.physicalVersion a =
        HeapTable.prunedLook (removableOf ((r, vr) :: l) horizon st) t.heap.physicalVersion r vr l a
  page    : ∀ a c, Linked.Link t.heap.physicalVersion TupleVersion.nextTid a c → c ∈ p.processed → c.pageId = a.pageId

theorem HeapTable.prunedLook_next {removable : List TID} : ∀ (l : List (TID × TupleVersion)) (look : Versions) (p : TID)
    (pv : TupleVersion), look p = some pv → Linked.Complete look TupleVersion.nextTid pv.nextTid l →
      (p :: l.map Prod.fst).Nodup → ∀ a v c, a = p ∨ a ∈ l.map Prod.fst →
        HeapTable.prunedLook removable look p pv l a = some v → v.nextTid = some c → c ∈ l.map Prod.fst
  | [], look, p, pv, hp, hc, _, a, v, c, ha, hv, hn => by
    rcases ha with rfl | ha
    · simp only [HeapTable.prunedLook, hp] at hv
      cases hv
      rw [hn] at hc
      cases hc
    · cases ha
  | (d, dv) :: l, look, p, pv, hp, hc, hnd, a, v, c, ha, hv, hn => by
    cases hpn : pv.nextTid with
    | none => rw [hpn] at hc; cases hc
    | some d' =>
      rw [hpn] at hc
      cases hc with
      | cons _ _ _ hd ht =>
        rw [List.map_cons, List.nodup_cons, List.nodup_cons, List.mem_cons, not_or] at hnd
        obtain ⟨⟨hpd, hpl⟩, hdl, hnl⟩ := hnd
        rw [List.map_cons, List.mem_cons]
        simp only [HeapTable.prunedLook] at hv
        split at hv
        · by_cases had : a = d
          · -- the removed member
            subst had
            rw [HeapTable.prunedLook_other l _ p _ (fun he => hpd he.symm) hdl, Function.update_self] at hv
            cases hv
          · have hrest : Linked.Complete
                (Function.update (Function.update look p (some { pv with nextTid := dv.nextTid })) d none)
                TupleVersion.nextTid dv.nextTid l := by
              refine ht.transfer (fun q hq => ?_)
              have hqd : q.1 ≠ d := fun he => hdl (he ▸ List.mem_map.2 ⟨q, hq, rfl⟩)
              have hqp : q.1 ≠ p := fun he => hpl (he ▸ List.mem_map.2 ⟨q, hq, rfl⟩)
              rw [Function.update_of_ne hqd, Function.update_of_ne hqp]
              exact ht.path.look_of_mem hq
            refine Or.inr (prunedLook_next l _ p { pv with nextTid := dv.nextTid } ?_ hrest
              (List.nodup_cons.2 ⟨hpl, hnl⟩) a v c ?_ hv hn)
            · rw [Function.update_of_ne hpd, Function.update_self]
            · rcases ha with rfl | ha
              · exact Or.inl rfl
              · rw [List.map_cons, List.mem_cons] at ha
                exact Or.inr (ha.resolve_left had)
        · by_cases hap : a = p
          · subst hap
            rw [HeapTable.prunedLook_other l look d dv hpd hpl, hp] at hv
            cases hv
            rw [hpn] at hn
            cases hn
            exact Or.inl rfl
          · refine Or.inr (prunedLook_next l look d dv hd ht (List.nodup_cons.2 ⟨hdl, hnl⟩) a v c ?_ hv hn)
            rcases ha with rfl | ha
            · exact absurd rfl hap
            · rw [List.map_cons, List.mem_cons] at ha
              exact ha

section FirstLoop

variable {t : IndexedTable} {log : Log} {origin : TID → Nat} {horizon : Nat} {st : StatusTable}

theorem Selected.not_continuation {r : TID} (h : Selected t r) : r ∉ t.heap.continuations := by
  obtain ⟨v, -, hs⟩ := h
  exact (selects_eq_true hs).1

/-- A version that nothing names is on a pruned chain only as its root. -/
theorem PruneShape.not_processed {done : TID → Prop} {p : Pruning} (hp : PruneShape t horizon st done p) {r : TID}
    (hrc : r ∉ t.heap.continuations) (hnd : ¬ done r) : r ∉ p.processed := by
  intro hmem
  obtain ⟨r', -, hdone, hreach⟩ := hp.chosen r hmem
  rcases Relation.ReflTransGen.cases_tail hreach with he | ⟨x, -, y, hy, hn, -⟩
  · exact hnd (he ▸ hdone)
  · exact hrc (HeapTable.mem_continuations.2 ⟨x, y, hy, hn⟩)

/-- **One scanned version of the first loop**: its chain is left alone, or it is untouched so far and pruned. -/
theorem pruneStep_cases (h0 : Mirror (Retired st) t.heap.physicalVersion log origin) (hwf : History.WF log)
    {done : TID → Prop} {p p' : Pruning} {r : TID} {vr : TupleVersion} (hr : t.heap.physicalVersion r = some vr)
    (hnd : ¬ done r) (hp : PruneShape t horizon st done p)
    (h : pruneStep t.indexes t.heap.continuations horizon st p (r, vr) = .ok p') :
    (¬ Selected t r ∧ p' = p) ∨
    (Selected t r ∧ ∃ l, Linked.Complete t.heap.physicalVersion TupleVersion.nextTid (some r) ((r, vr) :: l) ∧
      (∀ q ∈ (r, vr) :: l, q.1 ∉ p.processed) ∧ (∀ q ∈ (r, vr) :: l, q.1.pageId = r.pageId) ∧
      (r :: l.map Prod.fst).Nodup ∧ p'.processed = ((r, vr) :: l).map Prod.fst ++ p.processed ∧
      p'.heap.physicalVersion =
        HeapTable.prunedLook (removableOf ((r, vr) :: l) horizon st) p.heap.physicalVersion r vr l) := by
  obtain ⟨sel, hsel, h⟩ := bind_eq_ok.1 h
  have hsame : selects t.indexes t.heap.continuations t.heap r vr = .ok sel := by
    rw [← hsel]
    refine (selects_congr (fun hrc next hn => hp.same next (fun hmem => ?_))).symm
    have hlink : Linked.Link t.heap.physicalVersion TupleVersion.nextTid r next := ⟨vr, hr, hn, (h0.named r vr next hr hn).1⟩
    exact hp.not_processed hrc hnd ((hp.closed r next hlink).2 hmem)
  cases sel with
  | false =>
    cases h
    refine Or.inl ⟨?_, rfl⟩
    rintro ⟨v, hv, hs⟩
    rw [hr] at hv
    cases hv
    rw [hs] at hsame
    cases hsame
  | true =>
    obtain ⟨chain, hchain, h⟩ := bind_eq_ok.1 h
    obtain ⟨⟨heap, n, bytes⟩, hprune, he⟩ := bind_eq_ok.1 h
    cases he
    have hselr : Selected t r := ⟨vr, hr, hsame⟩
    have hrp := hp.not_processed hselr.not_continuation hnd
    obtain ⟨hcomp, hpage⟩ := HeapTable.versionChain_eq_ok hchain
    -- the chain is untouched so far, so it is a chain of the table at the start
    have hpr : p.heap.physicalVersion r = some vr := by rw [hp.same r hrp, hr]
    have hout : ∀ q ∈ chain, q.1 ∉ p.processed := by
      refine hcomp.path.forall_mem (P := fun a _ => a ∉ p.processed) (fun a b ha _ => by cases ha; exact hrp) ?_
      intro a b c d hab hna hbn hcd hmem
      rw [hp.same a hna] at hab
      exact hna ((hp.closed a c ⟨b, hab, hbn, (h0.named a b c hab hbn).1⟩).2 hmem)
    have hcomp0 : Linked.Complete t.heap.physicalVersion TupleVersion.nextTid (some r) chain :=
      hcomp.transfer (fun q hq => by rw [← hp.same q.1 (hout q hq)]; exact hcomp.path.look_of_mem hq)
    have hnodup := hcomp0.path.nodup (h0.ranked hwf)
    cases hcomp with
    | cons _ vr' l hvr' hl =>
      rw [hpr] at hvr'
      cases hvr'
      refine Or.inr ⟨hselr, l, hcomp0, hout, hpage, hnodup, rfl, ?_⟩
      simp only [HeapTable.pruneChain, hpr] at hprune
      exact (HeapTable.pruneLoop_eq_ok l _ hl hnodup hprune).1

theorem chain_closed (h0 : Mirror (Retired st) t.heap.physicalVersion log origin) (hwf : History.WF log) {r : TID}
    {chain : List (TID × TupleVersion)} (hrc : r ∉ t.heap.continuations)
    (hchain : Linked.Complete t.heap.physicalVersion TupleVersion.nextTid (some r) chain) {a c : TID}
    (hlink : Linked.Link t.heap.physicalVersion TupleVersion.nextTid a c) :
    a ∈ chain.map Prod.fst ↔ c ∈ chain.map Prod.fst := by
  obtain ⟨v, hv, hac, hcl⟩ := hlink
  obtain ⟨w, hw⟩ := Option.ne_none_iff_exists'.1 hcl
  constructor
  · intro ha
    obtain ⟨q, hq, rfl⟩ := List.mem_map.1 ha
    have hqv := hchain.path.look_of_mem hq
    rw [hv] at hqv
    cases hqv
    exact List.mem_map.2 ⟨(c, w), hchain.path.mem_of_look hq hac hw, rfl⟩
  · intro hc
    obtain ⟨q, hq, rfl⟩ := List.mem_map.1 hc
    rcases hchain.path.mem_cases hq with hr' | ⟨q', hq', hn'⟩
    · cases hr'
      exact absurd (HeapTable.mem_continuations.2 ⟨a, v, hv, hac⟩) hrc
    · have := h0.unshared hwf a v q'.1 q'.2 q.1 hv (hchain.path.look_of_mem hq') hac hn'
      exact List.mem_map.2 ⟨q', hq', this.symm⟩

theorem pruneStep_shape (h0 : Mirror (Retired st) t.heap.physicalVersion log origin) (hwf : History.WF log)
    {done : TID → Prop} {p p' : Pruning} {r : TID} {vr : TupleVersion} (hr : t.heap.physicalVersion r = some vr)
    (hnd : ¬ done r) (hp : PruneShape t horizon st done p)
    (h : pruneStep t.indexes t.heap.continuations horizon st p (r, vr) = .ok p') :
    PruneShape t horizon st (fun x => done x ∨ x = r) p' := by
  have hchosen : ∀ a ∈ p.processed, ∃ r', Selected t r' ∧ (done r' ∨ r' = r) ∧
      Linked.Reach t.heap.physicalVersion TupleVersion.nextTid r' a := fun a ha => by
    obtain ⟨r', h1, h2, h3⟩ := hp.chosen a ha
    exact ⟨r', h1, Or.inl h2, h3⟩
  rcases pruneStep_cases h0 hwf hr hnd hp h with ⟨hns, rfl⟩ | ⟨hselr, l, hcomp, hout, hpage, hnodup, hproc, hlook⟩
  · refine ⟨hp.same, hchosen, fun x hx hdone => ?_, hp.closed, hp.inner, fun x vx l hx hdone => ?_, hp.page⟩
    · exact hp.met x hx (hdone.resolve_right (fun he => hns (he ▸ hx)))
    · exact hp.members x vx l hx (hdone.resolve_right (fun he => hns (he ▸ hx)))
  · have hrc := hselr.not_continuation
    have hpr : p.heap.physicalVersion r = some vr := by rw [hp.same r (hout (r, vr) List.mem_cons_self), hr]
    have htail : Linked.Complete t.heap.physicalVersion TupleVersion.nextTid vr.nextTid l := by
      cases hcomp with
      | cons _ _ _ _ ht => exact ht
    have hl : Linked.Complete p.heap.physicalVersion TupleVersion.nextTid vr.nextTid l :=
      htail.transfer (fun q hq => by
        rw [hp.same q.1 (hout q (List.mem_cons_of_mem _ hq))]
        exact htail.path.look_of_mem hq)
    have hmem : ∀ a, a ∈ p'.processed ↔ (a = r ∨ a ∈ l.map Prod.fst) ∨ a ∈ p.processed := by
      intro a
      rw [hproc, List.mem_append, List.map_cons, List.mem_cons]
    have hfresh : ∀ a, a ∈ p.processed → a ≠ r ∧ a ∉ l.map Prod.fst := fun a ha => by
      refine ⟨fun he => hout (r, vr) List.mem_cons_self (he ▸ ha), fun hm => ?_⟩
      obtain ⟨q, hq, rfl⟩ := List.mem_map.1 hm
      exact hout q (List.mem_cons_of_mem _ hq) ha
    refine ⟨fun a ha => ?_, fun a ha => ?_, fun x hx hdone => ?_, fun a c hlink => ?_, fun a v c ha hv hac => ?_,
      fun x vx l' hx hdone hvx hl' a ha => ?_, fun a c hlink hc => ?_⟩
    · rw [hmem, not_or, not_or] at ha
      rw [hlook, HeapTable.prunedLook_other l _ r vr ha.1.1 ha.1.2]
      exact hp.same a ha.2
    · rcases (hmem a).1 ha with ha | ha
      · have hq : ∃ q ∈ (r, vr) :: l, q.1 = a := by
          rw [← List.mem_map, List.map_cons, List.mem_cons]
          exact ha
        obtain ⟨q, hq, rfl⟩ := hq
        exact ⟨r, hselr, Or.inr rfl, hcomp.path.reach_of_mem hq⟩
      · exact hchosen a ha
    · rw [hmem]
      rcases hdone with hd | rfl
      · exact Or.inr (hp.met x hx hd)
      · exact Or.inl (Or.inl rfl)
    · rw [hproc, List.mem_append, List.mem_append, chain_closed h0 hwf hrc hcomp hlink, hp.closed a c hlink]
    · rw [hmem] at ha ⊢
      by_cases hal : a = r ∨ a ∈ l.map Prod.fst
      · rw [hlook] at hv
        exact Or.inl (Or.inr (HeapTable.prunedLook_next l _ r vr hpr hl hnodup a v c hal hv hac))
      · rw [not_or] at hal
        rw [hlook, HeapTable.prunedLook_other l _ r vr hal.1 hal.2] at hv
        exact Or.inr (hp.inner a v c (ha.resolve_left (by rw [not_or]; exact hal)) hv hac)
    · by_cases hxr : x = r
      · subst hxr
        rw [hr] at hvx
        cases hvx
        obtain rfl : l' = l := hl'.path.unique htail.path
        rw [hlook]
        refine HeapTable.prunedLook_congr l' _ _ x vr ?_
        refine hp.same a (fun hm => ?_)
        rcases ha with rfl | ha
        · exact (hfresh a hm).1 rfl
        · exact (hfresh a hm).2 ha
      · -- a chain pruned before is not met again
        have hd := hdone.resolve_right hxr
        have hap : a ∈ p.processed := by
          have hreach : Linked.Reach t.heap.physicalVersion TupleVersion.nextTid x a := by
            have hc : Linked.Complete t.heap.physicalVersion TupleVersion.nextTid (some x) ((x, vx) :: l') :=
              .cons x vx l' hvx hl'
            have hq : ∃ q ∈ (x, vx) :: l', q.1 = a := by
              rw [← List.mem_map, List.map_cons, List.mem_cons]
              exact ha
            obtain ⟨q, hq, rfl⟩ := hq
            exact hc.path.reach_of_mem hq
          have hxp := hp.met x hx hd
          clear ha
          induction hreach with
          | refl => exact hxp
          | tail _ hlink ih => exact (hp.closed _ _ hlink).1 ih
        rw [hlook, HeapTable.prunedLook_other l _ r vr (hfresh a hap).1 (hfresh a hap).2]
        exact hp.members x vx l' hx hd hvx hl' a ha
    · by_cases hcp : c ∈ p.processed
      · exact hp.page a c hlink hcp
      · have hcl : c ∈ ((r, vr) :: l).map Prod.fst := by
          rw [hproc, List.mem_append] at hc
          exact hc.resolve_right hcp
        have hal := (chain_closed h0 hwf hrc hcomp hlink).2 hcl
        obtain ⟨q, hq, rfl⟩ := List.mem_map.1 hcl
        obtain ⟨q', hq', rfl⟩ := List.mem_map.1 hal
        rw [hpage q hq, hpage q' hq']

/-- A property of the first loop's state that holds at the start and that each scanned version keeps, with the shape. -/
theorem pruneSteps_shape (h0 : Mirror (Retired st) t.heap.physicalVersion log origin) (hwf : History.WF log)
    {P : Pruning → Prop}
    (hstep : ∀ {done : TID → Prop} {p p' : Pruning} {r : TID} {vr : TupleVersion}, t.heap.physicalVersion r = some vr →
      ¬ done r → PruneShape t horizon st done p → P p →
      pruneStep t.indexes t.heap.continuations horizon st p (r, vr) = .ok p' → P p') :
    ∀ (items : List (TID × TupleVersion)) {done : TID → Prop} {p p' : Pruning},
      (∀ q ∈ items, t.heap.physicalVersion q.1 = some q.2 ∧ ¬ done q.1) → (items.map Prod.fst).Nodup →
      PruneShape t horizon st done p → P p →
      items.foldlM (pruneStep t.indexes t.heap.continuations horizon st) p = .ok p' →
      PruneShape t horizon st (fun x => done x ∨ x ∈ items.map Prod.fst) p' ∧ P p'
  | [], done, p, p', _, _, hp, hP, h => by
    cases h
    exact ⟨by simpa using hp, hP⟩
  | (r, vr) :: items, done, p, p', hitems, hnd, hp, hP, h => by
    rw [List.foldlM_cons] at h
    obtain ⟨p₁, h₁, h₂⟩ := bind_eq_ok.1 h
    rw [List.map_cons, List.nodup_cons] at hnd
    obtain ⟨hvr, hdr⟩ := hitems (r, vr) List.mem_cons_self
    have hrest := pruneSteps_shape h0 hwf hstep items (fun q hq => ⟨(hitems q (List.mem_cons_of_mem _ hq)).1, ?_⟩) hnd.2
      (pruneStep_shape h0 hwf hvr hdr hp h₁) (hstep hvr hdr hp hP h₁) h₂
    · have heq : (fun x => (done x ∨ x = r) ∨ x ∈ items.map Prod.fst) = fun x => done x ∨
          x ∈ ((r, vr) :: items).map Prod.fst := by
        funext x; simp [or_assoc]
      rw [heq] at hrest
      exact hrest
    · rintro (hd | he)
      · exact (hitems q (List.mem_cons_of_mem _ hq)).2 hd
      · exact hnd.1 (he ▸ List.mem_map.2 ⟨q, hq, rfl⟩)

/-- **The first loop of a vacuum, from the start.** -/
theorem pruned_shape (h0 : Mirror (Retired st) t.heap.physicalVersion log origin) (hwf : History.WF log) {p : Pruning}
    {P : Pruning → Prop} (hstart : P ⟨t.heap, [], 0, 0⟩)
    (hstep : ∀ {done : TID → Prop} {p p' : Pruning} {r : TID} {vr : TupleVersion}, t.heap.physicalVersion r = some vr →
      ¬ done r → PruneShape t horizon st done p → P p →
      pruneStep t.indexes t.heap.continuations horizon st p (r, vr) = .ok p' → P p')
    (h : t.heap.scanVersions.foldlM (pruneStep t.indexes t.heap.continuations horizon st) ⟨t.heap, [], 0, 0⟩ = .ok p) :
    PruneShape t horizon st (fun a => t.heap.physicalVersion a ≠ none) p ∧ P p := by
  have hshape : PruneShape t horizon st (fun _ => False) ⟨t.heap, [], 0, 0⟩ :=
    ⟨fun _ _ => rfl, by simp, fun _ _ h => h.elim, by simp, by simp, fun _ _ _ _ h => h.elim, by simp⟩
  obtain ⟨hp, hP⟩ := pruneSteps_shape h0 hwf hstep t.heap.scanVersions
    (fun q hq => ⟨HeapTable.mem_scanVersions.1 hq, id⟩) t.heap.scanVersions_nodup hshape hstart h
  have heq : (fun x => False ∨ x ∈ t.heap.scanVersions.map Prod.fst) = fun a => t.heap.physicalVersion a ≠ none := by
    funext x
    refine propext ⟨?_, fun hx => Or.inr (t.heap.mem_keys x hx)⟩
    rintro (hf | hm)
    · exact hf.elim
    · obtain ⟨q, hq, rfl⟩ := List.mem_map.1 hm
      rw [HeapTable.mem_scanVersions.1 hq]
      simp
  rw [heq] at hp
  exact ⟨hp, hP⟩

/-- **The processed slots are those of the pruned chains.** -/
theorem PruneShape.processed_iff {p : Pruning} (hp : PruneShape t horizon st (fun a => t.heap.physicalVersion a ≠ none) p)
    (a : TID) : a ∈ p.processed ↔ OnPruned t a := by
  refine ⟨fun ha => ?_, ?_⟩
  · obtain ⟨r, h1, -, h3⟩ := hp.chosen a ha
    exact ⟨r, h1, h3⟩
  · rintro ⟨root, hroot, hreach⟩
    obtain ⟨v, hv, -⟩ := id hroot
    have hmem := hp.met root hroot (by rw [hv]; simp)
    clear hroot
    induction hreach with
    | refl => exact hmem
    | tail _ hlink ih => exact (hp.closed _ _ hlink).1 ih

theorem exists_chain (h0 : Mirror (Retired st) t.heap.physicalVersion log origin) (hwf : History.WF log) {a : TID}
    {v : TupleVersion} (hv : t.heap.physicalVersion a = some v) :
    ∃ l, Linked.Complete t.heap.physicalVersion TupleVersion.nextTid v.nextTid l :=
  Linked.exists_complete (h0.ranked hwf) (fun b u hb => (h0.carries b u hb).lt)
    (fun b u c hb hn => (h0.named b u c hb hn).1) (fun c hc => (h0.named a v c hv hc).1)

/-- **The first loop removes dead versions that others name.** -/
theorem PruneShape.removed (h0 : Mirror (Retired st) t.heap.physicalVersion log origin) (hwf : History.WF log)
    {p : Pruning} (hp : PruneShape t horizon st (fun a => t.heap.physicalVersion a ≠ none) p) {a : TID} {v : TupleVersion}
    (hv : t.heap.physicalVersion a = some v) (hn : p.heap.physicalVersion a = none) :
    classifyVersion v horizon st = .dead ∧ ∃ b u, t.heap.physicalVersion b = some u ∧ u.nextTid = some a := by
  have hap : a ∈ p.processed := by
    by_contra hap
    rw [hp.same a hap, hv] at hn
    cases hn
  obtain ⟨r, hsel, hstored, hreach⟩ := hp.chosen a hap
  obtain ⟨vr, hvr⟩ := Option.ne_none_iff_exists'.1 hstored
  obtain ⟨l, hl⟩ := exists_chain h0 hwf hvr
  have hc : Linked.Complete t.heap.physicalVersion TupleVersion.nextTid (some r) ((r, vr) :: l) := .cons r vr l hvr hl
  have hmem : (a, v) ∈ (r, vr) :: l := hc.path.mem_of_reach hreach hv
  have ha : a = r ∨ a ∈ l.map Prod.fst := by
    rw [← List.mem_cons, ← List.map_cons (f := Prod.fst) (a := (r, vr))]
    exact List.mem_map.2 ⟨(a, v), hmem, rfl⟩
  rw [hp.members r vr l hsel hstored hvr hl a ha] at hn
  obtain ⟨-, w, hw, hdead⟩ := mem_removableOf (HeapTable.prunedLook_none l _ r vr hn (by rw [hv]; simp))
  have hwl : (a, w) ∈ l := hw
  have hlook := hl.path.look_of_mem hwl
  rw [hv] at hlook
  cases hlook
  refine ⟨hdead, ?_⟩
  rcases hl.path.mem_cases hwl with hn | ⟨q, hq, hn⟩
  · exact ⟨r, vr, hvr, hn⟩
  · exact ⟨q.1, q.2, hl.path.look_of_mem hq, hn⟩

/-- **A safe first loop keeps the mirror.** -/
theorem pruneStep_mirror (h0 : Mirror (Retired st) t.heap.physicalVersion log origin) (hwf : History.WF log)
    (hsafe : VacuumSafe t horizon st) {done : TID → Prop} {p p' : Pruning} {r : TID} {vr : TupleVersion}
    (hr : t.heap.physicalVersion r = some vr) (hnd : ¬ done r) (hp : PruneShape t horizon st done p)
    (hm : Mirror (Retired st) p.heap.physicalVersion log origin)
    (h : pruneStep t.indexes t.heap.continuations horizon st p (r, vr) = .ok p') :
    Mirror (Retired st) p'.heap.physicalVersion log origin := by
  rcases pruneStep_cases h0 hwf hr hnd hp h with ⟨-, rfl⟩ | ⟨hselr, l, hcomp, hout, -, hnodup, -, hlook⟩
  · exact hm
  · have hpr : p.heap.physicalVersion r = some vr := by rw [hp.same r (hout (r, vr) List.mem_cons_self), hr]
    have hon : ∀ q ∈ (r, vr) :: l, OnPruned t q.1 := fun q hq => ⟨r, hselr, hcomp.path.reach_of_mem hq⟩
    have hremove : ∀ q ∈ (r, vr) :: l, ∀ c, q.2.nextTid = some c → c ∈ removableOf ((r, vr) :: l) horizon st →
        Retired st q.2 := by
      intro q hq c hqn hc
      obtain ⟨hlast, w, hw, hdead⟩ := mem_removableOf hc
      have hcl : (c, w) ∈ (r, vr) :: l := List.mem_cons_of_mem _ hw
      have hne := hcomp.next_ne_none hcl hlast
      rcases hsafe q.1 q.2 c w (hcomp.path.look_of_mem hq) hqn (hcomp.path.look_of_mem hcl) hdead with
        ⟨-, hnone | hret⟩ | ⟨hnot, -⟩
      · exact absurd hnone hne
      · exact hret
      · exact absurd (hon (c, w) hcl) hnot
    have hl : Linked.Complete p.heap.physicalVersion TupleVersion.nextTid vr.nextTid l := by
      cases hcomp with
      | cons _ _ _ _ ht =>
        refine ht.transfer (fun q hq => ?_)
        rw [hp.same q.1 (hout q (List.mem_cons_of_mem _ hq))]
        exact ht.path.look_of_mem hq
    rw [hlook]
    refine Mirror.prune hwf (fun v v' hb hl => by rw [Retired, hb.2.1]; exact hl) l _ r vr hm hpr hl hnodup
      (fun q hq hqr => ?_) (hremove (r, vr) List.mem_cons_self)
      (fun q hq => hremove q (List.mem_cons_of_mem _ hq))
    exact hcomp.next_ne_none (List.mem_cons_of_mem _ hq) (mem_removableOf hqr).1

end FirstLoop

/-! ## The second loop -/

/-- An index that only lost entries, none of a TID in `keep`. -/
structure Shrunk (keep : TID → Prop) (b b' : IndexBinding) : Prop where
  metadata  : b'.metadata = b.metadata
  dataTypes : b'.dataTypes = b.dataTypes
  sub       : ∀ e ∈ b'.tree, e ∈ b.tree
  kept      : ∀ k tid, keep tid → (k, tid) ∈ b.tree → (k, tid) ∈ b'.tree

theorem Shrunk.key {keep : TID → Prop} {b b' : IndexBinding} (h : Shrunk keep b b') (values : Values) :
    b'.key values = b.key values := by
  unfold IndexBinding.key
  rw [h.metadata, h.dataTypes]

theorem Shrunk.trans {keep keep' : TID → Prop} {a b c : IndexBinding} (h : Shrunk keep a b) (h' : Shrunk keep' b c) :
    Shrunk (fun x => keep x ∧ keep' x) a c :=
  ⟨h'.metadata.trans h.metadata, h'.dataTypes.trans h.dataTypes, fun e he => h.sub e (h'.sub e he),
    fun k tid hk hm => h'.kept k tid hk.2 (h.kept k tid hk.1 hm)⟩

theorem shrunk_refl (keep : TID → Prop) : ∀ (bs : List IndexBinding), List.Forall₂ (Shrunk keep) bs bs
  | [] => .nil
  | _ :: bs => .cons ⟨rfl, rfl, fun _ h => h, fun _ _ _ h => h⟩ (shrunk_refl keep bs)

theorem shrunk_trans {keep keep' : TID → Prop} : ∀ {as bs cs : List IndexBinding}, List.Forall₂ (Shrunk keep) as bs →
    List.Forall₂ (Shrunk keep') bs cs → List.Forall₂ (Shrunk (fun x => keep x ∧ keep' x)) as cs
  | [], [], [], .nil, .nil => .nil
  | _ :: _, _ :: _, _ :: _, .cons h hs, .cons h' hs' => .cons (h.trans h') (shrunk_trans hs hs')

theorem deleteKeys_shrunk : ∀ (bs : List IndexBinding) (ks : List Key) (tid : TID),
    List.Forall₂ (Shrunk (· ≠ tid)) bs (deleteKeys bs ks tid).1
  | [], _, _ => by simp [deleteKeys]
  | b :: bs, [], tid => by
    simp only [deleteKeys]
    exact shrunk_refl _ _
  | b :: bs, k :: ks, tid => by
    simp only [deleteKeys]
    refine .cons ⟨rfl, rfl, fun e he => ?_, fun k' tid' hne hm => ?_⟩ (deleteKeys_shrunk bs ks tid)
    · unfold BTree.delete at he
      split at he
      · exact List.mem_of_mem_erase he
      · exact he
    · unfold BTree.delete
      split
      · exact (List.mem_erase_of_ne (by simp [hne])).2 hm
      · exact hm

theorem indexedByAll_kept {keep : TID → Prop} {tid : TID} {values : Values} (hk : keep tid) :
    ∀ {bs bs' : List IndexBinding}, List.Forall₂ (Shrunk keep) bs bs' →
      indexedByAll tid values bs' = indexedByAll tid values bs
  | [], [], .nil => rfl
  | b :: bs, b' :: bs', .cons h hs => by
    simp only [indexedByAll, h.key, indexedByAll_kept hk hs]
    refine bind_congr (fun key => ?_)
    have hiff : tid ∈ b'.tree.search key ↔ tid ∈ b.tree.search key := by
      rw [BTree.mem_search, BTree.mem_search]
      exact ⟨h.sub _, h.kept _ _ hk⟩
    simp only [hiff]

theorem indexedByAll_missing {keep : TID → Prop} {tid : TID} {values : Values} :
    ∀ {bs bs' : List IndexBinding}, List.Forall₂ (Shrunk keep) bs bs' → indexedByAll tid values bs = .ok false →
      indexedByAll tid values bs' = .ok false
  | [], [], .nil, h => by cases h
  | b :: bs, b' :: bs', .cons hb hs, h => by
    obtain ⟨key, hkey, h⟩ := bind_eq_ok.1 h
    have : (b'.key values) = .ok key := by rw [hb.key, hkey]
    simp only [indexedByAll, this, bind, Except.bind]
    split
    · rename_i hm
      rw [if_pos (BTree.mem_search.2 (hb.sub _ (BTree.mem_search.1 hm)))] at h
      exact indexedByAll_missing hs h
    · rfl

/-- **One item of the second loop**: nothing happens, or a dead version outside the pruned chains, not held back, goes. -/
theorem sweepStep_cases {processed : List TID} {horizon : Nat} {st : StatusTable} {s s' : Sweeping} {a : TID}
    {v : TupleVersion} (h : sweepStep processed horizon st s (a, v) = .ok s') :
    (s' = s ∧ (a ∈ processed ∨ heldBack s.heap s.indexes v = .ok true ∨ classifyVersion v horizon st = .keep)) ∨
    (a ∉ processed ∧ heldBack s.heap s.indexes v = .ok false ∧ classifyVersion v horizon st = .dead ∧
      s'.heap.physicalVersion = Function.update s.heap.physicalVersion a none ∧ s'.heap.schema = s.heap.schema ∧
      ∃ keys, keysOf s.indexes v.values = .ok keys ∧ s'.indexes = (deleteKeys s.indexes keys a).1) := by
  unfold sweepStep at h
  split at h
  · rename_i hp
    cases h
    exact Or.inl ⟨rfl, Or.inl hp⟩
  · rename_i hp
    obtain ⟨held, hheld, h⟩ := bind_eq_ok.1 h
    cases held with
    | true => cases h; exact Or.inl ⟨rfl, Or.inr (Or.inl hheld)⟩
    | false =>
      simp only [Bool.false_eq_true, if_false] at h
      split at h
      · rename_i hk
        cases h
        exact Or.inl ⟨rfl, Or.inr (Or.inr hk)⟩
      · rename_i hk
        obtain ⟨keys, hkeys, h⟩ := bind_eq_ok.1 h
        cases h
        refine Or.inr ⟨hp, hheld, ?_, (HeapTable.reclaimVersion_versions _ _).1, (HeapTable.reclaimVersion_versions _ _).2,
          keys, hkeys, rfl⟩
        cases hc : classifyVersion v horizon st with
        | keep => exact absurd hc hk
        | dead => rfl

section SecondLoop

variable {t : IndexedTable} {log : Log} {origin : TID → Nat} {horizon : Nat} {st : StatusTable} {p : Pruning}

/-- What the second loop has done so far: `done` are the slots it has met. -/
structure SweepInv (t : IndexedTable) (p : Pruning) (horizon : Nat) (st : StatusTable) (done : TID → Prop) (s : Sweeping) :
    Prop where
  sub     : ∀ a v, s.heap.physicalVersion a = some v → p.heap.physicalVersion a = some v
  gone    : ∀ a v, p.heap.physicalVersion a = some v → s.heap.physicalVersion a = none →
    done a ∧ a ∉ p.processed ∧ classifyVersion v horizon st = .dead ∧ heldBack t.heap t.indexes v ≠ .ok true
  indexes : List.Forall₂ (Shrunk (fun a => s.heap.physicalVersion a = p.heap.physicalVersion a)) t.indexes s.indexes

theorem shrunk_weaken {keep keep' : TID → Prop} (hk : ∀ a, keep' a → keep a) : ∀ {bs bs' : List IndexBinding},
    List.Forall₂ (Shrunk keep) bs bs' → List.Forall₂ (Shrunk keep') bs bs'
  | [], [], .nil => .nil
  | _ :: _, _ :: _, .cons h hs =>
    .cons ⟨h.metadata, h.dataTypes, h.sub, fun k tid hkt => h.kept k tid (hk tid hkt)⟩ (shrunk_weaken hk hs)

theorem forall₂_nil_iff {α β : Type} {R : α → β → Prop} {as : List α} {bs : List β} (h : List.Forall₂ R as bs) :
    bs = [] ↔ as = [] := by
  cases h <;> simp

theorem heldBack_stays (h0 : Mirror (Retired st) t.heap.physicalVersion log origin)
    {done dn : TID → Prop} (hp : PruneShape t horizon st done p) {s : Sweeping}
    (hs : SweepInv t p horizon st dn s) {a : TID} {v : TupleVersion} (ha : a ∉ p.processed)
    (hv : t.heap.physicalVersion a = some v) (hheld : heldBack t.heap t.indexes v = .ok true) :
    heldBack s.heap s.indexes v = .ok true := by
  unfold heldBack at hheld ⊢
  split at hheld
  · cases hheld
  · rename_i next hn
    split at hheld
    · cases hheld
    · rename_i hne
      rw [if_neg (fun h => hne ((forall₂_nil_iff hs.indexes).1 h))]
      -- the next version is stored and outside the pruned chains
      have hnext := (h0.named a v next hv hn).1
      have hnp : next ∉ p.processed := fun hm => ha ((hp.closed a next ⟨v, hv, hn, hnext⟩).2 hm)
      split at hheld
      · rename_i hnone; exact absurd hnone hnext
      · rename_i succ hsucc
        cases hlook : s.heap.physicalVersion next with
        | none => rfl
        | some w =>
          have hw := hs.sub next w hlook
          rw [hp.same next hnp, hsucc] at hw
          cases hw
          obtain ⟨b, hb, he⟩ := bind_eq_ok.1 hheld
          cases b with
          | true => cases he
          | false =>
            simp only [indexedByAll_missing hs.indexes hb, bind, Except.bind]
            rfl

theorem sweepStep_keeps (h0 : Mirror (Retired st) t.heap.physicalVersion log origin) {done : TID → Prop}
    (hp : PruneShape t horizon st done p) {dn : TID → Prop} {s s' : Sweeping} {a : TID}
    {v : TupleVersion} (hv : t.heap.physicalVersion a = some v) (hs : SweepInv t p horizon st dn s)
    (h : sweepStep p.processed horizon st s (a, v) = .ok s') :
    SweepInv t p horizon st (fun x => dn x ∨ x = a) s' := by
  rcases sweepStep_cases h with ⟨rfl, -⟩ | ⟨hap, hheld, hdead, hlook, -, keys, -, hidx⟩
  · refine ⟨hs.sub, fun b w hb hn => ?_, hs.indexes⟩
    obtain ⟨h1, h2⟩ := hs.gone b w hb hn
    exact ⟨Or.inl h1, h2⟩
  · refine ⟨fun b w hb => ?_, fun b w hb hn => ?_, ?_⟩
    · rw [hlook] at hb
      by_cases hba : b = a
      · subst hba; rw [Function.update_self] at hb; cases hb
      · rw [Function.update_of_ne hba] at hb; exact hs.sub b w hb
    · rw [hlook] at hn
      by_cases hba : b = a
      · subst hba
        rw [hp.same b hap, hv] at hb
        cases hb
        refine ⟨Or.inr rfl, hap, hdead, fun hpre => ?_⟩
        rw [heldBack_stays h0 hp hs hap hv hpre] at hheld
        cases hheld
      · rw [Function.update_of_ne hba] at hn
        obtain ⟨h1, h2⟩ := hs.gone b w hb hn
        exact ⟨Or.inl h1, h2⟩
    · -- a slot that is as it was is not the reclaimed one
      have hshrunk := shrunk_trans hs.indexes (deleteKeys_shrunk s.indexes keys a)
      rw [← hidx] at hshrunk
      refine shrunk_weaken (fun x hx => ?_) hshrunk
      rw [hlook] at hx
      by_cases hxa : x = a
      · subst hxa
        rw [Function.update_self, hp.same x hap, hv] at hx
        cases hx
      · rw [Function.update_of_ne hxa] at hx
        exact ⟨hx, hxa⟩

theorem sweepSteps_keep (h0 : Mirror (Retired st) t.heap.physicalVersion log origin) {done : TID → Prop}
    (hp : PruneShape t horizon st done p) : ∀ (items : List (TID × TupleVersion)) {dn : TID → Prop}
      {s s' : Sweeping}, (∀ q ∈ items, t.heap.physicalVersion q.1 = some q.2) → SweepInv t p horizon st dn s →
      items.foldlM (sweepStep p.processed horizon st) s = .ok s' →
      SweepInv t p horizon st (fun x => dn x ∨ x ∈ items.map Prod.fst) s' ∧
        ∀ a, s.heap.physicalVersion a = none → s'.heap.physicalVersion a = none
  | [], dn, s, s', _, hs, h => by
    cases h
    exact ⟨by simpa using hs, fun _ h => h⟩
  | (a, v) :: items, dn, s, s', hitems, hs, h => by
    rw [List.foldlM_cons] at h
    obtain ⟨s₁, h₁, h₂⟩ := bind_eq_ok.1 h
    have hstep := sweepStep_keeps h0 hp (hitems (a, v) List.mem_cons_self) hs h₁
    obtain ⟨hrest, hmono⟩ := sweepSteps_keep h0 hp items (fun q hq => hitems q (List.mem_cons_of_mem _ hq)) hstep h₂
    refine ⟨?_, fun b hb => hmono b ?_⟩
    · have heq : (fun x => (dn x ∨ x = a) ∨ x ∈ items.map Prod.fst) = fun x => dn x ∨ x ∈ ((a, v) :: items).map Prod.fst := by
        funext x; simp [or_assoc]
      rw [heq] at hrest
      exact hrest
    · rcases sweepStep_cases h₁ with ⟨rfl, -⟩ | ⟨-, -, -, hlook, -⟩
      · exact hb
      · rw [hlook]
        by_cases hba : b = a
        · subst hba; rw [Function.update_self]
        · rw [Function.update_of_ne hba]; exact hb

theorem sweepSteps_other {processed : List TID} : ∀ (items : List (TID × TupleVersion)) {s s' : Sweeping} {a : TID},
    items.foldlM (sweepStep processed horizon st) s = .ok s' → a ∉ items.map Prod.fst →
      s'.heap.physicalVersion a = s.heap.physicalVersion a
  | [], s, s', a, h, _ => by cases h; rfl
  | (b, v) :: items, s, s', a, h, ha => by
    rw [List.foldlM_cons] at h
    obtain ⟨s₁, h₁, h₂⟩ := bind_eq_ok.1 h
    rw [List.map_cons, List.mem_cons, not_or] at ha
    rw [sweepSteps_other items h₂ ha.2]
    rcases sweepStep_cases h₁ with ⟨rfl, -⟩ | ⟨-, -, -, hlook, -⟩
    · rfl
    · rw [hlook, Function.update_of_ne ha.1]

theorem sweepInv_start (horizon : Nat) (st : StatusTable) (p : Pruning) :
    SweepInv t p horizon st (fun _ => False) ⟨p.heap, t.indexes, p.pruned, 0, p.bytes⟩ := by
  refine ⟨fun _ _ h => h, fun a v hv hn => ?_, shrunk_refl _ _⟩
  rw [hv] at hn
  cases hn

theorem heldBack_false_iff (h0 : Mirror (Retired st) t.heap.physicalVersion log origin) {done dn : TID → Prop}
    (hp : PruneShape t horizon st done p) {s : Sweeping} (hs : SweepInv t p horizon st dn s) {a : TID} {v : TupleVersion}
    (hv : t.heap.physicalVersion a = some v) (ha : a ∉ p.processed) :
    heldBack s.heap s.indexes v = .ok false ↔ ∀ c, v.nextTid = some c → t.indexes = [] ∨
      (s.heap.physicalVersion c ≠ none ∧
        ∃ w, t.heap.physicalVersion c = some w ∧ indexedByAll c w.values t.indexes = .ok true) := by
  unfold heldBack
  cases hn : v.nextTid with
  | none => simp
  | some c =>
    obtain ⟨w, hw⟩ := Option.ne_none_iff_exists'.1 (h0.named a v c hv hn).1
    have hcp : c ∉ p.processed := fun hm => ha ((hp.closed a c ⟨v, hv, hn, by rw [hw]; simp⟩).2 hm)
    simp only [forall₂_nil_iff hs.indexes, Option.some.injEq, forall_eq']
    by_cases hnil : t.indexes = []
    · simp [hnil]
    · rw [if_neg hnil]
      cases hc : s.heap.physicalVersion c with
      | none => simp [hnil]
      | some w' =>
        have hpc := hs.sub c w' hc
        have hkept : indexedByAll c w'.values s.indexes = indexedByAll c w'.values t.indexes :=
          indexedByAll_kept (by exact hc.trans hpc.symm) hs.indexes
        rw [hp.same c hcp, hw] at hpc
        cases hpc
        simp only [hkept, hnil, hw, ne_eq, reduceCtorEq, not_false_eq_true, Option.some.injEq, true_and, false_or,
          exists_eq_left']
        cases indexedByAll c w.values t.indexes with
        | error e => simp [bind, Except.bind]
        | ok b => cases b <;> simp [bind, Except.bind]

/-- A version outside the pruned chains that the second loop reclaims: it is dead and, in an indexed table, its next version
is in every index and was not reclaimed before it. -/
def SweptOut (t : IndexedTable) (horizon : Nat) (st : StatusTable) (gone : TID → Prop) (a : TID) (v : TupleVersion) : Prop :=
  classifyVersion v horizon st = .dead ∧ ∀ c, v.nextTid = some c → t.indexes = [] ∨
    (¬ (c.before a ∧ gone c) ∧ ∃ w, t.heap.physicalVersion c = some w ∧ indexedByAll c w.values t.indexes = .ok true)

/-- **What the second loop reclaims, exactly.** -/
theorem sweep_iff (h0 : Mirror (Retired st) t.heap.physicalVersion log origin) {done : TID → Prop}
    (hp : PruneShape t horizon st done p) {s : Sweeping}
    (h : t.heap.scanVersions.foldlM (sweepStep p.processed horizon st) ⟨p.heap, t.indexes, p.pruned, 0, p.bytes⟩ = .ok s)
    {a : TID} {v : TupleVersion} (hv : t.heap.physicalVersion a = some v) (ha : a ∉ p.processed) :
    s.heap.physicalVersion a = none ↔ SweptOut t horizon st (fun c => s.heap.physicalVersion c = none) a v := by
  obtain ⟨pre, post, hsplit⟩ := List.append_of_mem (HeapTable.mem_scanVersions.2 hv)
  have hscan : ∀ q ∈ pre ++ (a, v) :: post, t.heap.physicalVersion q.1 = some q.2 :=
    fun q hq => HeapTable.mem_scanVersions.1 (hsplit ▸ hq)
  have hsorted := t.heap.scanVersions_sorted
  rw [hsplit] at h hsorted
  obtain ⟨-, hpost, hpre⟩ := List.pairwise_append.1 hsorted
  rw [List.foldlM_append] at h
  obtain ⟨s₁, hs₁, h⟩ := bind_eq_ok.1 h
  rw [List.foldlM_cons] at h
  obtain ⟨s₂, hs₂, h⟩ := bind_eq_ok.1 h
  obtain ⟨hi₁, -⟩ := sweepSteps_keep h0 hp pre (fun q hq => hscan q (List.mem_append_left _ hq)) (sweepInv_start horizon st p) hs₁
  -- the slots before `a` are done when the loop meets `a`, and `a` is done after it
  have hbefore : ∀ c, c.before a → c ∉ post.map Prod.fst ∧ c ≠ a := by
    intro c hc
    refine ⟨fun hm => ?_, ?_⟩
    · obtain ⟨q, hq, rfl⟩ := List.mem_map.1 hm
      have hqa := (List.pairwise_cons.1 hpost).1 q hq
      simp only [TID.before] at hc hqa
      omega
    · rintro rfl
      simp only [TID.before] at hc
      omega
  have ha_post : a ∉ post.map Prod.fst := by
    intro hm
    obtain ⟨q, hq, he⟩ := List.mem_map.1 hm
    have hqa := (List.pairwise_cons.1 hpost).1 q hq
    rw [he] at hqa
    simp only [TID.before] at hqa
    omega
  have hpre_before : ∀ c, s₁.heap.physicalVersion c = none → t.heap.physicalVersion c ≠ none → c ∉ p.processed → c.before a := by
    intro c hc hstored hcp
    obtain ⟨w, hw⟩ := Option.ne_none_iff_exists'.1 hstored
    rcases (hi₁.gone c w (by rw [hp.same c hcp]; exact hw) hc).1 with hf | hm
    · exact hf.elim
    · obtain ⟨q, hq, rfl⟩ := List.mem_map.1 hm
      exact hpre q hq (a, v) List.mem_cons_self
  have hfix : ∀ c, c.before a → s.heap.physicalVersion c = s₁.heap.physicalVersion c := by
    intro c hc
    rw [sweepSteps_other post h (hbefore c hc).1]
    rcases sweepStep_cases hs₂ with ⟨rfl, -⟩ | ⟨-, -, -, hlook, -⟩
    · rfl
    · rw [hlook, Function.update_of_ne (hbefore c hc).2]
  have hguard : heldBack s₁.heap s₁.indexes v = .ok false ↔ ∀ c, v.nextTid = some c → t.indexes = [] ∨
      (¬ (c.before a ∧ s.heap.physicalVersion c = none) ∧
        ∃ w, t.heap.physicalVersion c = some w ∧ indexedByAll c w.values t.indexes = .ok true) := by
    rw [heldBack_false_iff h0 hp hi₁ hv ha]
    refine forall_congr' (fun c => forall_congr' (fun hn => or_congr_right (and_congr_left (fun ⟨w, hw, _⟩ => ?_))))
    have hstored : t.heap.physicalVersion c ≠ none := by rw [hw]; simp
    have hcp : c ∉ p.processed := fun hm => ha ((hp.closed a c ⟨v, hv, hn, hstored⟩).2 hm)
    constructor
    · rintro hne ⟨hb, hgone⟩
      exact hne (by rw [← hfix c hb]; exact hgone)
    · intro hcon hnone
      have hb := hpre_before c hnone hstored hcp
      exact hcon ⟨hb, by rw [hfix c hb]; exact hnone⟩
  rw [sweepSteps_other post h ha_post, SweptOut, ← hguard]
  rcases sweepStep_cases hs₂ with ⟨rfl, hkeep⟩ | ⟨-, hheld, hdead, hlook, -⟩
  · refine ⟨fun hnone => ?_, fun ⟨hdead, hheld⟩ => ?_⟩
    · -- the loop has not met it before
      have hb := hpre_before a hnone (by rw [hv]; simp) ha
      exact absurd rfl (hbefore a hb).2
    · rcases hkeep with hm | hh | hk
      · exact absurd hm ha
      · rw [hh] at hheld; cases hheld
      · rw [hk] at hdead; cases hdead
  · rw [hlook, Function.update_self]
    exact ⟨fun _ => ⟨hdead, hheld⟩, fun _ => rfl⟩

end SecondLoop

/-! ## The whole vacuum -/

/-- **The second loop of a vacuum, from the start.** -/
theorem sweepInv_of_steps {t : IndexedTable} {log : Log} {origin : TID → Nat} {horizon : Nat} {st : StatusTable} {p : Pruning}
    (h0 : Mirror (Retired st) t.heap.physicalVersion log origin) {done : TID → Prop} (hp : PruneShape t horizon st done p)
    {s : Sweeping}
    (hsf : t.heap.scanVersions.foldlM (sweepStep p.processed horizon st) ⟨p.heap, t.indexes, p.pruned, 0, p.bytes⟩ = .ok s) :
    SweepInv t p horizon st (fun a => t.heap.physicalVersion a ≠ none) s := by
  obtain ⟨hs, -⟩ := sweepSteps_keep h0 hp t.heap.scanVersions (fun q hq => HeapTable.mem_scanVersions.1 hq)
    (sweepInv_start horizon st p) hsf
  refine ⟨hs.sub, fun a v hv hn => ?_, hs.indexes⟩
  obtain ⟨hd, hrest⟩ := hs.gone a v hv hn
  refine ⟨?_, hrest⟩
  rcases hd with hf | hm
  · exact hf.elim
  · obtain ⟨q, hq, rfl⟩ := List.mem_map.1 hm
    rw [HeapTable.mem_scanVersions.1 hq]
    simp

/-- **The two loops of a vacuum that returned.** -/
theorem vacuum_loops {t t' : IndexedTable} {log : Log} {origin : TID → Nat} {horizon : Nat} {st : StatusTable}
    {r : VacuumResult} (h0 : Mirror (Retired st) t.heap.physicalVersion log origin) (hwf : History.WF log)
    (h : t.vacuum horizon st = .ok (t', r)) :
    ∃ p s, PruneShape t horizon st (fun a => t.heap.physicalVersion a ≠ none) p ∧
      SweepInv t p horizon st (fun a => t.heap.physicalVersion a ≠ none) s ∧
      (∀ a v, t.heap.physicalVersion a = some v → a ∉ p.processed →
        (s.heap.physicalVersion a = none ↔ SweptOut t horizon st (fun c => s.heap.physicalVersion c = none) a v)) ∧
      t' = ⟨s.heap, s.indexes⟩ := by
  obtain ⟨p, hpf, h⟩ := bind_eq_ok.1 h
  obtain ⟨s, hsf, he⟩ := bind_eq_ok.1 h
  cases he
  obtain ⟨hp, -⟩ := pruned_shape h0 hwf (P := fun _ => True) trivial (fun _ _ _ _ _ => trivial) hpf
  exact ⟨p, s, hp, sweepInv_of_steps h0 hp hsf, fun a v hv hap => sweep_iff h0 hp hsf hv hap, rfl⟩

theorem vacuum_stored {t t' : IndexedTable} {log : Log} {origin : TID → Nat} {horizon : Nat} {st : StatusTable}
    {r : VacuumResult} (h0 : Mirror (Retired st) t.heap.physicalVersion log origin) (hwf : History.WF log)
    (h : t.vacuum horizon st = .ok (t', r)) {a : TID} (ha : t'.heap.physicalVersion a ≠ none) :
    t.heap.physicalVersion a ≠ none := by
  obtain ⟨p, s, hp, hs, -, rfl⟩ := vacuum_loops h0 hwf h
  obtain ⟨v, hv⟩ := Option.ne_none_iff_exists'.1 ha
  have hpv := hs.sub a v hv
  by_cases hap : a ∈ p.processed
  · obtain ⟨root, ⟨u, hu, -⟩, -, hreach⟩ := hp.chosen a hap
    exact (h0.row_of_reach hwf (by rw [hu]; simp) hreach).1
  · rw [← hp.same a hap, hpv]
    simp

section Kept

variable {t t' : IndexedTable} {log : Log} {origin : TID → Nat} {horizon : Nat} {st : StatusTable} {r : VacuumResult}
  {a : TID} {v : TupleVersion}

/-- A version that the first loop left goes only as a dead one outside the pruned chains that is not held back. -/
theorem SweepInv.stays {p : Pruning} {s : Sweeping} {dn : TID → Prop} (hs : SweepInv t p horizon st dn s)
    (hp : p.heap.physicalVersion a ≠ none) (hv : a ∉ p.processed → p.heap.physicalVersion a = some v)
    (hkeep : classifyVersion v horizon st = .keep ∨ a ∈ p.processed ∨ heldBack t.heap t.indexes v = .ok true) :
    s.heap.physicalVersion a ≠ none := by
  intro hgone
  obtain ⟨u, hu⟩ := Option.ne_none_iff_exists'.1 hp
  obtain ⟨-, hap, hdead, hheld⟩ := hs.gone a u hu hgone
  rw [hv hap] at hu
  cases hu
  rcases hkeep with hk | hon | hh
  · rw [hk] at hdead; cases hdead
  · exact hap hon
  · exact hheld hh

/-- **A version that is not dead stays.** -/
theorem vacuum_kept (h0 : Mirror (Retired st) t.heap.physicalVersion log origin) (hwf : History.WF log)
    (h : t.vacuum horizon st = .ok (t', r)) (hv : t.heap.physicalVersion a = some v)
    (hkeep : classifyVersion v horizon st = .keep) : t'.heap.physicalVersion a ≠ none := by
  obtain ⟨p, s, hp, hs, -, rfl⟩ := vacuum_loops h0 hwf h
  refine hs.stays (fun hn => ?_) (fun hap => by rw [hp.same a hap]; exact hv) (Or.inl hkeep)
  rw [(hp.removed h0 hwf hv hn).1] at hkeep
  cases hkeep

/-- **A chain's root stays** when it is not dead, its chain is pruned, or it is held back. -/
theorem vacuum_root_stored (h0 : Mirror (Retired st) t.heap.physicalVersion log origin) (hwf : History.WF log)
    (h : t.vacuum horizon st = .ok (t', r)) (ha : a ∈ t.heap.roots) (hv : t.heap.physicalVersion a = some v)
    (hkeep : classifyVersion v horizon st = .keep ∨ OnPruned t a ∨ heldBack t.heap t.indexes v = .ok true) :
    t'.heap.physicalVersion a ≠ none := by
  obtain ⟨p, s, hp, hs, -, rfl⟩ := vacuum_loops h0 hwf h
  refine hs.stays (fun hn => ?_) (fun hap => by rw [hp.same a hap]; exact hv)
    (hkeep.imp_right (fun hk => hk.imp_left (hp.processed_iff a).2))
  obtain ⟨-, b, u, hb, hbn⟩ := hp.removed h0 hwf hv hn
  exact (HeapTable.mem_roots.1 ha).2 b u hb hbn

end Kept

/-- **A safe vacuum keeps the mirror**: afterwards, too, every link names a stored version of its chain. -/
theorem vacuum_keeps_mirror {t t' : IndexedTable} {log : Log} {origin : TID → Nat} {horizon : Nat} {st : StatusTable}
    {r : VacuumResult} (h0 : Mirror (Retired st) t.heap.physicalVersion log origin) (hwf : History.WF log)
    (hsafe : VacuumSafe t horizon st) (h : t.vacuum horizon st = .ok (t', r)) :
    Mirror (Retired st) t'.heap.physicalVersion log origin := by
  obtain ⟨p, hpf, h⟩ := bind_eq_ok.1 h
  obtain ⟨s, hsf, he⟩ := bind_eq_ok.1 h
  cases he
  have hscan : ∀ q ∈ t.heap.scanVersions, t.heap.physicalVersion q.1 = some q.2 :=
    fun q hq => HeapTable.mem_scanVersions.1 hq
  obtain ⟨hp, hmirror⟩ := pruned_shape h0 hwf (P := fun p => Mirror (Retired st) p.heap.physicalVersion log origin) h0
    (pruneStep_mirror h0 hwf hsafe) hpf
  obtain ⟨hs, -⟩ := sweepSteps_keep h0 hp t.heap.scanVersions hscan (sweepInv_start horizon st p) hsf
  refine hmirror.remove hs.sub (fun a v d hav hn hd => ?_)
  -- a stays and d went: d was dead and outside the pruned chains
  have hap := hs.sub a v hav
  obtain ⟨hdl, -⟩ := hmirror.named a v d hap hn
  obtain ⟨w, hw⟩ := Option.ne_none_iff_exists'.1 hdl
  obtain ⟨-, hdp, hdead, hnheld⟩ := hs.gone d w hw hd
  have hanp : a ∉ p.processed := fun hm => hdp (hp.inner a v d hm hap hn)
  have ha0 : t.heap.physicalVersion a = some v := by rw [← hp.same a hanp]; exact hap
  have hd0 : t.heap.physicalVersion d = some w := by rw [← hp.same d hdp]; exact hw
  rcases hsafe a v d w ha0 hn hd0 hdead with ⟨hon, -⟩ | ⟨-, hheld | ⟨hvdead, hord⟩⟩
  · exact hdp ((hp.processed_iff d).2 hon)
  · exact hnheld hheld
  · -- so a was dead too, and nothing held it back
    have hgone := (sweep_iff h0 hp hsf ha0 hanp).2 ⟨hvdead, fun c hc => ?_⟩
    · rw [hav] at hgone
      cases hgone
    · rw [hn] at hc
      cases hc
      refine hord.imp_right (fun ⟨hbefore, hidx⟩ => ⟨fun hcon => ?_, w, hd0, hidx⟩)
      have := hcon.1
      simp only [TID.before] at hbefore this
      omega

end MiniPostgres
