import MiniPostgres.Settled
/-!
# Twice — a vacuum after a vacuum

The first vacuum settles a table unless it makes work for the second one: a pruned chain whose root is not pruned again, or a
version outside the pruned chains that becomes a root when its predecessor goes.  `Settles` says exactly when it does not,
chain by chain, of the table before the first vacuum.
-/
namespace MiniPostgres

open HeapTable (prunedLook prunedLook_other)

/-! ## What a vacuum leaves of the indexes -/

theorem indexedByAny_kept {keep : TID → Prop} {tid : TID} {values : Values} (hk : keep tid) :
    ∀ {bs bs' : List IndexBinding}, List.Forall₂ (Shrunk keep) bs bs' →
      indexedByAny tid values bs' = indexedByAny tid values bs := by
  intro bs bs' hall
  induction hall with
  | nil => rfl
  | @cons b b' bs bs' h _ ih =>
    simp only [indexedByAny, h.key, ih]
    refine bind_congr (fun key => ?_)
    have hiff : tid ∈ b'.tree.search key ↔ tid ∈ b.tree.search key := by
      rw [BTree.mem_search, BTree.mem_search]
      exact ⟨h.sub _, h.kept _ _ hk⟩
    simp only [hiff]

theorem indexedByAny_of_all {tid : TID} {values : Values} {bs : List IndexBinding} (hne : bs ≠ [])
    (h : indexedByAll tid values bs = .ok true) : indexedByAny tid values bs = .ok true := by
  cases bs with
  | nil => exact absurd rfl hne
  | cons b bs =>
    obtain ⟨key, hkey, h⟩ := bind_eq_ok.1 h
    simp only [indexedByAny, hkey, bind, Except.bind]
    split at h
    · rename_i hm
      rw [if_pos hm]
    · cases h

section Vacuum

variable {t t' : IndexedTable} {log : Log} {origin : TID → Nat} {horizon : Nat} {st : StatusTable} {r : VacuumResult}
  {a c : TID} {v : TupleVersion}

/-- **The tests of a version that stays are as they were.** -/
theorem vacuum_tests (h0 : Mirror (Retired st) t.heap.physicalVersion log origin) (hwf : History.WF log)
    (h : t.vacuum horizon st = .ok (t', r)) (ha : t'.heap.physicalVersion a ≠ none) (values : Values) :
    indexedByAny a values t'.indexes = indexedByAny a values t.indexes ∧
      indexedByAll a values t'.indexes = indexedByAll a values t.indexes := by
  obtain ⟨p, s, -, hs, -, rfl⟩ := vacuum_loops h0 hwf h
  obtain ⟨u, hu⟩ := Option.ne_none_iff_exists'.1 ha
  have hk : s.heap.physicalVersion a = p.heap.physicalVersion a := hu.trans (hs.sub a u hu).symm
  exact ⟨indexedByAny_kept hk hs.indexes, indexedByAll_kept hk hs.indexes⟩

theorem vacuum_nil_iff (h0 : Mirror (Retired st) t.heap.physicalVersion log origin) (hwf : History.WF log)
    (h : t.vacuum horizon st = .ok (t', r)) : t'.indexes = [] ↔ t.indexes = [] := by
  obtain ⟨p, s, -, hs, -, rfl⟩ := vacuum_loops h0 hwf h
  exact forall₂_nil_iff hs.indexes

theorem vacuum_unpruned (h0 : Mirror (Retired st) t.heap.physicalVersion log origin) (hwf : History.WF log)
    (h : t.vacuum horizon st = .ok (t', r)) (ha : ¬ OnPruned t a) (hv : t'.heap.physicalVersion a = some v) :
    t.heap.physicalVersion a = some v := by
  obtain ⟨p, s, hp, hs, -, rfl⟩ := vacuum_loops h0 hwf h
  rw [← hp.same a (fun hm => ha ((hp.processed_iff a).1 hm))]
  exact hs.sub a v hv

theorem vacuum_inner (h0 : Mirror (Retired st) t.heap.physicalVersion log origin) (hwf : History.WF log)
    (h : t.vacuum horizon st = .ok (t', r)) (ha : OnPruned t a) (hv : t'.heap.physicalVersion a = some v)
    (hn : v.nextTid = some c) : OnPruned t c := by
  obtain ⟨p, s, hp, hs, -, rfl⟩ := vacuum_loops h0 hwf h
  exact (hp.processed_iff c).1 (hp.inner a v c ((hp.processed_iff a).2 ha) (hs.sub a v hv) hn)

/-! ## The tests that a vacuum made -/

theorem pruneSteps_selects (h0 : Mirror (Retired st) t.heap.physicalVersion log origin) (hwf : History.WF log) :
    ∀ (items : List (TID × TupleVersion)) {done : TID → Prop} {p p' : Pruning},
      (∀ q ∈ items, t.heap.physicalVersion q.1 = some q.2 ∧ ¬ done q.1) → (items.map Prod.fst).Nodup →
      PruneShape t horizon st done p →
      items.foldlM (pruneStep t.indexes t.heap.continuations horizon st) p = .ok p' →
      ∀ q ∈ items, ∃ b, selects t.indexes t.heap.continuations t.heap q.1 q.2 = .ok b
  | [], _, _, _, _, _, _, _, q, hq => by cases hq
  | (x, u) :: items, done, p, p', hitems, hnd, hp, h, q, hq => by
    rw [List.foldlM_cons] at h
    obtain ⟨p₁, h₁, h₂⟩ := bind_eq_ok.1 h
    rw [List.map_cons, List.nodup_cons] at hnd
    obtain ⟨hx, hdx⟩ := hitems (x, u) List.mem_cons_self
    rcases List.mem_cons.1 hq with rfl | hq
    · obtain ⟨sel, hsel, -⟩ := bind_eq_ok.1 h₁
      refine ⟨sel, ?_⟩
      rw [← hsel]
      refine (selects_congr (fun hrc next hn => hp.same next (fun hmem => ?_))).symm
      have hlink : Linked.Link t.heap.physicalVersion TupleVersion.nextTid x next := ⟨u, hx, hn, (h0.named x u next hx hn).1⟩
      exact hp.not_processed hrc hdx ((hp.closed x next hlink).2 hmem)
    · refine pruneSteps_selects h0 hwf items (fun e he => ⟨(hitems e (List.mem_cons_of_mem _ he)).1, ?_⟩) hnd.2
        (pruneStep_shape h0 hwf hx hdx hp h₁) h₂ q hq
      rintro (hd | he')
      · exact (hitems e (List.mem_cons_of_mem _ he)).2 hd
      · exact hnd.1 (he' ▸ List.mem_map.2 ⟨e, he, rfl⟩)

/-- **The choices of the first loop were made**, on the table at the start. -/
theorem vacuum_selects (h0 : Mirror (Retired st) t.heap.physicalVersion log origin) (hwf : History.WF log)
    (h : t.vacuum horizon st = .ok (t', r)) (hv : t.heap.physicalVersion a = some v) :
    ∃ b, selects t.indexes t.heap.continuations t.heap a v = .ok b := by
  obtain ⟨p, hpf, -⟩ := bind_eq_ok.1 h
  have hshape : PruneShape t horizon st (fun _ => False) ⟨t.heap, [], 0, 0⟩ :=
    ⟨fun _ _ => rfl, by simp, fun _ _ h => h.elim, by simp, by simp, fun _ _ _ _ h => h.elim, by simp⟩
  exact pruneSteps_selects h0 hwf t.heap.scanVersions (fun q hq => ⟨HeapTable.mem_scanVersions.1 hq, id⟩)
    t.heap.scanVersions_nodup hshape hpf (a, v) (HeapTable.mem_scanVersions.2 hv)

/-- **The second loop tested the next version** of every version outside the pruned chains, if it stays. -/
theorem vacuum_held (h0 : Mirror (Retired st) t.heap.physicalVersion log origin) (hwf : History.WF log)
    (h : t.vacuum horizon st = .ok (t', r)) (hv : t.heap.physicalVersion a = some v) (ha : ¬ OnPruned t a)
    (hn : v.nextTid = some c) (hc : t'.heap.physicalVersion c ≠ none) (hne : t.indexes ≠ []) {w : TupleVersion}
    (hw : t.heap.physicalVersion c = some w) : ∃ b, indexedByAll c w.values t.indexes = .ok b := by
  obtain ⟨p, hpf, h⟩ := bind_eq_ok.1 h
  obtain ⟨s, hsf, he⟩ := bind_eq_ok.1 h
  cases he
  obtain ⟨hp, -⟩ := pruned_shape h0 hwf (P := fun _ => True) trivial (fun _ _ _ _ _ => trivial) hpf
  have hap : a ∉ p.processed := fun hm => ha ((hp.processed_iff a).1 hm)
  -- the state in which the loop meets `a`
  obtain ⟨pre, post, hsplit⟩ := List.append_of_mem (HeapTable.mem_scanVersions.2 hv)
  have hscan : ∀ q ∈ pre ++ (a, v) :: post, t.heap.physicalVersion q.1 = some q.2 :=
    fun q hq => HeapTable.mem_scanVersions.1 (hsplit ▸ hq)
  rw [hsplit, List.foldlM_append] at hsf
  obtain ⟨s₁, hs₁, hsf⟩ := bind_eq_ok.1 hsf
  obtain ⟨hi₁, -⟩ := sweepSteps_keep h0 hp pre (fun q hq => hscan q (List.mem_append_left _ hq)) (sweepInv_start horizon st p) hs₁
  have hc₁ : s₁.heap.physicalVersion c ≠ none := fun hgone => hc (sweepSteps_gone _ hsf hgone)
  rw [List.foldlM_cons] at hsf
  obtain ⟨s₂, hs₂, -⟩ := bind_eq_ok.1 hsf
  unfold sweepStep at hs₂
  rw [if_neg hap] at hs₂
  obtain ⟨held, hheld, -⟩ := bind_eq_ok.1 hs₂
  obtain ⟨w', hw'⟩ := Option.ne_none_iff_exists'.1 hc₁
  have hstored : t.heap.physicalVersion c ≠ none := by rw [hw]; simp
  have hcp : c ∉ p.processed := fun hm => hap ((hp.closed a c ⟨v, hv, hn, hstored⟩).2 hm)
  have hpc := hi₁.sub c w' hw'
  have hkept : indexedByAll c w'.values s₁.indexes = indexedByAll c w'.values t.indexes :=
    indexedByAll_kept (by exact hw'.trans hpc.symm) hi₁.indexes
  rw [hp.same c hcp, hw] at hpc
  cases hpc
  unfold heldBack at hheld
  simp only [hn, if_neg (fun hnil => hne ((forall₂_nil_iff hi₁.indexes).1 hnil)), hw', hkept] at hheld
  obtain ⟨b, hb, -⟩ := bind_eq_ok.1 hheld
  exact ⟨b, hb⟩

end Vacuum

/-! ## What a vacuum leaves of a pruned chain -/

/-- The members after the root that pruning leaves. -/
def prunedRest (chain : List (TID × TupleVersion)) (horizon : Nat) (st : StatusTable) : List (TID × TupleVersion) :=
  chain.tail.filter (fun q => decide (q.1 ∉ removableOf chain horizon st))

/-- The two lists have the same slots, and the same bodies in them. -/
def SameMembers (l l' : List (TID × TupleVersion)) : Prop := List.Forall₂ (fun q q' => q'.1 = q.1 ∧ SameBody q.2 q'.2) l l'

theorem SameMembers.mem_right {l l' : List (TID × TupleVersion)} (h : SameMembers l l') {q' : TID × TupleVersion}
    (hq' : q' ∈ l') : ∃ q ∈ l, q'.1 = q.1 ∧ SameBody q.2 q'.2 := by
  obtain ⟨i, hi, rfl⟩ := List.getElem_of_mem hq'
  obtain ⟨hlen, hget⟩ := List.forall₂_iff_get.1 h
  exact ⟨_, List.getElem_mem (hlen ▸ hi), hget i (hlen ▸ hi) hi⟩

theorem SameMembers.mem_left {l l' : List (TID × TupleVersion)} (h : SameMembers l l') {q : TID × TupleVersion}
    (hq : q ∈ l) : ∃ q' ∈ l', q'.1 = q.1 ∧ SameBody q.2 q'.2 := by
  obtain ⟨i, hi, rfl⟩ := List.getElem_of_mem hq
  obtain ⟨hlen, hget⟩ := List.forall₂_iff_get.1 h
  exact ⟨_, List.getElem_mem (hlen ▸ hi), hget i hi (hlen ▸ hi)⟩

/-- **After pruning, the members that are left are the chain of the root.** -/
theorem prunedLook_chain {removable : List TID} : ∀ (l : List (TID × TupleVersion)) (look : Versions) (p : TID)
    (pv : TupleVersion), look p = some pv → Linked.Complete look TupleVersion.nextTid pv.nextTid l →
      (p :: l.map Prod.fst).Nodup → ∃ pv' l', prunedLook removable look p pv l p = some pv' ∧ SameBody pv pv' ∧
        Linked.Complete (prunedLook removable look p pv l) TupleVersion.nextTid pv'.nextTid l' ∧
        SameMembers (l.filter (fun q => decide (q.1 ∉ removable))) l'
  | [], look, p, pv, hp, hc, _ => ⟨pv, [], hp, ⟨rfl, rfl, rfl⟩, hc, .nil⟩
  | (c, v) :: l, look, p, pv, hp, hc, hnd => by
    cases hpn : pv.nextTid with
    | none => rw [hpn] at hc; cases hc
    | some c' =>
      rw [hpn] at hc
      cases hc with
      | cons _ _ _ hv ht =>
        rw [List.map_cons, List.nodup_cons, List.nodup_cons, List.mem_cons, not_or] at hnd
        obtain ⟨⟨hpc, hpl⟩, hcl, hnl⟩ := hnd
        simp only [prunedLook]
        split
        · rename_i hrem
          have hrest : Linked.Complete (Function.update (Function.update look p (some { pv with nextTid := v.nextTid })) c none)
              TupleVersion.nextTid v.nextTid l := by
            refine ht.transfer (fun q hq => ?_)
            have hqc : q.1 ≠ c := fun he => hcl (he ▸ List.mem_map.2 ⟨q, hq, rfl⟩)
            have hqp : q.1 ≠ p := fun he => hpl (he ▸ List.mem_map.2 ⟨q, hq, rfl⟩)
            rw [Function.update_of_ne hqc, Function.update_of_ne hqp]
            exact ht.path.look_of_mem hq
          obtain ⟨pv', l', hp', hbody, hc', hmem⟩ := @prunedLook_chain removable l _ p
            { pv with nextTid := v.nextTid } (by rw [Function.update_of_ne hpc, Function.update_self]) hrest
            (List.nodup_cons.2 ⟨hpl, hnl⟩)
          refine ⟨pv', l', hp', hbody, hc', ?_⟩
          rw [List.filter_cons_of_neg (by simpa using hrem)]
          exact hmem
        · rename_i hrem
          obtain ⟨v', l', hv', hbody, hc', hmem⟩ := @prunedLook_chain removable l look c v hv ht
            (List.nodup_cons.2 ⟨hcl, hnl⟩)
          refine ⟨pv, (c, v') :: l', by rw [prunedLook_other l look c v hpc hpl]; exact hp, ⟨rfl, rfl, rfl⟩, ?_, ?_⟩
          · rw [hpn]
            exact .cons c v' l' hv' hc'
          · rw [List.filter_cons_of_pos (by simpa using hrem)]
            exact .cons ⟨rfl, hbody⟩ hmem

section Chain

variable {t t' : IndexedTable} {log : Log} {origin : TID → Nat} {horizon : Nat} {st : StatusTable} {r : VacuumResult}
  {root : TID} {vr : TupleVersion} {l : List (TID × TupleVersion)}

theorem SweepInv.processed_same {p : Pruning} {done : TID → Prop} {s : Sweeping} (hs : SweepInv t p horizon st done s) {x : TID}
    (hx : x ∈ p.processed) : s.heap.physicalVersion x = p.heap.physicalVersion x := by
  cases hl : p.heap.physicalVersion x with
  | none =>
    cases hs' : s.heap.physicalVersion x with
    | none => rfl
    | some u => rw [hs.sub x u hs'] at hl; cases hl
  | some u =>
    cases hs' : s.heap.physicalVersion x with
    | none => exact absurd hx (hs.gone x u hl hs').2.1
    | some u' => rw [hs.sub x u' hs'] at hl; exact hl

/-- **What a vacuum leaves of a pruned chain**: one chain, of the root and the members that pruning leaves. -/
theorem vacuum_pruned_chain (h0 : Mirror (Retired st) t.heap.physicalVersion log origin) (hwf : History.WF log)
    (h : t.vacuum horizon st = .ok (t', r)) (hsel : Selected t root)
    (hc : Linked.Complete t.heap.physicalVersion TupleVersion.nextTid (some root) ((root, vr) :: l)) :
    ∃ vr' l', SameBody vr vr' ∧
      Linked.Complete t'.heap.physicalVersion TupleVersion.nextTid (some root) ((root, vr') :: l') ∧
      SameMembers (prunedRest ((root, vr) :: l) horizon st) l' := by
  obtain ⟨p, s, hp, hs, -, rfl⟩ := vacuum_loops h0 hwf h
  have hnd := hc.path.nodup (h0.ranked hwf)
  have hon : ∀ q ∈ (root, vr) :: l, q.1 ∈ p.processed := fun q hq =>
    (hp.processed_iff q.1).2 ⟨root, hsel, hc.path.reach_of_mem hq⟩
  cases hc with
  | cons _ _ _ hvr hl =>
    have hstored : t.heap.physicalVersion root ≠ none := by rw [hvr]; simp
    obtain ⟨vr', l', hr', hbody, hc', hmem⟩ := @prunedLook_chain (removableOf ((root, vr) :: l) horizon st) l
      t.heap.physicalVersion root vr hvr hl hnd
    have hlook : ∀ x, x = root ∨ x ∈ l.map Prod.fst → s.heap.physicalVersion x =
        prunedLook (removableOf ((root, vr) :: l) horizon st) t.heap.physicalVersion root vr l x := by
      intro x hx
      have hxp : x ∈ p.processed := by
        rcases hx with rfl | hx
        · exact hon (x, vr) List.mem_cons_self
        · obtain ⟨q, hq, rfl⟩ := List.mem_map.1 hx
          exact hon q (List.mem_cons_of_mem _ hq)
      rw [hs.processed_same hxp]
      exact hp.members root vr l hsel hstored hvr hl x hx
    refine ⟨vr', l', hbody, .cons root vr' l' (by rw [hlook root (Or.inl rfl)]; exact hr') (hc'.transfer (fun q' hq' => ?_)),
      hmem⟩
    -- a member that is left is one of the chain
    obtain ⟨q, hq, hqq, -⟩ := hmem.mem_right hq'
    rw [hlook q'.1 (Or.inr (by rw [hqq]; exact List.mem_map.2 ⟨q, (List.mem_filter.1 hq).1, rfl⟩))]
    exact hc'.path.look_of_mem hq'

/-- The versions that stay of a pruned chain, after the root, are not dead, but for the newest. -/
theorem prunedRest_keep {chain : List (TID × TupleVersion)} {q : TID × TupleVersion} (hq : q ∈ prunedRest chain horizon st) :
    classifyVersion q.2 horizon st = .keep ∨ (chain.getLast?).map Prod.fst = some q.1 := by
  obtain ⟨hm, hr⟩ := List.mem_filter.1 hq
  simp only [decide_eq_true_eq] at hr
  by_cases hlast : (chain.getLast?).map Prod.fst = some q.1
  · exact Or.inr hlast
  · exact Or.inl (VersionDisposition.eq_keep (fun hd => hr (mem_removableOf_of hlast hm hd)))

end Chain

/-! ## What a vacuum leaves of the other chains -/

/-- The second loop reclaims the first version of a chain: it is dead and, in an indexed table, the next one is in every index
and is not reclaimed before it. -/
def Sweeps (t : IndexedTable) (horizon : Nat) (st : StatusTable) : List (TID × TupleVersion) → Prop
  | []                    => False
  | [(_, v)]              => classifyVersion v horizon st = .dead
  | (a, v) :: (c, w) :: l => classifyVersion v horizon st = .dead ∧ (t.indexes = [] ∨
      (indexedByAll c w.values t.indexes = .ok true ∧ ¬ (c.before a ∧ Sweeps t horizon st ((c, w) :: l))))

section Others

variable {t t' : IndexedTable} {log : Log} {origin : TID → Nat} {horizon : Nat} {st : StatusTable} {r : VacuumResult}

theorem OnPruned.next {a c : TID} {v : TupleVersion} (h : OnPruned t a) (hv : t.heap.physicalVersion a = some v)
    (hn : v.nextTid = some c) (hc : t.heap.physicalVersion c ≠ none) : OnPruned t c := by
  obtain ⟨root, hs, hreach⟩ := h
  exact ⟨root, hs, hreach.tail ⟨v, hv, hn, hc⟩⟩

theorem vacuum_sweeps (h0 : Mirror (Retired st) t.heap.physicalVersion log origin) (hwf : History.WF log)
    (h : t.vacuum horizon st = .ok (t', r)) : ∀ (l : List (TID × TupleVersion)) {a : TID} {v : TupleVersion}, ¬ OnPruned t a →
      Linked.Complete t.heap.physicalVersion TupleVersion.nextTid (some a) ((a, v) :: l) →
      (t'.heap.physicalVersion a = none ↔ Sweeps t horizon st ((a, v) :: l))
  | [], a, v, ha, hc => by
    cases hc with
    | cons _ _ _ hv hl =>
      rw [vacuum_swept h0 hwf h hv ha]
      have hn : v.nextTid = none := by
        cases hn : v.nextTid with
        | none => rfl
        | some c => rw [hn] at hl; cases hl
      simp [SweptOut, Sweeps, hn]
  | (c, w) :: l, a, v, ha, hc => by
    cases hc with
    | cons _ _ _ hv hl =>
      cases hn : v.nextTid with
      | none => rw [hn] at hl; cases hl
      | some c' =>
        rw [hn] at hl
        cases hl with
        | cons _ _ _ hw hl' =>
          have hstored : t.heap.physicalVersion c ≠ none := by rw [hw]; simp
          have hcp : ¬ OnPruned t c := fun hon => ha (hon.back h0 hwf (by rw [hv]; simp) (.single ⟨v, hv, hn, hstored⟩))
          rw [vacuum_swept h0 hwf h hv ha, SweptOut, Sweeps, ← vacuum_sweeps h0 hwf h l hcp (.cons c w l hw hl')]
          simp only [hn, Option.some.injEq, forall_eq', hw, exists_eq_left']
          exact and_congr_right (fun _ => or_congr_right and_comm)

end Others

/-- **The first vacuum makes no work for a second one.**  On a chain that it prunes, the member that becomes the next of the root
is in no index, so the chain is pruned again; or the members that stay are not dead, and the root is not dead or held back by
that member.  Outside these chains, an indexed version that stays and has lost the version before it, or had none, keeps its
next one, in some index, or it starts a chain of versions that are not dead, on its page. -/
structure Settles (t : IndexedTable) (horizon : Nat) (st : StatusTable) : Prop where
  pruned : ∀ root vr l, Selected t root →
    Linked.Complete t.heap.physicalVersion TupleVersion.nextTid (some root) ((root, vr) :: l) →
    ∃ c w rest, prunedRest ((root, vr) :: l) horizon st = (c, w) :: rest ∧
      (indexedByAny c w.values t.indexes = .ok false ∨
        (indexedByAny c w.values t.indexes = .ok true ∧
          (∀ q ∈ (c, w) :: rest, classifyVersion q.2 horizon st = .keep ∧
            ∃ b, indexedByAll q.1 q.2.values t.indexes = .ok b) ∧
          ¬ (classifyVersion vr horizon st = .dead ∧ indexedByAll c w.values t.indexes = .ok true)))
  others : ∀ a v c w l, ¬ OnPruned t a →
    Linked.Complete t.heap.physicalVersion TupleVersion.nextTid (some a) ((a, v) :: (c, w) :: l) →
    (∀ p u, t.heap.physicalVersion p = some u → u.nextTid = some a → Sweeps t horizon st ((p, u) :: (a, v) :: (c, w) :: l)) →
    ¬ Sweeps t horizon st ((a, v) :: (c, w) :: l) → indexedByAny a v.values t.indexes = .ok true →
    (indexedByAny c w.values t.indexes = .ok true ∧ ¬ Sweeps t horizon st ((c, w) :: l)) ∨
      (indexedByAny c w.values t.indexes = .ok false ∧
        ∀ q ∈ (c, w) :: l, classifyVersion q.2 horizon st = .keep ∧ q.1.pageId = a.pageId)

section Second

variable {t t' : IndexedTable} {log : Log} {origin : TID → Nat} {horizon : Nat} {st : StatusTable} {r : VacuumResult}

section Choice

variable {indexes : List IndexBinding} {conts : List TID} {heap : HeapTable} {a c : TID} {v w : TupleVersion} {sel : Bool}

theorem selects_of_stored (hn : v.nextTid = some c) (ha : a ∉ conts) (hw : heap.physicalVersion c = some w) :
    selects indexes conts heap a v = .ok sel ↔ ∃ i j, indexedByAny a v.values indexes = .ok i ∧
      indexedByAny c w.values indexes = .ok j ∧ sel = (i && !j) := by
  unfold selects
  simp only [hn, if_neg ha, hw]
  constructor
  · intro h
    obtain ⟨i, hi, h⟩ := bind_eq_ok.1 h
    obtain ⟨j, hj, h⟩ := bind_eq_ok.1 h
    cases h
    exact ⟨i, j, hi, hj, rfl⟩
  · rintro ⟨i, j, hi, hj, rfl⟩
    simp only [hi, hj, bind, Except.bind]

theorem selects_of_gone (hn : v.nextTid = some c) (ha : a ∉ conts) (hc : heap.physicalVersion c = none) :
    selects indexes conts heap a v = .ok sel ↔ indexedByAny a v.values indexes = .ok sel := by
  unfold selects
  simp only [hn, if_neg ha, hc]
  cases indexedByAny a v.values indexes with
  | error e => simp [bind, Except.bind]
  | ok b => simp [bind, Except.bind]

theorem selects_of_named (ha : a ∈ conts) : selects indexes conts heap a v = .ok false := by
  unfold selects
  split
  · rfl
  · rw [if_pos ha]

end Choice

variable (h0 : Mirror (Retired st) t.heap.physicalVersion log origin) (hwf : History.WF log)
  (h : t.vacuum horizon st = .ok (t', r))

include h0 hwf h

theorem vacuum_body {a : TID} {v' : TupleVersion} (hv' : t'.heap.physicalVersion a = some v') :
    ∃ v, t.heap.physicalVersion a = some v ∧ SameBody v v' := by
  obtain ⟨p, s, -, -, -, ht, rfl⟩ := vacuum_thinned h0 hwf h
  exact ht.same a v' hv'

theorem vacuum_after_threaded : Threaded t'.heap.physicalVersion origin := by
  obtain ⟨p, s, -, -, -, ht, rfl⟩ := vacuum_thinned h0 hwf h
  exact ht.threaded

theorem vacuum_root_unnamed {root : TID} (hsel : Selected t root) (hr : t'.heap.physicalVersion root ≠ none) :
    root ∉ t'.heap.continuations := by
  intro hm
  obtain ⟨b, u, hb, hn⟩ := HeapTable.mem_continuations.1 hm
  have hth := vacuum_after_threaded h0 hwf h
  obtain ⟨ur, hur⟩ := Option.ne_none_iff_exists'.1 hr
  have hreach : Linked.Reach t.heap.physicalVersion TupleVersion.nextTid b root := by
    obtain ⟨p, s, -, -, -, ht, rfl⟩ := vacuum_thinned h0 hwf h
    exact ht.reach b root (.single ⟨u, hb, hn, hr⟩)
  rcases Relation.ReflTransGen.cases_tail hreach with rfl | ⟨x, -, y, hy, hyn, -⟩
  · rw [hur] at hb
    cases hb
    exact Nat.lt_irrefl _ (hth.ranked _ _ _ _ hur hn hur)
  · exact hsel.not_continuation (HeapTable.mem_continuations.2 ⟨x, y, hy, hyn⟩)

/-- **Outside the pruned chains, a version is a continuation after the vacuum when the version before it stays.** -/
theorem vacuum_named_iff {a : TID} (ha : ¬ OnPruned t a) (has : t'.heap.physicalVersion a ≠ none) :
    a ∈ t'.heap.continuations ↔
      ∃ p u, t.heap.physicalVersion p = some u ∧ u.nextTid = some a ∧ t'.heap.physicalVersion p ≠ none := by
  constructor
  · intro hm
    obtain ⟨p, u, hp, hn⟩ := HeapTable.mem_continuations.1 hm
    have hon : ¬ OnPruned t p := fun hon => ha (vacuum_inner h0 hwf h hon hp hn)
    exact ⟨p, u, vacuum_unpruned h0 hwf h hon hp, hn, by rw [hp]; simp⟩
  · rintro ⟨p, u, hp, hn, hps⟩
    have hon : ¬ OnPruned t p := fun hon => ha (hon.next hp hn (vacuum_stored h0 hwf h has))
    obtain ⟨u', hu'⟩ := Option.ne_none_iff_exists'.1 hps
    have hu := vacuum_unpruned h0 hwf h hon hu'
    rw [hp] at hu
    cases hu
    exact HeapTable.mem_continuations.2 ⟨p, u, hu', hn⟩

omit h0 hwf h in
theorem heldBack_stored {heap : HeapTable} {indexes : List IndexBinding} {c : TID} {v w : TupleVersion} (hn : v.nextTid = some c)
    (hne : indexes ≠ []) (hw : heap.physicalVersion c = some w) {held : Bool} :
    heldBack heap indexes v = .ok held ↔ indexedByAll c w.values indexes = .ok (!held) := by
  unfold heldBack
  simp only [hn, if_neg hne, hw]
  cases indexedByAll c w.values indexes with
  | error e => simp [bind, Except.bind]
  | ok b => cases b <;> cases held <;> simp [bind, Except.bind]

omit h0 hwf h in
theorem prunedRest_ne_nil {q : TID × TupleVersion} {l : List (TID × TupleVersion)} (hne : l ≠ []) :
    prunedRest (q :: l) horizon st ≠ [] := by
  obtain ⟨e, he⟩ := Option.ne_none_iff_exists'.1 (fun hn => hne (List.getLast?_eq_none_iff.1 hn))
  refine List.ne_nil_of_mem (a := e) (List.mem_filter.2 ⟨List.mem_of_getLast? he, decide_eq_true (fun hr => ?_)⟩)
  refine (mem_removableOf hr).1 ?_
  cases l with
  | nil => exact absurd rfl hne
  | cons q' l => rw [List.getLast?_cons_cons, he]; rfl

/-- **The chain of a root that the first vacuum pruned**, with its first two members, before and after. -/
structure SecondChain (t t' : IndexedTable) (horizon : Nat) (st : StatusTable) (root c : TID) (vr vr' w w' : TupleVersion)
    (l rest rest' : List (TID × TupleVersion)) : Prop where
  selected : Selected t root
  before   : Linked.Complete t.heap.physicalVersion TupleVersion.nextTid (some root) ((root, vr) :: l)
  left     : prunedRest ((root, vr) :: l) horizon st = (c, w) :: rest
  body     : SameBody vr vr'
  after    : Linked.Complete t'.heap.physicalVersion TupleVersion.nextTid (some root) ((root, vr') :: (c, w') :: rest')
  next     : vr'.nextTid = some c
  members  : SameMembers ((c, w) :: rest) ((c, w') :: rest')

theorem second_chain {root : TID} {vr : TupleVersion} {l : List (TID × TupleVersion)} (hsel : Selected t root)
    (hc : Linked.Complete t.heap.physicalVersion TupleVersion.nextTid (some root) ((root, vr) :: l)) :
    ∃ c vr' w w' rest rest', SecondChain t t' horizon st root c vr vr' w w' l rest rest' := by
  obtain ⟨vr', l', hbody, hc', hmem⟩ := vacuum_pruned_chain h0 hwf h hsel hc
  have hne : l ≠ [] := by
    rintro rfl
    obtain ⟨u, hu, hs⟩ := hsel
    obtain ⟨-, next, hn⟩ := selects_eq_true hs
    cases hc with
    | cons _ _ _ hv hl =>
      rw [hu] at hv
      cases hv
      rw [hn] at hl
      cases hl
  cases hrest : prunedRest ((root, vr) :: l) horizon st with
  | nil => exact absurd hrest (prunedRest_ne_nil hne)
  | cons q rest =>
    obtain ⟨c, w⟩ := q
    rw [hrest] at hmem
    obtain ⟨q', rest', hq', hrest', rfl⟩ := List.forall₂_cons_left_iff.1 hmem
    obtain ⟨c', w'⟩ := q'
    obtain ⟨rfl, hbw⟩ := hq'
    cases id hc' with
    | cons _ _ _ hvr' hl' =>
      cases hn : vr'.nextTid with
      | none => rw [hn] at hl'; cases hl'
      | some d =>
        rw [hn] at hl'
        cases hl' with
        | cons _ _ _ hw' _ => exact ⟨_, vr', w, w', rest, rest', hsel, hc, hrest, hbody, hc', hn, hmem⟩

theorem second_chain_of_member {a : TID} {v' : TupleVersion} (hon : OnPruned t a) (hv' : t'.heap.physicalVersion a = some v') :
    ∃ root c vr vr' w w' l rest rest', SecondChain t t' horizon st root c vr vr' w w' l rest rest' ∧
      (a, v') ∈ (root, vr') :: (c, w') :: rest' := by
  obtain ⟨root, hsel, hreach⟩ := hon
  obtain ⟨vr, hvr, -⟩ := id hsel
  obtain ⟨l, hl⟩ := exists_chain h0 hwf hvr
  obtain ⟨c, vr', w, w', rest, rest', hk⟩ := second_chain h0 hwf h hsel (.cons root vr l hvr hl)
  have hrs : t'.heap.physicalVersion root ≠ none := by rw [hk.after.path.look_of_mem List.mem_cons_self]; simp
  exact ⟨root, c, vr, vr', w, w', l, rest, rest', hk, hk.after.path.mem_of_reach
    (vacuum_pruned_reach h0 hwf h ⟨root, hsel, .refl⟩ hrs (by rw [hv']; simp) hreach) hv'⟩

section Chain

variable {root c : TID} {vr vr' w w' : TupleVersion} {l rest rest' : List (TID × TupleVersion)}

omit h0 hwf h in
theorem SecondChain.root_look (hk : SecondChain t t' horizon st root c vr vr' w w' l rest rest') :
    t'.heap.physicalVersion root = some vr' := hk.after.path.look_of_mem List.mem_cons_self

omit h0 hwf h in
theorem SecondChain.next_look (hk : SecondChain t t' horizon st root c vr vr' w w' l rest rest') :
    t'.heap.physicalVersion c = some w' := hk.after.path.look_of_mem (List.mem_cons_of_mem _ List.mem_cons_self)

omit h0 hwf h in
theorem SecondChain.next_values (hk : SecondChain t t' horizon st root c vr vr' w w' l rest rest') : w'.values = w.values := by
  cases hk.members with
  | cons hq _ => exact hq.2.2.2

end Chain

theorem SecondChain.selects_iff {root c : TID} {vr vr' w w' : TupleVersion} {l rest rest' : List (TID × TupleVersion)}
    (hk : SecondChain t t' horizon st root c vr vr' w w' l rest rest') {sel : Bool} :
    selects t'.indexes t'.heap.continuations t'.heap root vr' = .ok sel ↔
      indexedByAny c w.values t.indexes = .ok (!sel) := by
  have hrs : t'.heap.physicalVersion root ≠ none := by rw [hk.root_look]; simp
  have hcs : t'.heap.physicalVersion c ≠ none := by rw [hk.next_look]; simp
  -- the root is in an index
  have htrue : indexedByAny root vr'.values t'.indexes = .ok true := by
    obtain ⟨u, hu, hsel'⟩ := id hk.selected
    obtain ⟨hconts, next, hnext⟩ := selects_eq_true hsel'
    obtain ⟨w, hw⟩ := Option.ne_none_iff_exists'.1 (h0.named root u next hu hnext).1
    obtain ⟨i, j, hi, -, hij⟩ := (selects_of_stored hnext hconts hw).1 hsel'
    have hvr := hk.before.path.look_of_mem List.mem_cons_self
    rw [hu] at hvr
    cases hvr
    rw [(vacuum_tests h0 hwf h hrs _).1, hk.body.2.2, hi]
    cases i with
    | true => rfl
    | false => cases hij
  rw [selects_of_stored hk.next (vacuum_root_unnamed h0 hwf h hk.selected hrs) hk.next_look, htrue,
    (vacuum_tests h0 hwf h hcs _).1, hk.next_values]
  constructor
  · rintro ⟨i, j, hi, hj, rfl⟩
    cases hi
    simpa using hj
  · intro hc
    exact ⟨true, !sel, rfl, hc, by simp⟩

theorem SecondChain.selected_iff {root c : TID} {vr vr' w w' : TupleVersion} {l rest rest' : List (TID × TupleVersion)}
    (hk : SecondChain t t' horizon st root c vr vr' w w' l rest rest') :
    Selected t' root ↔ indexedByAny c w.values t.indexes = .ok false := by
  rw [← Bool.not_true, ← hk.selects_iff h0 hwf h]
  refine ⟨fun ⟨u, hu, hs⟩ => ?_, fun hs => ⟨vr', hk.root_look, hs⟩⟩
  rw [hk.root_look] at hu
  cases hu
  exact hs

/-- The versions of such a chain are on a chain that the second vacuum prunes only when it prunes this one. -/
theorem second_onPruned {root : TID} (hsel : Selected t root) {x : TID} (hr : t'.heap.physicalVersion root ≠ none)
    (hreach : Linked.Reach t'.heap.physicalVersion TupleVersion.nextTid root x) : OnPruned t' x ↔ Selected t' root := by
  refine ⟨fun ⟨root', hs', hreach'⟩ => ?_, fun hs => ⟨root, hs, hreach⟩⟩
  have hth := vacuum_after_threaded h0 hwf h
  have hunnamed :
      ∀ {y : TID}, y ∉ t'.heap.continuations → ∀ b, ¬ Linked.Link t'.heap.physicalVersion TupleVersion.nextTid b y := by
    rintro y hy b ⟨u, hu, hn, -⟩
    exact hy (HeapTable.mem_continuations.2 ⟨b, u, hu, hn⟩)
  obtain rfl := Linked.root_unique hth.unshared hreach hreach' (hunnamed (vacuum_root_unnamed h0 hwf h hsel hr))
    (hunnamed hs'.not_continuation)
  exact hs'

omit h0 hwf h in
theorem classify_body {v v' : TupleVersion} (hb : SameBody v v') :
    classifyVersion v' horizon st = classifyVersion v horizon st := by
  unfold classifyVersion
  rw [hb.1, hb.2.1]

theorem second_last {root root' : TID} {chain chain' : List (TID × TupleVersion)}
    (hc : Linked.Complete t.heap.physicalVersion TupleVersion.nextTid (some root) chain)
    (hc' : Linked.Complete t'.heap.physicalVersion TupleVersion.nextTid (some root') chain') {a : TID}
    (hlast : (chain.getLast?).map Prod.fst = some a) {q : TID × TupleVersion} (hq : q ∈ chain') (hqa : q.1 = a) :
    q.2.nextTid = none := by
  obtain ⟨e, he, rfl⟩ := Option.map_eq_some_iff.1 hlast
  have hlook := hc.path.look_of_mem (List.mem_of_getLast? he)
  cases hn : q.2.nextTid with
  | none => rfl
  | some d =>
    obtain ⟨w, hw⟩ := hc'.next_mem hq hn
    have hq' := hc'.path.look_of_mem hq
    have hd := hc'.path.look_of_mem hw
    have hlt := (vacuum_after_threaded h0 hwf h).ranked q.1 q.2 d w hq' hn hd
    have hreach : Linked.Reach t.heap.physicalVersion TupleVersion.nextTid q.1 d := by
      obtain ⟨p, s, -, -, -, ht, rfl⟩ := vacuum_thinned h0 hwf h
      exact ht.reach q.1 d (.single ⟨q.2, hq', hn, by rw [hd]; simp⟩)
    rcases Relation.ReflTransGen.cases_head hreach with he' | ⟨x, ⟨y, hy, hyn, -⟩, -⟩
    · rw [he'] at hlt
      exact absurd hlt (Nat.lt_irrefl _)
    · rw [hqa, hlook] at hy
      cases hy
      rw [hc.last_next he] at hyn
      cases hyn

theorem settled_pruned (hs : Settled t' horizon st) {root : TID} {vr : TupleVersion} {l : List (TID × TupleVersion)}
    (hsel : Selected t root)
    (hc : Linked.Complete t.heap.physicalVersion TupleVersion.nextTid (some root) ((root, vr) :: l)) :
    ∃ c w rest, prunedRest ((root, vr) :: l) horizon st = (c, w) :: rest ∧
      (indexedByAny c w.values t.indexes = .ok false ∨
        (indexedByAny c w.values t.indexes = .ok true ∧
          (∀ q ∈ (c, w) :: rest, classifyVersion q.2 horizon st = .keep ∧
            ∃ b, indexedByAll q.1 q.2.values t.indexes = .ok b) ∧
          ¬ (classifyVersion vr horizon st = .dead ∧ indexedByAll c w.values t.indexes = .ok true))) := by
  obtain ⟨c, vr', w, w', rest, rest', hk⟩ := second_chain h0 hwf h hsel hc
  have hc' := hk.after
  have hrs : t'.heap.physicalVersion root ≠ none := by rw [hk.root_look]; simp
  refine ⟨c, w, rest, hk.left, ?_⟩
  obtain ⟨sel, hsel'⟩ := hs.tests root vr' hk.root_look
  have htest := (hk.selects_iff h0 hwf h).1 hsel'
  cases sel with
  | true => exact Or.inl htest
  | false =>
    refine Or.inr ⟨htest, ?_⟩
    have hnot : ¬ Selected t' root := by
      rw [hk.selected_iff h0 hwf h, htest]
      simp
    have hne : t'.indexes ≠ [] := by
      rw [ne_eq, vacuum_nil_iff h0 hwf h]
      intro hnil
      rw [hnil] at htest
      cases htest
    have hheld : ∀ q ∈ (root, vr') :: (c, w') :: rest', heldBack t'.heap t'.indexes q.2 = .ok true ∨
        (heldBack t'.heap t'.indexes q.2 = .ok false ∧ classifyVersion q.2 horizon st = .keep) := fun q hq =>
      hs.held q.1 q.2 (hc'.path.look_of_mem hq) (fun hon =>
        hnot ((second_onPruned h0 hwf h hsel hrs (hc'.path.reach_of_mem hq)).1 hon))
    refine ⟨fun q hq => ?_, ?_⟩
    · obtain ⟨q', hq', hqq, hbq⟩ := hk.members.mem_left hq
      have hq's : t'.heap.physicalVersion q'.1 ≠ none := by
        rw [hc'.path.look_of_mem (List.mem_cons_of_mem _ hq')]; simp
      constructor
      · -- the newest member is not held back
        rcases prunedRest_keep (hk.left ▸ hq) with hkeep | hlast
        · exact hkeep
        · have hnone := second_last h0 hwf h hc hc' hlast (List.mem_cons_of_mem _ hq') hqq
          have hq0 := hheld q' (List.mem_cons_of_mem _ hq')
          simp only [heldBack, hnone, Except.ok.injEq, Bool.false_eq_true, true_and, false_or, classify_body hbq] at hq0
          exact hq0
      · obtain ⟨e, he, hen⟩ : ∃ e ∈ (root, vr') :: (c, w') :: rest', e.2.nextTid = some q'.1 := by
          cases hc' with
          | cons _ _ _ _ hl' =>
            rcases hl'.path.mem_cases hq' with hpn | ⟨e, he, hen⟩
            · exact ⟨(root, vr'), List.mem_cons_self, hpn⟩
            · exact ⟨e, List.mem_cons_of_mem _ he, hen⟩
        have hq'look := hc'.path.look_of_mem (List.mem_cons_of_mem _ hq')
        have heval : ∃ b, heldBack t'.heap t'.indexes e.2 = .ok b := by
          rcases hheld e he with hb | ⟨hb, -⟩
          · exact ⟨_, hb⟩
          · exact ⟨_, hb⟩
        obtain ⟨b, hb⟩ := heval
        rw [heldBack_stored hen hne hq'look, (vacuum_tests h0 hwf h hq's _).2, hqq, hbq.2.2] at hb
        exact ⟨_, hb⟩
    · rintro ⟨hdead, hall⟩
      have hc0 := hheld (root, vr') List.mem_cons_self
      have hcs : t'.heap.physicalVersion c ≠ none := by rw [hk.next_look]; simp
      rw [heldBack_stored hk.next hne hk.next_look, heldBack_stored hk.next hne hk.next_look, (vacuum_tests h0 hwf h hcs _).2,
        hk.next_values, hall, classify_body hk.body, hdead] at hc0
      simp at hc0

theorem vacuum_unpruned_look {a : TID} {v : TupleVersion} (ha : ¬ OnPruned t a) (hv : t.heap.physicalVersion a = some v)
    (has : t'.heap.physicalVersion a ≠ none) : t'.heap.physicalVersion a = some v := by
  obtain ⟨v', hv'⟩ := Option.ne_none_iff_exists'.1 has
  have hsame := vacuum_unpruned h0 hwf h ha hv'
  rw [hv] at hsame
  cases hsame
  exact hv'

/-- Outside the pruned chains, a version is a root for the second vacuum when the version before it goes. -/
theorem second_root {a : TID} {v : TupleVersion} {l : List (TID × TupleVersion)} (ha : ¬ OnPruned t a)
    (hc : Linked.Complete t.heap.physicalVersion TupleVersion.nextTid (some a) ((a, v) :: l))
    (has : t'.heap.physicalVersion a ≠ none) :
    a ∉ t'.heap.continuations ↔ ∀ p u, t.heap.physicalVersion p = some u → u.nextTid = some a →
      Sweeps t horizon st ((p, u) :: (a, v) :: l) := by
  have hstored : t.heap.physicalVersion a ≠ none := vacuum_stored h0 hwf h has
  have hgone : ∀ {p : TID} {u : TupleVersion}, t.heap.physicalVersion p = some u → u.nextTid = some a →
      (t'.heap.physicalVersion p = none ↔ Sweeps t horizon st ((p, u) :: (a, v) :: l)) := by
    intro p u hp hn
    exact vacuum_sweeps h0 hwf h _ (fun hon => ha (hon.next hp hn hstored)) (.cons p u _ hp (by rw [hn]; exact hc))
  rw [vacuum_named_iff h0 hwf h ha has]
  constructor
  · intro hno p u hp hn
    rw [← hgone hp hn]
    by_contra hps
    exact hno ⟨p, u, hp, hn, hps⟩
  · rintro hall ⟨p, u, hp, hn, hps⟩
    exact hps ((hgone hp hn).2 (hall p u hp hn))

theorem second_newest {a : TID} {v : TupleVersion} (ha : ¬ OnPruned t a) (hv : t.heap.physicalVersion a = some v)
    (has : t'.heap.physicalVersion a ≠ none) (hn : v.nextTid = none) : classifyVersion v horizon st = .keep := by
  refine VersionDisposition.eq_keep (fun hd => has ((vacuum_swept h0 hwf h hv ha).2 ⟨hd, fun c hc => ?_⟩))
  rw [hn] at hc
  cases hc

theorem settled_others (hs : Settled t' horizon st) {a c : TID} {v w : TupleVersion} {l : List (TID × TupleVersion)}
    (ha : ¬ OnPruned t a)
    (hc : Linked.Complete t.heap.physicalVersion TupleVersion.nextTid (some a) ((a, v) :: (c, w) :: l))
    (hpred : ∀ p u, t.heap.physicalVersion p = some u → u.nextTid = some a →
      Sweeps t horizon st ((p, u) :: (a, v) :: (c, w) :: l))
    (hstay : ¬ Sweeps t horizon st ((a, v) :: (c, w) :: l)) (hidx : indexedByAny a v.values t.indexes = .ok true) :
    (indexedByAny c w.values t.indexes = .ok true ∧ ¬ Sweeps t horizon st ((c, w) :: l)) ∨
      (indexedByAny c w.values t.indexes = .ok false ∧
        ∀ q ∈ (c, w) :: l, classifyVersion q.2 horizon st = .keep ∧ q.1.pageId = a.pageId) := by
  have has : t'.heap.physicalVersion a ≠ none := fun hgone => hstay ((vacuum_sweeps h0 hwf h _ ha hc).1 hgone)
  have hv := hc.path.look_of_mem List.mem_cons_self
  have hw := hc.path.look_of_mem (List.mem_cons_of_mem _ List.mem_cons_self)
  have hv' := vacuum_unpruned_look h0 hwf h ha hv has
  have hroot := (second_root h0 hwf h ha hc has).2 hpred
  obtain ⟨hn, hl⟩ : v.nextTid = some c ∧ Linked.Complete t.heap.physicalVersion TupleVersion.nextTid (some c) ((c, w) :: l) := by
    cases hc with
    | cons _ _ _ _ hl =>
      cases hn : v.nextTid with
      | none => rw [hn] at hl; cases hl
      | some d =>
        rw [hn] at hl
        cases hl with
        | cons _ _ _ hw hl => exact ⟨rfl, .cons c w l hw hl⟩
  have hcp : ¬ OnPruned t c := fun hon => ha (hon.back h0 hwf (by rw [hv]; simp) (.single ⟨v, hv, hn, by rw [hw]; simp⟩))
  have hidx' : indexedByAny a v.values t'.indexes = .ok true := by rw [(vacuum_tests h0 hwf h has _).1]; exact hidx
  obtain ⟨sel, hsel⟩ := hs.tests a v hv'
  by_cases hcs : t'.heap.physicalVersion c = none
  · -- the walk of the second vacuum would end at a dead slot
    rw [selects_of_gone hn hroot hcs, hidx', Except.ok.injEq] at hsel
    obtain ⟨l₀, hcomp, -⟩ := hs.chains a ⟨v, hv', (selects_of_gone hn hroot hcs).2 hidx'⟩
    obtain ⟨u, hu⟩ := hcomp.next_mem (hcomp.path.head_mem hv') hn
    rw [hcomp.path.look_of_mem hu] at hcs
    cases hcs
  · have hw' := vacuum_unpruned_look h0 hwf h hcp hw hcs
    obtain ⟨i, j, hi, hj, rfl⟩ := (selects_of_stored hn hroot hw').1 hsel
    rw [hidx', Except.ok.injEq] at hi
    subst hi
    rw [(vacuum_tests h0 hwf h hcs _).1] at hj
    cases j with
    | true => exact Or.inl ⟨hj, fun hsw => hcs ((vacuum_sweeps h0 hwf h l hcp hl).2 hsw)⟩
    | false =>
      refine Or.inr ⟨hj, ?_⟩
      obtain ⟨l₀, hcomp, hpage, hnone⟩ := hs.chains a ⟨v, hv', hsel⟩
      have hout : ∀ q ∈ l₀, ¬ OnPruned t q.1 := by
        intro q hq hon
        refine ha (hon.back h0 hwf (by rw [hv]; simp) ?_)
        obtain ⟨p, s, -, -, -, ht, rfl⟩ := vacuum_thinned h0 hwf h
        exact ht.reach a q.1 (hcomp.path.reach_of_mem hq)
      -- nothing of the chain is gone
      have hsame : l₀ = (a, v) :: (c, w) :: l := Linked.Path.unique (hcomp.transfer (fun q hq =>
        vacuum_unpruned h0 hwf h (hout q hq) (hcomp.path.look_of_mem hq))).path hc.path
      subst hsame
      intro q hq
      refine ⟨VersionDisposition.eq_keep (fun hd => ?_), hpage q (List.mem_cons_of_mem _ hq)⟩
      have hq' := List.mem_cons_of_mem (a, v) hq
      by_cases hlast : (((a, v) :: (c, w) :: l).getLast?).map Prod.fst = some q.1
      · have hqn := second_last h0 hwf h hc hcomp hlast hq' rfl
        have hkeep := second_newest h0 hwf h (hout q hq') (hc.path.look_of_mem hq') (by rw [hcomp.path.look_of_mem hq']; simp) hqn
        rw [hkeep] at hd
        cases hd
      · have hmem := mem_removableOf_of hlast hq hd
        rw [hnone] at hmem
        cases hmem

theorem second_root_indexed {a c : TID} {v w : TupleVersion} (ha : ¬ OnPruned t a) (hv : t.heap.physicalVersion a = some v)
    (hn : v.nextTid = some c) (hw : t.heap.physicalVersion c = some w) (has : t'.heap.physicalVersion a ≠ none)
    (hroot : a ∉ t'.heap.continuations) :
    indexedByAny a v.values t.indexes = .ok true ∨
      (indexedByAny a v.values t.indexes = .ok false ∧ ∃ j, indexedByAny c w.values t.indexes = .ok j) := by
  by_cases hcont : a ∈ t.heap.continuations
  · obtain ⟨p, u, hp, hpn⟩ := HeapTable.mem_continuations.1 hcont
    have hstored : t.heap.physicalVersion a ≠ none := by rw [hv]; simp
    have hpo : ¬ OnPruned t p := fun hon => ha (hon.next hp hpn hstored)
    have hgone : t'.heap.physicalVersion p = none := by
      by_contra hps
      exact hroot ((vacuum_named_iff h0 hwf h ha has).2 ⟨p, u, hp, hpn, hps⟩)
    rcases ((vacuum_swept h0 hwf h hp hpo).1 hgone).2 a hpn with hnil | ⟨-, v₀, hv₀, hall⟩
    · rw [hnil]
      exact Or.inr ⟨rfl, _, rfl⟩
    · rw [hv] at hv₀
      cases hv₀
      by_cases hnil : t.indexes = []
      · rw [hnil]
        exact Or.inr ⟨rfl, _, rfl⟩
      · exact Or.inl (indexedByAny_of_all hnil hall)
  · obtain ⟨b, hb⟩ := vacuum_selects h0 hwf h hv
    obtain ⟨i, j, hi, hj, -⟩ := (selects_of_stored hn hcont hw).1 hb
    cases i with
    | true => exact Or.inl hi
    | false => exact Or.inr ⟨hi, j, hj⟩

omit h in
theorem exists_suffix {a c : TID} {v : TupleVersion} (hv : t.heap.physicalVersion a = some v) (hn : v.nextTid = some c) :
    ∃ w l, t.heap.physicalVersion c = some w ∧
      Linked.Complete t.heap.physicalVersion TupleVersion.nextTid (some a) ((a, v) :: (c, w) :: l) := by
  obtain ⟨l, hl⟩ := exists_chain h0 hwf hv
  have hc : Linked.Complete t.heap.physicalVersion TupleVersion.nextTid (some a) ((a, v) :: l) := .cons a v l hv hl
  rw [hn] at hl
  cases hl with
  | cons _ w l hw _ => exact ⟨w, l, hw, hc⟩

theorem Settles.at_root (hset : Settles t horizon st) {a c : TID} {v w : TupleVersion} {l : List (TID × TupleVersion)}
    (ha : ¬ OnPruned t a)
    (hc : Linked.Complete t.heap.physicalVersion TupleVersion.nextTid (some a) ((a, v) :: (c, w) :: l))
    (has : t'.heap.physicalVersion a ≠ none) (hroot : a ∉ t'.heap.continuations)
    (hidx : indexedByAny a v.values t.indexes = .ok true) :
    (indexedByAny c w.values t.indexes = .ok true ∧ ¬ Sweeps t horizon st ((c, w) :: l)) ∨
      (indexedByAny c w.values t.indexes = .ok false ∧
        ∀ q ∈ (c, w) :: l, classifyVersion q.2 horizon st = .keep ∧ q.1.pageId = a.pageId) :=
  hset.others a v c w l ha hc ((second_root h0 hwf h ha hc has).1 hroot)
    (fun hsw => has ((vacuum_sweeps h0 hwf h _ ha hc).2 hsw)) hidx

omit h0 hwf h in
theorem Settles.at_pruned (hset : Settles t horizon st) {root c : TID} {vr vr' w w' : TupleVersion}
    {l rest rest' : List (TID × TupleVersion)} (hk : SecondChain t t' horizon st root c vr vr' w w' l rest rest') :
    indexedByAny c w.values t.indexes = .ok false ∨
      (indexedByAny c w.values t.indexes = .ok true ∧
        (∀ q ∈ (c, w) :: rest, classifyVersion q.2 horizon st = .keep ∧
          ∃ b, indexedByAll q.1 q.2.values t.indexes = .ok b) ∧
        ¬ (classifyVersion vr horizon st = .dead ∧ indexedByAll c w.values t.indexes = .ok true)) := by
  obtain ⟨c₀, w₀, rest₀, hrest, halt⟩ := hset.pruned root vr l hk.selected hk.before
  rw [hk.left] at hrest
  cases hrest
  exact halt

omit h0 hwf h in
theorem SecondChain.eq_root {root c : TID} {vr vr' w w' : TupleVersion} {l rest rest' : List (TID × TupleVersion)}
    (hk : SecondChain t t' horizon st root c vr vr' w w' l rest rest') {a : TID} {v' : TupleVersion}
    (hm : (a, v') ∈ (root, vr') :: (c, w') :: rest') (ha : a ∉ t'.heap.continuations) : a = root ∧ v' = vr' := by
  rcases List.mem_cons.1 hm with he | hm
  · exact Prod.mk.inj he
  · refine absurd ?_ ha
    cases hk.after with
    | cons _ _ _ hr hl =>
      rcases hl.path.mem_cases hm with hn | ⟨q, hq, hn⟩
      · exact HeapTable.mem_continuations.2 ⟨root, vr', hr, hn⟩
      · exact HeapTable.mem_continuations.2 ⟨q.1, q.2, hl.path.look_of_mem hq, hn⟩

theorem settles_tests (hset : Settles t horizon st) {a : TID} {v' : TupleVersion} (hv' : t'.heap.physicalVersion a = some v') :
    ∃ b, selects t'.indexes t'.heap.continuations t'.heap a v' = .ok b := by
  have has : t'.heap.physicalVersion a ≠ none := by rw [hv']; simp
  by_cases hroot : a ∈ t'.heap.continuations
  · exact ⟨false, selects_of_named hroot⟩
  by_cases hon : OnPruned t a
  · obtain ⟨root, c, vr, vr', w, w', l, rest, rest', hk, hmem⟩ := second_chain_of_member h0 hwf h hon hv'
    obtain ⟨rfl, rfl⟩ := hk.eq_root hmem hroot
    rcases hset.at_pruned hk with hfalse | ⟨htrue, -⟩
    · exact ⟨true, (hk.selects_iff h0 hwf h).2 hfalse⟩
    · exact ⟨false, (hk.selects_iff h0 hwf h).2 htrue⟩
  · have hv := vacuum_unpruned h0 hwf h hon hv'
    cases hn : v'.nextTid with
    | none => exact ⟨false, by simp only [selects, hn]⟩
    | some c =>
      obtain ⟨w, l, hw, hc⟩ := exists_suffix h0 hwf hv hn
      have hcp : ¬ OnPruned t c := fun hp => hon (hp.back h0 hwf (by rw [hv]; simp) (.single ⟨v', hv, hn, by rw [hw]; simp⟩))
      have htests := second_root_indexed h0 hwf h hon hv hn hw has hroot
      by_cases hcs : t'.heap.physicalVersion c = none
      · rcases htests with hi | ⟨hi, -⟩
        · exact ⟨true, (selects_of_gone hn hroot hcs).2 (by rw [(vacuum_tests h0 hwf h has _).1]; exact hi)⟩
        · exact ⟨false, (selects_of_gone hn hroot hcs).2 (by rw [(vacuum_tests h0 hwf h has _).1]; exact hi)⟩
      · have hw' := vacuum_unpruned_look h0 hwf h hcp hw hcs
        have hj : ∃ i j, indexedByAny a v'.values t.indexes = .ok i ∧ indexedByAny c w.values t.indexes = .ok j := by
          rcases htests with hi | ⟨hi, j, hj⟩
          · rcases hset.at_root h0 hwf h hon hc has hroot hi with ⟨hj, -⟩ | ⟨hj, -⟩
            · exact ⟨_, _, hi, hj⟩
            · exact ⟨_, _, hi, hj⟩
          · exact ⟨_, _, hi, hj⟩
        obtain ⟨i, j, hi, hj⟩ := hj
        refine ⟨i && !j, (selects_of_stored hn hroot hw').2 ⟨i, j, ?_, ?_, rfl⟩⟩
        · rw [(vacuum_tests h0 hwf h has _).1]; exact hi
        · rw [(vacuum_tests h0 hwf h hcs _).1]; exact hj

theorem pruned_page {root a : TID} (hsel : Selected t root)
    (hreach : Linked.Reach t.heap.physicalVersion TupleVersion.nextTid root a) : a.pageId = root.pageId := by
  obtain ⟨p, s, hp, -, -, rfl⟩ := vacuum_loops h0 hwf h
  induction hreach with
  | refl => rfl
  | @tail x y hr hlink ih =>
    exact (hp.page x y hlink ((hp.processed_iff y).2 ⟨root, hsel, hr.tail hlink⟩)).trans ih

theorem settles_chains (hset : Settles t horizon st) {a : TID} (hsel' : Selected t' a) :
    ∃ l, Linked.Complete t'.heap.physicalVersion TupleVersion.nextTid (some a) l ∧ (∀ q ∈ l, q.1.pageId = a.pageId) ∧
      removableOf l horizon st = [] := by
  obtain ⟨v', hv', hs'⟩ := id hsel'
  have hroot := hsel'.not_continuation
  have has : t'.heap.physicalVersion a ≠ none := by rw [hv']; simp
  by_cases hon : OnPruned t a
  · obtain ⟨root, c, vr, vr', w, w', l, rest, rest', hk, hmem⟩ := second_chain_of_member h0 hwf h hon hv'
    obtain ⟨rfl, rfl⟩ := hk.eq_root hmem hroot
    refine ⟨_, hk.after, fun q hq => ?_, List.eq_nil_iff_forall_not_mem.2 (fun x hx => ?_)⟩
    · refine pruned_page h0 hwf h hk.selected ?_
      obtain ⟨p, s, -, -, -, ht, rfl⟩ := vacuum_thinned h0 hwf h
      exact ht.reach _ q.1 (hk.after.path.reach_of_mem hq)
    · -- an inner member that stays is not dead
      obtain ⟨hlast, u, hu, hdead⟩ := mem_removableOf hx
      have hu' : (x, u) ∈ (c, w') :: rest' := hu
      obtain ⟨q, hq, hqx, hbody⟩ := hk.members.mem_right hu'
      simp only at hqx hbody
      rw [classify_body hbody] at hdead
      rcases prunedRest_keep (hk.left ▸ hq) with hkeep | hnewest
      · rw [hkeep] at hdead
        cases hdead
      · have hne := hk.after.next_ne_none (List.mem_cons_of_mem _ hu') hlast
        exact hne (second_last h0 hwf h hk.before hk.after hnewest (List.mem_cons_of_mem _ hu') hqx)
  · have hv := vacuum_unpruned h0 hwf h hon hv'
    obtain ⟨-, c, hn⟩ := selects_eq_true hs'
    obtain ⟨w, l, hw, hc⟩ := exists_suffix h0 hwf hv hn
    have hcp : ¬ OnPruned t c := fun hp => hon (hp.back h0 hwf (by rw [hv]; simp) (.single ⟨v', hv, hn, by rw [hw]; simp⟩))
    have hlc : Linked.Complete t.heap.physicalVersion TupleVersion.nextTid (some c) ((c, w) :: l) := by
      cases hc with
      | cons _ _ _ _ hl =>
        rw [hn] at hl
        exact hl
    -- it is in an index, and its next one is gone or in none
    obtain ⟨hidx, hnext⟩ : indexedByAny a v'.values t.indexes = .ok true ∧
        (t'.heap.physicalVersion c ≠ none → indexedByAny c w.values t.indexes = .ok false) := by
      rw [← (vacuum_tests h0 hwf h has v'.values).1]
      by_cases hcs : t'.heap.physicalVersion c = none
      · exact ⟨(selects_of_gone hn hroot hcs).1 hs', fun hne => absurd hcs hne⟩
      · obtain ⟨i, j, hi, hj, hij⟩ := (selects_of_stored hn hroot (vacuum_unpruned_look h0 hwf h hcp hw hcs)).1 hs'
        rw [(vacuum_tests h0 hwf h hcs _).1] at hj
        cases i <;> cases j <;> simp at hij
        exact ⟨hi, fun _ => hj⟩
    rcases hset.at_root h0 hwf h hon hc has hroot hidx with ⟨htrue, hstay⟩ | ⟨-, hall⟩
    · have hfalse := hnext (fun hgone => hstay ((vacuum_sweeps h0 hwf h l hcp hlc).1 hgone))
      rw [htrue] at hfalse
      cases hfalse
    · have hlook : ∀ q ∈ (a, v') :: (c, w) :: l, t'.heap.physicalVersion q.1 = some q.2 := by
        intro q hq
        rcases List.mem_cons.1 hq with rfl | hq'
        · exact hv'
        · have hqo : ¬ OnPruned t q.1 := fun hp => hon (hp.back h0 hwf (by rw [hv]; simp) (hc.path.reach_of_mem hq))
          have hqt := hc.path.look_of_mem hq
          exact vacuum_unpruned_look h0 hwf h hqo hqt (vacuum_kept h0 hwf h hqt (hall q hq').1)
      refine ⟨_, hc.transfer hlook, fun q hq => ?_, List.eq_nil_iff_forall_not_mem.2 (fun x hx => ?_)⟩
      · rcases List.mem_cons.1 hq with rfl | hq'
        · rfl
        · exact (hall q hq').2
      · obtain ⟨-, u, hu, hdead⟩ := mem_removableOf hx
        rw [(hall (x, u) hu).1] at hdead
        cases hdead

theorem settles_held (hset : Settles t horizon st) {a : TID} {v' : TupleVersion} (hv' : t'.heap.physicalVersion a = some v')
    (hno : ¬ OnPruned t' a) : heldBack t'.heap t'.indexes v' = .ok true ∨
      (heldBack t'.heap t'.indexes v' = .ok false ∧ classifyVersion v' horizon st = .keep) := by
  have has : t'.heap.physicalVersion a ≠ none := by rw [hv']; simp
  by_cases hon : OnPruned t a
  · obtain ⟨root, c, vr, vr', w, w', l, rest, rest', hk, hmem⟩ := second_chain_of_member h0 hwf h hon hv'
    have hnot : ¬ Selected t' root := fun hs => hno ⟨root, hs, hk.after.path.reach_of_mem hmem⟩
    obtain ⟨htrue, hrest, hdead⟩ := (hset.at_pruned hk).resolve_left (fun hf => hnot ((hk.selected_iff h0 hwf h).2 hf))
    have hne : t'.indexes ≠ [] := by
      rw [ne_eq, vacuum_nil_iff h0 hwf h]
      intro hnil
      rw [hnil] at htrue
      cases htrue
    -- the test of a member after the root
    have htest : ∀ d e, (d, e) ∈ (c, w') :: rest' → ∃ b, indexedByAll d e.values t'.indexes = .ok b := by
      intro d e hde
      obtain ⟨q, hq, hqd, hbody⟩ := hk.members.mem_right hde
      obtain ⟨b, hb⟩ := (hrest q hq).2
      have hds : t'.heap.physicalVersion d ≠ none := by rw [hk.after.path.look_of_mem (List.mem_cons_of_mem _ hde)]; simp
      simp only at hqd hbody
      exact ⟨b, by rw [(vacuum_tests h0 hwf h hds _).2, hqd, hbody.2.2]; exact hb⟩
    rcases List.mem_cons.1 hmem with he | hm
    · obtain ⟨rfl, rfl⟩ := Prod.mk.inj he
      obtain ⟨b, hb⟩ := htest c w' List.mem_cons_self
      cases b with
      | false => exact Or.inl ((heldBack_stored hk.next hne hk.next_look).2 hb)
      | true =>
        refine Or.inr ⟨(heldBack_stored hk.next hne hk.next_look).2 hb, VersionDisposition.eq_keep (fun hd => hdead ?_)⟩
        have hcs : t'.heap.physicalVersion c ≠ none := by rw [hk.next_look]; simp
        rw [(vacuum_tests h0 hwf h hcs _).2, hk.next_values] at hb
        exact ⟨by rw [← classify_body hk.body]; exact hd, hb⟩
    · have hkeep : classifyVersion v' horizon st = .keep := by
        obtain ⟨q, hq, -, hbody⟩ := hk.members.mem_right hm
        rw [classify_body hbody]
        exact (hrest q hq).1
      cases hn : v'.nextTid with
      | none => exact Or.inr ⟨by simp only [heldBack, hn], hkeep⟩
      | some d =>
        obtain ⟨e, hde⟩ := hk.after.next_mem (List.mem_cons_of_mem _ hm) hn
        have hdr : (d, e) ∈ (c, w') :: rest' := by
          refine (List.mem_cons.1 hde).resolve_left (fun he => ?_)
          obtain ⟨rfl, -⟩ := Prod.mk.inj he
          exact vacuum_root_unnamed h0 hwf h hk.selected (by rw [hk.root_look]; simp)
            (HeapTable.mem_continuations.2 ⟨a, v', hv', hn⟩)
        obtain ⟨b, hb⟩ := htest d e hdr
        have hd := hk.after.path.look_of_mem hde
        cases b with
        | false => exact Or.inl ((heldBack_stored hn hne hd).2 hb)
        | true => exact Or.inr ⟨(heldBack_stored hn hne hd).2 hb, hkeep⟩
  · have hv := vacuum_unpruned h0 hwf h hon hv'
    -- a version that stays is not one the second loop reclaims
    have hstay : ∀ {c}, v'.nextTid = some c → (t.indexes = [] ∨ (t'.heap.physicalVersion c ≠ none ∧
        ∃ w, t.heap.physicalVersion c = some w ∧ indexedByAll c w.values t.indexes = .ok true)) →
        classifyVersion v' horizon st = .keep := by
      refine fun hn hrec => VersionDisposition.eq_keep (fun hd => has ((vacuum_swept h0 hwf h hv hon).2 ⟨hd, fun d hdn => ?_⟩))
      rw [hn, Option.some.injEq] at hdn
      subst hdn
      exact hrec.imp_right (fun ⟨hcs, hw⟩ => ⟨fun hb => hcs hb.2, hw⟩)
    cases hn : v'.nextTid with
    | none => exact Or.inr ⟨by simp only [heldBack, hn], second_newest h0 hwf h hon hv has hn⟩
    | some c =>
      by_cases hnil : t.indexes = []
      · have hnil' := (vacuum_nil_iff h0 hwf h).2 hnil
        exact Or.inr ⟨by simp only [heldBack, hn, if_pos hnil'], hstay hn (Or.inl hnil)⟩
      · have hne : t'.indexes ≠ [] := fun hn' => hnil ((vacuum_nil_iff h0 hwf h).1 hn')
        obtain ⟨w, l, hw, hc⟩ := exists_suffix h0 hwf hv hn
        have hcp : ¬ OnPruned t c := fun hp => hon (hp.back h0 hwf (by rw [hv]; simp) (.single ⟨v', hv, hn, by rw [hw]; simp⟩))
        by_cases hcs : t'.heap.physicalVersion c = none
        · exact Or.inl (by simp only [heldBack, hn, if_neg hne, hcs])
        · have hw' := vacuum_unpruned_look h0 hwf h hcp hw hcs
          obtain ⟨b, hb⟩ := vacuum_held h0 hwf h hv hon hn hcs hnil hw
          have hb' : indexedByAll c w.values t'.indexes = .ok b := by rw [(vacuum_tests h0 hwf h hcs _).2]; exact hb
          cases b with
          | false => exact Or.inl ((heldBack_stored hn hne hw').2 hb')
          | true => exact Or.inr ⟨(heldBack_stored hn hne hw').2 hb', hstay hn (Or.inr ⟨hcs, w, hw, hb⟩)⟩

/-- **The table after a vacuum is settled exactly when the table before it settles.** -/
theorem settled_iff_settles : Settled t' horizon st ↔ Settles t horizon st := by
  constructor
  · intro hs
    exact ⟨fun root vr l hsel hc => settled_pruned h0 hwf h hs hsel hc,
      fun a v c w l ha hc hpred hstay hidx => settled_others h0 hwf h hs ha hc hpred hstay hidx⟩
  · intro hset
    exact ⟨fun a v' hv' => settles_tests h0 hwf h hset hv', fun a hsel => settles_chains h0 hwf h hset hsel,
      fun a v' hv' hno => settles_held h0 hwf h hset hv' hno⟩

end Second

/-! ## Two VACUUM statements -/

namespace TransactionManager

/-- The manager in which a VACUUM statement runs: in a transaction of its own, after its statement snapshot. -/
def vacuumBegun (m : TransactionManager) (i : IsolationLevel) : TransactionManager :=
  m.run [.begin i, .statementSnapshot m.nextXid]

/-- The manager after the statement. -/
def vacuumEnded (m : TransactionManager) (i : IsolationLevel) : TransactionManager := (m.vacuumBegun i).run [.commit m.nextXid]

def horizon (m : TransactionManager) : Nat := cleanupHorizon m.activeTransactions m.nextXid

/-- The transaction of a VACUUM statement, in the manager that began it. -/
def withVacuum (m : TransactionManager) (t : Transaction) : TransactionManager :=
  { m.put t with nextXid := m.nextXid + 1, active := m.active ++ [m.nextXid] }

section Statement

variable {m : TransactionManager} (h : Inv m) (i : IsolationLevel)

include h

theorem next_not_active : m.nextXid ∉ m.active := fun hx => Nat.lt_irrefl _ (h.active_lt hx).2

theorem active_filter_next : (m.active ++ [m.nextXid]).filter (fun z => decide (z ≠ m.nextXid)) = m.active := by
  have hself : m.active.filter (fun z => decide (z ≠ m.nextXid)) = m.active := by
    refine List.filter_eq_self.2 (fun z hz => decide_eq_true ?_)
    rintro rfl
    exact next_not_active h hz
  rw [List.filter_append, hself]
  simp

theorem vacuumBegun_eq : ∃ t, m.vacuumBegun i = m.withVacuum t ∧ t.xid = m.nextXid ∧ t.state = .active ∧
    ∀ y, y < m.nextXid → ((∀ c ∈ horizonCandidates t, y < c) ↔ (i = .repeatableRead → ∀ z ∈ m.active, y < z)) := by
  have hvalid : ∀ z ∈ m.active, 0 < z ∧ z < m.nextXid + 1 := fun z hz => by
    have := h.active_lt hz
    omega
  have hbegin : m.step (.begin i) = m.withVacuum { xid := m.nextXid, isolation := i } := rfl
  have hfresh : (m.withVacuum { xid := m.nextXid, isolation := i }).freshSnapshot m.nextXid =
      .ok ⟨m.nextXid + 1, m.active, hvalid⟩ := by
    simp only [freshSnapshot, Snapshot.create, withVacuum, put, active_filter_next h, dif_pos hvalid]
  have hobject : (m.withVacuum { xid := m.nextXid, isolation := i }).object m.nextXid =
      .ok { xid := m.nextXid, isolation := i } := by
    simp [object, withVacuum, put]
  unfold vacuumBegun
  simp only [run, List.foldl_cons, List.foldl_nil, hbegin]
  cases i with
  | readCommitted =>
    refine ⟨{ xid := m.nextXid, isolation := .readCommitted }, ?_, rfl, rfl, fun y hy => ?_⟩
    · simp [step, call, statementSnapshot, hobject, hfresh, Transaction.requireUsable, bind, Except.bind]
    · simp [horizonCandidates, hy]
  | repeatableRead =>
    refine ⟨{ xid := m.nextXid, isolation := .repeatableRead, repeatableSnapshot := some ⟨m.nextXid + 1, m.active, hvalid⟩ },
      ?_, rfl, rfl, fun y hy => ?_⟩
    · simp only [step, call, statementSnapshot, hobject, hfresh, Transaction.requireUsable, bind, Except.bind, ne_eq,
        not_true_eq_false, if_false]
      simp [withVacuum, put]
    · have hy' : y < m.nextXid + 1 := by omega
      simp [horizonCandidates, hy']

omit h in
theorem lt_foldl_min {y : Nat} : ∀ (l : List Nat) (n : Nat), y < l.foldl min n ↔ y < n ∧ ∀ c ∈ l, y < c
  | [], n => by simp
  | c :: l, n => by
    rw [List.foldl_cons, lt_foldl_min l (min n c)]
    simp only [List.mem_cons, forall_eq_or_imp, lt_min_iff, and_assoc]

/-- **What is below the horizon of a VACUUM statement.** -/
theorem lt_vacuum_horizon {y : Nat} (hy : y < m.nextXid) : y < (m.vacuumBegun i).horizon ↔
    (∀ t ∈ m.activeTransactions, ∀ c ∈ horizonCandidates t, y < c) ∧ (i = .repeatableRead → ∀ z ∈ m.active, y < z) := by
  obtain ⟨t, hbegun, hxid, -, hcand⟩ := vacuumBegun_eq h i
  have hactive : (m.withVacuum t).activeTransactions = m.activeTransactions ++ [t] := by
    simp only [activeTransactions, withVacuum, put, List.filterMap_append, hxid]
    congr 1
    · refine List.filterMap_congr (fun z hz => Function.update_of_ne ?_ _ _)
      rintro rfl
      exact next_not_active h hz
    · simp
  have hnext : y < m.nextXid + 1 := by omega
  rw [hbegun, horizon, cleanupHorizon, lt_foldl_min, hactive]
  simp only [List.flatMap_append, List.mem_append, List.mem_flatMap, List.mem_singleton, exists_eq_left, or_imp, forall_and,
    hcand y hy, withVacuum, hnext, true_and]
  refine and_congr_left' ⟨fun hall t ht c hc => hall c ⟨t, ht, hc⟩, ?_⟩
  rintro hall c ⟨t, ht, hc⟩
  exact hall t ht c hc

/-- **A VACUUM statement leaves the manager with its outcome and the same active transactions.** -/
theorem vacuumEnded_eq : (m.vacuumEnded i).active = m.active ∧
    (m.vacuumEnded i).activeTransactions = m.activeTransactions ∧ (m.vacuumEnded i).nextXid = m.nextXid + 1 ∧
    (m.vacuumEnded i).statuses = Function.update m.statuses m.nextXid (some .committed) := by
  obtain ⟨t, hbegun, hxid, hstate, -⟩ := vacuumBegun_eq h i
  have hstatus : m.statuses m.nextXid = none := by
    by_contra hne
    exact Nat.lt_irrefl _ (h.known _ hne).2
  have hobject : (m.withVacuum t).object m.nextXid = .ok t := by simp [object, withVacuum, put, hxid]
  have hcommit : (m.withVacuum t).commit m.nextXid = .ok ((m.withVacuum t).ended { t with state := .committed } .committed) := by
    have hset : (m.withVacuum t).statuses.set m.nextXid .committed =
        .ok (Function.update m.statuses m.nextXid (some .committed)) := by
      simp [StatusTable.set, StatusTable.get, withVacuum, put, hstatus]
    have hmark : t.markCommitted = .ok { t with state := .committed } := by
      simp [Transaction.markCommitted, hstate]
    simp only [commit, hobject, hmark, finish, hxid, hset, bind, Except.bind, ended]
    rfl
  have hended : m.vacuumEnded i = (m.withVacuum t).ended { t with state := .committed } .committed := by
    simp only [vacuumEnded, hbegun, run, List.foldl_cons, List.foldl_nil, step, call, hcommit]
  have hact : (m.vacuumEnded i).active = m.active := by
    rw [hended]
    simp only [ended, withVacuum, hxid]
    exact active_filter_next h
  refine ⟨hact, ?_, by rw [hended]; rfl, by rw [hended]; simp only [ended, withVacuum, hxid]; rfl⟩
  unfold activeTransactions
  rw [hact]
  refine List.filterMap_congr (fun z hz => ?_)
  have hz' : z ≠ m.nextXid := by
    rintro rfl
    exact next_not_active h hz
  rw [hended]
  simp [ended, withVacuum, put, hxid, Function.update_of_ne hz']

end Statement
end TransactionManager

namespace WriterState

theorem classify_again {s : WriterState} (hi : HeapInv s.heap) (i : IsolationLevel) {a : TID} {v : TupleVersion}
    (hv : s.look a = some v) :
    classifyVersion v ((s.heap.manager.vacuumEnded i).vacuumBegun i).horizon
        ((s.heap.manager.vacuumEnded i).vacuumBegun i).statuses =
      classifyVersion v (s.heap.manager.vacuumBegun i).horizon (s.heap.manager.vacuumBegun i).statuses := by
  have hm := hi.manager
  obtain ⟨hact, hts, hnext, hstat⟩ := TransactionManager.vacuumEnded_eq hm i
  have hm' : TransactionManager.Inv (s.heap.manager.vacuumEnded i) :=
    TransactionManager.inv_run (TransactionManager.inv_run hm _) _
  have hmin := (hi.xmin_pos hv).2
  have hmax : v.xmax < s.heap.manager.nextXid := by
    by_cases h0 : v.xmax = 0
    · have := hm.two_le
      omega
    · obtain ⟨j, u, hl, hx⟩ := (hi.mirror.carries a v hv).deleted h0
      exact hx ▸ (hi.writer_pos hl.get).2
  -- the same XIDs are below the two horizons
  have hlt : ∀ {y : Nat}, y < s.heap.manager.nextXid → (y < ((s.heap.manager.vacuumEnded i).vacuumBegun i).horizon ↔
      y < (s.heap.manager.vacuumBegun i).horizon) := by
    intro y hy
    rw [TransactionManager.lt_vacuum_horizon hm i hy, TransactionManager.lt_vacuum_horizon hm' i (by rw [hnext]; omega), hact,
      hts]
  -- and they have the same outcomes
  have hst : ∀ {y : Nat}, y < s.heap.manager.nextXid → ((s.heap.manager.vacuumEnded i).vacuumBegun i).statuses y =
      (s.heap.manager.vacuumBegun i).statuses y := by
    intro y hy
    obtain ⟨t, ht, -⟩ := TransactionManager.vacuumBegun_eq hm i
    obtain ⟨t', ht', -⟩ := TransactionManager.vacuumBegun_eq hm' i
    have hstat' : (s.heap.manager.vacuumEnded i).statuses y = s.heap.manager.statuses y := by
      rw [hstat, Function.update_of_ne (Nat.ne_of_lt hy)]
    rw [ht, ht']
    exact hstat'
  unfold classifyVersion StatusTable.creator StatusTable.get
  rw [hst hmin, hst hmax]
  simp only [hlt hmin, hlt hmax]

/-- A committed row of an indexed table, and an aborted update that changed its key. -/
def abortedKeyChange : List WriterCall :=
  [.createIndex ⟨1, ['i'], [0], false⟩ [.int64]] ++ committedRow ++ [.manager (.begin .readCommitted)] ++
    rowUpdate 3 ⟨0, 0⟩ (.of 4 []) 6 ++ [.manager (.abort 3)]

end WriterState
end MiniPostgres
