import MiniPostgres.DeadRows
/-!
# Thinning — what a vacuum leaves of the chains

After a vacuum the stored versions are some of those before, with the same creators, deleters and values, and whatever a walk
meets it met before (`Thinned`); so a chain may fall apart, but not mix with another.  Pruning keeps the members that stay
on one chain (`Pruned.joined`); the second loop moves no link.  Nothing here needs the vacuum to be safe.
-/
namespace MiniPostgres

open HeapTable (prunedLook)

/-- **Fewer versions on the same chains.** -/
structure Thinned (look look' : Versions) (rank : TID → Nat) : Prop where
  threaded : Threaded look' rank
  same     : ∀ a v', look' a = some v' → ∃ v, look a = some v ∧ SameBody v v'
  reach    : ∀ a c, Linked.Reach look' TupleVersion.nextTid a c → Linked.Reach look TupleVersion.nextTid a c

/-- The versions that stay of a chain stay one chain. -/
structure Pruned (look look' : Versions) (rank : TID → Nat) : Prop extends Thinned look look' rank where
  joined : ∀ a c, look' a ≠ none → look' c ≠ none → Linked.Reach look TupleVersion.nextTid a c →
    Linked.Reach look' TupleVersion.nextTid a c

theorem SameBody.trans {u v w : TupleVersion} (h : SameBody u v) (h' : SameBody v w) : SameBody u w :=
  ⟨h'.1.trans h.1, h'.2.1.trans h.2.1, h'.2.2.trans h.2.2⟩

section Thin

variable {look look' look'' : Versions} {rank : TID → Nat}

theorem Pruned.refl (h : Threaded look rank) : Pruned look look rank :=
  ⟨⟨h, fun _ v hv => ⟨v, hv, rfl, rfl, rfl⟩, fun _ _ hr => hr⟩, fun _ _ _ _ hr => hr⟩

theorem Thinned.stored (h : Thinned look look' rank) {a : TID} (ha : look' a ≠ none) : look a ≠ none := by
  obtain ⟨v', hv'⟩ := Option.ne_none_iff_exists'.1 ha
  obtain ⟨v, hv, -⟩ := h.same a v' hv'
  rw [hv]
  simp

theorem Pruned.trans (h : Pruned look look' rank) (h' : Pruned look' look'' rank) : Pruned look look'' rank := by
  refine ⟨⟨h'.threaded, fun a v'' hv'' => ?_, fun a c hr => h.reach a c (h'.reach a c hr)⟩, fun a c ha hc hr => ?_⟩
  · obtain ⟨v', hv', hb'⟩ := h'.same a v'' hv''
    obtain ⟨v, hv, hb⟩ := h.same a v' hv'
    exact ⟨v, hv, hb.trans hb'⟩
  · exact h'.joined a c ha hc (h.joined a c (h'.stored ha) (h'.stored hc) hr)

theorem Thinned.remove (h : Thinned look look' rank) (hsub : ∀ a v, look'' a = some v → look' a = some v) :
    Thinned look look'' rank := by
  have hstored : ∀ a, look'' a ≠ none → look' a ≠ none := fun a ha => by
    obtain ⟨v, hv⟩ := Option.ne_none_iff_exists'.1 ha
    rw [hsub a v hv]
    simp
  refine ⟨⟨fun a v c w hv hn hw => h.threaded.ranked a v c w (hsub a v hv) hn (hsub c w hw),
    fun a v a' v' c hv hv' => h.threaded.unshared a v a' v' c (hsub a v hv) (hsub a' v' hv')⟩,
    fun a v hv => h.same a v (hsub a v hv), fun a c hr => h.reach a c ?_⟩
  refine Relation.ReflTransGen.mono (fun x y hl => ?_) a c hr
  obtain ⟨v, hv, hn, hy⟩ := hl
  exact ⟨v, hsub x v hv, hn, hstored y hy⟩

/-- **One version taken out of its chain.** -/
theorem pruned_unlink (h : Threaded look rank) {p c : TID} {pv v : TupleVersion} (hp : look p = some pv) (hc : look c = some v)
    (hn : pv.nextTid = some c) : Pruned look (Linked.unlink look p c { pv with nextTid := v.nextTid }) rank := by
  have hn' : TupleVersion.nextTid { pv with nextTid := v.nextTid } = v.nextTid := rfl
  refine ⟨⟨⟨h.ranked.unlink hp hc hn hn', h.unshared.unlink hp hc hn'⟩, fun a u hu => ?_,
    fun a e hr => Linked.reach_of_unlink hp hc hn hn' hr⟩, fun a e ha he hr => ?_⟩
  · obtain ⟨-, hac⟩ := Linked.unlink_ne_none hp (by rw [hu]; simp)
    by_cases hap : a = p
    · subst hap
      rw [Linked.unlink_pred hac] at hu
      cases hu
      exact ⟨pv, hp, rfl, rfl, rfl⟩
    · rw [Linked.unlink_other hac hap] at hu
      exact ⟨u, hu, rfl, rfl, rfl⟩
  · exact Linked.reach_unlink hp hc hn hn' h.ranked h.unshared (Linked.unlink_ne_none hp ha).2 (Linked.unlink_ne_none hp he).2 hr

/-- **A pruned chain.** -/
theorem pruned_prunedLook {removable : List TID} : ∀ (l : List (TID × TupleVersion)) (look : Versions) (p : TID)
    (pv : TupleVersion), Threaded look rank → look p = some pv → Linked.Complete look TupleVersion.nextTid pv.nextTid l →
      (p :: l.map Prod.fst).Nodup → Pruned look (prunedLook removable look p pv l) rank
  | [], look, _, _, h, _, _, _ => .refl h
  | (c, v) :: l, look, p, pv, h, hp, hl, hnd => by
    cases hn : pv.nextTid with
    | none => rw [hn] at hl; cases hl
    | some c' =>
      rw [hn] at hl
      cases hl with
      | cons _ _ _ hv ht =>
        rw [List.map_cons, List.nodup_cons, List.nodup_cons, List.mem_cons, not_or] at hnd
        obtain ⟨⟨hpc, hpl⟩, hcl, hnl⟩ := hnd
        simp only [prunedLook]
        split
        · have hone := pruned_unlink h hp hv hn
          refine hone.trans (pruned_prunedLook l (Linked.unlink look p c { pv with nextTid := v.nextTid }) p
            { pv with nextTid := v.nextTid } hone.threaded (Linked.unlink_pred hpc) ?_ (List.nodup_cons.2 ⟨hpl, hnl⟩))
          refine ht.transfer (fun q hq => ?_)
          have hqc : q.1 ≠ c := fun he => hcl (he ▸ List.mem_map.2 ⟨q, hq, rfl⟩)
          have hqp : q.1 ≠ p := fun he => hpl (he ▸ List.mem_map.2 ⟨q, hq, rfl⟩)
          rw [Linked.unlink_other hqc hqp]
          exact ht.path.look_of_mem hq
        · exact pruned_prunedLook l look c v h hv ht (List.nodup_cons.2 ⟨hcl, hnl⟩)

theorem prunedLook_removed {removable : List TID} : ∀ (l : List (TID × TupleVersion)) (look : Versions) (p : TID)
    (pv : TupleVersion), (p :: l.map Prod.fst).Nodup → ∀ a, a ∈ removable → a ∈ l.map Prod.fst →
      prunedLook removable look p pv l a = none
  | [], _, _, _, _, _, _, ha => by cases ha
  | (c, v) :: l, look, p, pv, hnd, a, hr, ha => by
    rw [List.map_cons, List.nodup_cons, List.nodup_cons, List.mem_cons, not_or] at hnd
    obtain ⟨⟨hpc, hpl⟩, hcl, hnl⟩ := hnd
    rw [List.map_cons, List.mem_cons] at ha
    simp only [prunedLook]
    by_cases hac : a = c
    · subst hac
      rw [if_pos hr, HeapTable.prunedLook_other l _ p _ (Ne.symm hpc) hcl, Function.update_self]
    · have hal := ha.resolve_left hac
      split
      · exact prunedLook_removed l _ p _ (List.nodup_cons.2 ⟨hpl, hnl⟩) a hr hal
      · exact prunedLook_removed l look c v (List.nodup_cons.2 ⟨hcl, hnl⟩) a hr hal

end Thin

/-! ## The two loops -/

section Loops

variable {t t' : IndexedTable} {log : Log} {origin : TID → Nat} {horizon : Nat} {st : StatusTable} {r : VacuumResult}

theorem pruneStep_pruned (h0 : Mirror (Retired st) t.heap.physicalVersion log origin) (hwf : History.WF log)
    {done : TID → Prop} {p p' : Pruning} {root : TID} {vr : TupleVersion} (hr : t.heap.physicalVersion root = some vr)
    (hnd : ¬ done root) (hp : PruneShape t horizon st done p)
    (hP : Pruned t.heap.physicalVersion p.heap.physicalVersion origin)
    (h : pruneStep t.indexes t.heap.continuations horizon st p (root, vr) = .ok p') :
    Pruned t.heap.physicalVersion p'.heap.physicalVersion origin := by
  rcases pruneStep_cases h0 hwf hr hnd hp h with ⟨-, rfl⟩ | ⟨-, l, hcomp, hout, -, hnodup, -, hlook⟩
  · exact hP
  · have hpr : p.heap.physicalVersion root = some vr := by rw [hp.same root (hout (root, vr) List.mem_cons_self), hr]
    have hl : Linked.Complete p.heap.physicalVersion TupleVersion.nextTid vr.nextTid l := by
      cases hcomp with
      | cons _ _ _ _ ht =>
        refine ht.transfer (fun q hq => ?_)
        rw [hp.same q.1 (hout q (List.mem_cons_of_mem _ hq))]
        exact ht.path.look_of_mem hq
    rw [hlook]
    exact hP.trans (pruned_prunedLook l _ root vr hP.threaded hpr hl hnodup)

/-- **What a vacuum leaves of the chains**, loop by loop. -/
theorem vacuum_thinned (h0 : Mirror (Retired st) t.heap.physicalVersion log origin) (hwf : History.WF log)
    (h : t.vacuum horizon st = .ok (t', r)) :
    ∃ p s, PruneShape t horizon st (fun a => t.heap.physicalVersion a ≠ none) p ∧
      SweepInv t p horizon st (fun a => t.heap.physicalVersion a ≠ none) s ∧
      Pruned t.heap.physicalVersion p.heap.physicalVersion origin ∧
      Thinned t.heap.physicalVersion s.heap.physicalVersion origin ∧ t' = ⟨s.heap, s.indexes⟩ := by
  obtain ⟨p, hpf, h'⟩ := bind_eq_ok.1 h
  obtain ⟨s, hsf, he⟩ := bind_eq_ok.1 h'
  cases he
  obtain ⟨hp, hP⟩ := pruned_shape h0 hwf (P := fun p => Pruned t.heap.physicalVersion p.heap.physicalVersion origin)
    (.refl (h0.threaded hwf)) (pruneStep_pruned h0 hwf) hpf
  have hs := sweepInv_of_steps h0 hp hsf
  exact ⟨p, s, hp, hs, hP, hP.toThinned.remove hs.sub, rfl⟩

end Loops

/-! ## Scans -/

section Scans

variable {t t' : HeapTable} {rank : TID → Nat} {passes : TupleVersion → Bool}

/-- No walk meets two versions that pass. -/
def Apart (look : Versions) (passes : TupleVersion → Bool) : Prop :=
  ∀ a b v u, look a = some v → look b = some u → passes v = true → passes u = true →
    Linked.Reach look TupleVersion.nextTid a b → a = b

theorem Threaded.resolved_iff (ht : Threaded t.physicalVersion rank) (ha : Apart t.physicalVersion passes) {r : TID}
    {q : TID × Values} : t.resolved passes r = some q ↔ Linked.Reach t.physicalVersion TupleVersion.nextTid r q.1 ∧
      ∃ v, t.physicalVersion q.1 = some v ∧ passes v = true ∧ v.values = q.2 := by
  obtain ⟨a, values⟩ := q
  refine ⟨fun h => ht.resolved_eq_some h, ?_⟩
  rintro ⟨hreach, v, hv, hp, rfl⟩
  obtain ⟨⟨b, values⟩, hq⟩ := ht.resolved_isSome hv hp hreach
  obtain ⟨hreach', u, hu, hp', rfl⟩ := ht.resolved_eq_some hq
  have hfun : Relator.RightUnique (Linked.Link t.physicalVersion TupleVersion.nextTid) := by
    rintro x y z ⟨w, hw, hn, -⟩ ⟨w', hw', hn', -⟩
    rw [hw] at hw'
    cases hw'
    exact Option.some.inj (hn.symm.trans hn')
  obtain rfl : a = b := by
    rcases Relation.ReflTransGen.total_of_right_unique hfun hreach hreach' with h | h
    · exact ha a b v u hv hu hp hp' h
    · exact (ha b a u v hu hv hp' hp h).symm
  rw [hv] at hu
  cases hu
  exact hq

/-- **A scan returns the stored versions that pass.** -/
theorem Threaded.mem_scanned (ht : Threaded t.physicalVersion rank) (ha : Apart t.physicalVersion passes) {q : TID × Values} :
    q ∈ t.scanned passes ↔ ∃ v, t.physicalVersion q.1 = some v ∧ passes v = true ∧ v.values = q.2 := by
  rw [HeapTable.mem_scanned]
  refine ⟨fun ⟨_, _, hr⟩ => ((ht.resolved_iff ha).1 hr).2, fun h => ?_⟩
  obtain ⟨v, hv, -⟩ := id h
  obtain ⟨r, -, hr, hreach⟩ := ht.rootTid_ok (a := q.1) (by rw [hv]; simp)
  exact ⟨r, hr, (ht.resolved_iff ha).2 ⟨hreach, h⟩⟩

theorem Threaded.scanned_nodup (ht : Threaded t.physicalVersion rank) : (t.scanned passes).Nodup := by
  refine List.Nodup.of_map Prod.fst (HeapTable.scanned_nodup (fun a => a) (fun r hr r' hr' q q' hq hq' he => ?_))
  have h := (ht.resolved_eq_some hq).1
  have h' := (ht.resolved_eq_some hq').1
  rw [← he] at h'
  exact ht.root_unique hr hr' h h'

/-- **Two heaps that store the same passing versions are scanned alike.** -/
theorem scanned_perm (ht : Threaded t.physicalVersion rank) (ht' : Threaded t'.physicalVersion rank)
    (ha : Apart t.physicalVersion passes) (ha' : Apart t'.physicalVersion passes)
    (hsame : ∀ a values, (∃ v, t.physicalVersion a = some v ∧ passes v = true ∧ v.values = values) ↔
      ∃ v, t'.physicalVersion a = some v ∧ passes v = true ∧ v.values = values) :
    (t.scanned passes).Perm (t'.scanned passes) := by
  refine (List.perm_ext_iff_of_nodup ht.scanned_nodup ht'.scanned_nodup).2 (fun q => ?_)
  rw [ht.mem_scanned ha, ht'.mem_scanned ha']
  exact hsame q.1 q.2

end Scans
end MiniPostgres
