import MiniPostgres.Entries
/-!
# DeadRows — which dead rows a vacuum reclaims

A chain all of whose versions are dead goes as a whole, with its index entries, unless the first loop prunes it (then the
root and the newest version stay) or the second loop holds one of its versions back: `dead_row_reclaimed` is exact.
-/
namespace MiniPostgres

/-! ## The entries of a reclaimed version -/

theorem exists_shrunk {keep : TID → Prop} {bs bs' : List IndexBinding} (h : List.Forall₂ (Shrunk keep) bs bs')
    {b' : IndexBinding} (hb' : b' ∈ bs') : ∃ b ∈ bs, Shrunk keep b b' := by
  induction h with
  | nil => cases hb'
  | @cons b _ _ _ hb _ ih =>
    rcases List.mem_cons.1 hb' with rfl | hm
    · exact ⟨b, List.mem_cons_self, hb⟩
    · obtain ⟨c, hc, hsh⟩ := ih hm
      exact ⟨c, List.mem_cons_of_mem _ hc, hsh⟩

section Entries

variable {processed : List TID} {horizon : Nat} {st : StatusTable}

theorem sweepStep_shrunk {s s' : Sweeping} {item : TID × TupleVersion} (h : sweepStep processed horizon st s item = .ok s') :
    List.Forall₂ (Shrunk (fun _ => False)) s.indexes s'.indexes := by
  obtain ⟨a, v⟩ := item
  rcases sweepStep_cases h with ⟨rfl, -⟩ | ⟨-, -, -, -, -, keys, -, hidx⟩
  · exact shrunk_refl _ _
  · rw [hidx]
    exact shrunk_weaken (fun _ hf => hf.elim) (deleteKeys_shrunk s.indexes keys a)

/-- The second loop only deletes entries. -/
theorem sweepSteps_shrunk : ∀ (items : List (TID × TupleVersion)) {s s' : Sweeping},
    items.foldlM (sweepStep processed horizon st) s = .ok s' → List.Forall₂ (Shrunk (fun _ => False)) s.indexes s'.indexes
  | [], s, s', h => by cases h; exact shrunk_refl _ _
  | item :: items, s, s', h => by
    rw [List.foldlM_cons] at h
    obtain ⟨s₁, h₁, h₂⟩ := bind_eq_ok.1 h
    exact shrunk_weaken (fun _ hf => ⟨hf, hf⟩) (shrunk_trans (sweepStep_shrunk h₁) (sweepSteps_shrunk items h₂))

theorem sweepStep_nodup {s s' : Sweeping} {item : TID × TupleVersion} (h : sweepStep processed horizon st s item = .ok s')
    (hnd : ∀ b ∈ s.indexes, b.tree.Nodup) : ∀ b ∈ s'.indexes, b.tree.Nodup := by
  obtain ⟨a, v⟩ := item
  rcases sweepStep_cases h with ⟨rfl, -⟩ | ⟨-, -, -, -, -, keys, hkeys, hidx⟩
  · exact hnd
  · intro b' hb'
    rw [hidx] at hb'
    obtain ⟨b, hb, k, -, rfl⟩ := mem_deleteKeys hkeys hb'
    exact BTree.nodup_delete (hnd b hb) k a

/-- **A version that the second loop reclaimed has no entry under its keys.** -/
theorem sweepSteps_cleared : ∀ (items : List (TID × TupleVersion)) {s s' : Sweeping},
    items.foldlM (sweepStep processed horizon st) s = .ok s' → (items.map Prod.fst).Nodup →
      (∀ b ∈ s.indexes, b.tree.Nodup) → ∀ a v, (a, v) ∈ items → s.heap.physicalVersion a ≠ none →
        s'.heap.physicalVersion a = none → ∀ b' ∈ s'.indexes, ∀ k, b'.key v.values = .ok k → (k, a) ∉ b'.tree
  | [], _, _, _, _, _, _, _, hm, _, _ => by cases hm
  | (c, w) :: items, s, s', h, hitems, hnd, a, v, hm, hstored, hgone => by
    rw [List.foldlM_cons] at h
    obtain ⟨s₁, h₁, h₂⟩ := bind_eq_ok.1 h
    rw [List.map_cons, List.nodup_cons] at hitems
    rcases List.mem_cons.1 hm with he | hm'
    · obtain ⟨rfl, rfl⟩ := Prod.mk.inj he
      rw [sweepSteps_other items h₂ hitems.1] at hgone
      rcases sweepStep_cases h₁ with ⟨rfl, -⟩ | ⟨-, -, -, -, -, keys, hkeys, hidx⟩
      · exact absurd hgone hstored
      · intro b' hb' k hk hmem
        -- the rest of the loop adds no entry
        obtain ⟨b₁, hb₁, hsh⟩ := exists_shrunk (sweepSteps_shrunk items h₂) hb'
        rw [hidx] at hb₁
        obtain ⟨b, hb, k', hk', rfl⟩ := mem_deleteKeys hkeys hb₁
        have hkey : b.key v.values = .ok k := (hsh.key v.values).symm.trans hk
        rw [hk', Except.ok.injEq] at hkey
        subst hkey
        exact BTree.not_mem_delete (hnd b hb) k' a (hsh.sub _ hmem)
    · have hac : a ≠ c := by
        rintro rfl
        exact hitems.1 (List.mem_map.2 ⟨(a, v), hm', rfl⟩)
      have hstored₁ : s₁.heap.physicalVersion a ≠ none := by
        rcases sweepStep_cases h₁ with ⟨rfl, -⟩ | ⟨-, -, -, hlook, -⟩
        · exact hstored
        · rw [hlook, Function.update_of_ne hac]; exact hstored
      exact sweepSteps_cleared items h₂ hitems.2 (sweepStep_nodup h₁ hnd) a v hm' hstored₁ hgone

end Entries

section Table

variable {t t' : IndexedTable} {log : Log} {origin : TID → Nat} {horizon : Nat} {st : StatusTable} {r : VacuumResult}
  {a : TID} {v : TupleVersion}

/-- **What a vacuum reclaims outside the pruned chains, exactly.** -/
theorem vacuum_swept (h0 : Mirror (Retired st) t.heap.physicalVersion log origin) (hwf : History.WF log)
    (h : t.vacuum horizon st = .ok (t', r)) (hv : t.heap.physicalVersion a = some v) (ha : ¬ OnPruned t a) :
    t'.heap.physicalVersion a = none ↔ SweptOut t horizon st (fun c => t'.heap.physicalVersion c = none) a v := by
  obtain ⟨p, s, hp, -, hiff, rfl⟩ := vacuum_loops h0 hwf h
  exact hiff a v hv (fun hm => ha ((hp.processed_iff a).1 hm))

theorem vacuum_cleared (h0 : Mirror (Retired st) t.heap.physicalVersion log origin) (hwf : History.WF log)
    (h : t.vacuum horizon st = .ok (t', r)) (hnd : ∀ b ∈ t.indexes, b.tree.Nodup) (hv : t.heap.physicalVersion a = some v)
    (ha : ¬ OnPruned t a) (hgone : t'.heap.physicalVersion a = none) :
    ∀ b' ∈ t'.indexes, ∀ k, b'.key v.values = .ok k → (k, a) ∉ b'.tree := by
  obtain ⟨p, hpf, h⟩ := bind_eq_ok.1 h
  obtain ⟨s, hsf, he⟩ := bind_eq_ok.1 h
  cases he
  obtain ⟨hp, -⟩ := pruned_shape h0 hwf (P := fun _ => True) trivial (fun _ _ _ _ _ => trivial) hpf
  refine sweepSteps_cleared t.heap.scanVersions hsf t.heap.scanVersions_nodup hnd a v (HeapTable.mem_scanVersions.2 hv) ?_ hgone
  show p.heap.physicalVersion a ≠ none
  rw [hp.same a (fun hm => ha ((hp.processed_iff a).1 hm)), hv]
  simp

theorem vacuum_entries (h0 : Mirror (Retired st) t.heap.physicalVersion log origin) (hwf : History.WF log)
    (h : t.vacuum horizon st = .ok (t', r)) {b' : IndexBinding} (hb' : b' ∈ t'.indexes) :
    ∃ b ∈ t.indexes, (∀ values, b'.key values = b.key values) ∧ ∀ e ∈ b'.tree, e ∈ b.tree := by
  obtain ⟨p, s, -, hs, -, rfl⟩ := vacuum_loops h0 hwf h
  obtain ⟨b, hb, hsh⟩ := exists_shrunk hs.indexes hb'
  exact ⟨b, hb, hsh.key, hsh.sub⟩

theorem onPruned_iff (h0 : Mirror (Retired st) t.heap.physicalVersion log origin) (hwf : History.WF log) {root : TID}
    (hroot : root ∈ t.heap.roots) (hreach : Linked.Reach t.heap.physicalVersion TupleVersion.nextTid root a) :
    OnPruned t a ↔ Selected t root := by
  refine ⟨fun ⟨x, hx, hxa⟩ => ?_, fun hs => ⟨root, hs, hreach⟩⟩
  obtain ⟨u, hu, -⟩ := id hx
  have hxroot : x ∈ t.heap.roots := by
    refine HeapTable.mem_roots.2 ⟨⟨u, hu⟩, fun b w hb hn => hx.not_continuation (HeapTable.mem_continuations.2 ⟨b, w, hb, hn⟩)⟩
  rw [HeapTable.root_unique h0 hwf hroot hxroot hreach hxa]
  exact hx

/-- **Which dead rows a vacuum reclaims.** -/
theorem dead_chain_iff (h0 : Mirror (Retired st) t.heap.physicalVersion log origin) (hwf : History.WF log)
    (hnd : ∀ b ∈ t.indexes, b.tree.Nodup)
    (hsound : ∀ b ∈ t.indexes, ∀ k a, (k, a) ∈ b.tree → ∃ v, t.heap.physicalVersion a = some v ∧ b.key v.values = .ok k)
    (h : t.vacuum horizon st = .ok (t', r)) {root : TID} (hroot : root ∈ t.heap.roots) {chain : List (TID × TupleVersion)}
    (hc : Linked.Complete t.heap.physicalVersion TupleVersion.nextTid (some root) chain)
    (hdead : ∀ q ∈ chain, classifyVersion q.2 horizon st = .dead) :
    (∀ q ∈ chain, t'.heap.physicalVersion q.1 = none ∧ ∀ b ∈ t'.indexes, ∀ k, (k, q.1) ∉ b.tree) ↔
      ¬ Selected t root ∧ (t.indexes = [] ∨ ∀ a v c w, (a, v) ∈ chain → (c, w) ∈ chain → v.nextTid = some c →
        a.before c ∧ indexedByAll c w.values t.indexes = .ok true) := by
  have hlook : ∀ q ∈ chain, t.heap.physicalVersion q.1 = some q.2 := fun q hq => hc.path.look_of_mem hq
  have hon : ∀ q ∈ chain, (OnPruned t q.1 ↔ Selected t root) := fun q hq => onPruned_iff h0 hwf hroot (hc.path.reach_of_mem hq)
  constructor
  · intro hall
    obtain ⟨⟨vr, hvr⟩, -⟩ := HeapTable.mem_roots.1 hroot
    have hrootc : (root, vr) ∈ chain := hc.path.head_mem hvr
    have hns : ¬ Selected t root := fun hs =>
      vacuum_root_stored h0 hwf h hroot hvr (Or.inr (Or.inl ((hon (root, vr) hrootc).2 hs))) (hall (root, vr) hrootc).1
    refine ⟨hns, ?_⟩
    by_cases hnil : t.indexes = []
    · exact Or.inl hnil
    · refine Or.inr (fun a v c w ha hcw hn => ?_)
      obtain ⟨-, hnext⟩ := (vacuum_swept h0 hwf h (hlook (a, v) ha) (fun ho => hns ((hon (a, v) ha).1 ho))).1 (hall (a, v) ha).1
      obtain ⟨hord, w', hw', hidx⟩ := (hnext c hn).resolve_left hnil
      have hcl := hlook (c, w) hcw
      rw [hw'] at hcl
      cases hcl
      refine ⟨?_, hidx⟩
      have hnb : ¬ c.before a := fun hb => hord ⟨hb, (hall (c, w) hcw).1⟩
      have hne : a ≠ c := by
        rintro rfl
        have := (h0.named a v a (hlook (a, v) ha) hn).2.lt hwf
        omega
      -- the TIDs are totally ordered
      simp only [TID.before] at hnb ⊢
      by_contra hcon
      refine hne ?_
      cases a
      cases c
      simp only [TID.mk.injEq] at *
      omega
  · rintro ⟨hns, hord⟩ ⟨a, v⟩ ha
    have hna : ¬ OnPruned t a := fun ho => hns ((hon (a, v) ha).1 ho)
    have hgone : t'.heap.physicalVersion a = none := by
      refine (vacuum_swept h0 hwf h (hlook (a, v) ha) hna).2 ⟨hdead (a, v) ha, fun c hn => ?_⟩
      obtain ⟨w, hw⟩ := Option.ne_none_iff_exists'.1 (h0.named a v c (hlook (a, v) ha) hn).1
      have hcw : (c, w) ∈ chain := hc.path.mem_of_look ha hn hw
      refine hord.imp_right (fun hord => ?_)
      obtain ⟨hb, hidx⟩ := hord a v c w ha hcw hn
      refine ⟨fun hcon => ?_, w, hw, hidx⟩
      have hcb := hcon.1
      simp only [TID.before] at hb hcb
      omega
    refine ⟨hgone, fun b' hb' k hm => ?_⟩
    obtain ⟨b, hb, hkey, hsub⟩ := vacuum_entries h0 hwf h hb'
    obtain ⟨u, hu, hk⟩ := hsound b hb k a (hsub _ hm)
    have huv := hlook (a, v) ha
    simp only at huv
    rw [hu] at huv
    cases huv
    exact vacuum_cleared h0 hwf h hnd hu hna hgone b' hb' k (by rw [hkey]; exact hk) hm

end Table

/-! ## Over whole runs -/

namespace WriterState

/-- A row of an indexed table that is updated to `value` and deleted. -/
def deletedRow (value : Int) : List WriterCall :=
  [.createIndex ⟨1, ['i'], [0], false⟩ [.int64]] ++ committedRow ++ [.manager (.begin .readCommitted)] ++
    rowUpdate 3 ⟨0, 0⟩ (.of 4 []) value ++ [.manager (.commit 3), .manager (.begin .readCommitted),
      .write true 4 .delete ⟨0, 1⟩ (.of 5 []) (fun _ => true), .turn 4, .turn 4, .turn 4, .turn 4, .manager (.commit 4)]

/-- The two versions of that row. -/
def deletedChain (value : Int) : List (TID × TupleVersion) :=
  [(⟨0, 0⟩, ⟨2, 3, some ⟨0, 1⟩, [.int 5]⟩), (⟨0, 1⟩, ⟨3, 4, none, [.int value]⟩)]

theorem deletedRow_no_vacuum (value : Int) : ∀ horizon, .vacuum horizon ∉ deletedRow value := by
  intro horizon
  simp [deletedRow, committedRow, rowUpdate]

/-- The horizon of the manager in that state. -/
example : cleanupHorizon ((start .new HeapState.oneColumn).run (deletedRow 5)).heap.manager.activeTransactions
    ((start .new HeapState.oneColumn).run (deletedRow 5)).heap.manager.nextXid = 5 := by decide +kernel

end WriterState
end MiniPostgres
