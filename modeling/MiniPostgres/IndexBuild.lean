import MiniPostgres.Lookups
/-!
# IndexBuild — CREATE INDEX beside other sessions

`_create_index` reads the globally live version of each chain, builds a tree of its own from them, and only then registers
the index: nobody is kept from writing in between, and no open transaction is waited for.  The new index is complete when,
at the scan, each version of an open transaction continues a version with the same key, and no such version is missed until
the index is registered (`keepsKey`); a snapshot from before the scan must not see a version that is no longer live.

`Covers` is what then holds: the versions that were dead at the scan are `out`, and every other version is listed, or was
made over one that is not out and has the same key.
-/
namespace MiniPostgres

open History (Write WF getElem?_concat lt_of_getElem?)

namespace WriterState

/-- `_create_index` up to the publication in the catalog: a tree of the rows that are globally live, which nobody reads yet. -/
def buildIndex (s : WriterState) (metadata : IndexMetadata) (dataTypes : List DataType) : Result IndexBinding := do
  let rows ← s.heap.table.scanGloballyLive s.statuses
  let tree ← buildTree ⟨metadata, dataTypes, []⟩ rows []
  .ok ⟨metadata, dataTypes, tree⟩

def addIndex (s : WriterState) (b : IndexBinding) : WriterState := { s with table := ⟨s.heap, s.table.indexes ++ [b]⟩ }

/-- The key is the same, for versions with these values. -/
def SameKey (b : IndexBinding) (values values' : Values) : Prop := ∃ k, b.key values = .ok k ∧ b.key values' = .ok k

/-- Every version of an open transaction continues a version with the same key. -/
def ContinuesKey (s : WriterState) (b : IndexBinding) : Prop :=
  ∀ a v, s.look a = some v → v.xmin ∈ s.active → ∃ p u, s.look p = some u ∧ u.nextTid = some a ∧ SameKey b u.values v.values

/-- A call that makes no version, or one over a version with the same key. -/
def keepsKey (b : IndexBinding) (s : WriterState) : WriterCall → Prop
  | .insert _ _ => False
  | .vacuum _   => False
  | .turn x     => ∀ k root p old values validated, s.tasks x = some k → k.stage = .writing root p old →
      k.write = .update values → s.heap.table.schema.validateRow values = .ok validated → SameKey b old validated
  | _           => True

end WriterState

/-! ## What the build lists -/

theorem buildTree_lists {b : IndexBinding} : ∀ {rows : List (TID × Values)} {seen : List Key} {tree : BTree},
    buildTree b rows seen = .ok tree → (∀ e ∈ b.tree, e ∈ tree) ∧ ∀ q ∈ rows, ∃ k, b.key q.2 = .ok k ∧ (k, q.1) ∈ tree
  | [], seen, tree, h => by
    cases h
    exact ⟨fun _ he => he, fun q hq => by cases hq⟩
  | (tid, values) :: rows, seen, tree, h => by
    obtain ⟨key, hkey, h⟩ := bind_eq_ok.1 h
    split at h
    · exact absurd h raise_ne_ok
    · obtain ⟨hsub, hrows⟩ := buildTree_lists h
      refine ⟨fun e he => hsub e (BTree.mem_insert.2 (Or.inl he)), fun q hq => ?_⟩
      rcases List.mem_cons.1 hq with rfl | hq
      · exact ⟨key, hkey, hsub _ (BTree.mem_insert.2 (Or.inr rfl))⟩
      · exact hrows q hq

theorem insertKeys_keeps {values : Values} {tid : TID} {b : IndexBinding} : ∀ {bs : List IndexBinding} {keys : List Key},
    keysOf bs values = .ok keys → b ∈ bs →
      ∃ k, b.key values = .ok k ∧ { b with tree := b.tree.insert k tid } ∈ insertKeys bs keys tid
  | [], _, _, hb => by cases hb
  | c :: bs, keys, h, hb => by
    obtain ⟨k, hk, h⟩ := bind_eq_ok.1 h
    obtain ⟨ks, hks, he⟩ := bind_eq_ok.1 h
    cases he
    rcases List.mem_cons.1 hb with rfl | hb
    · exact ⟨k, hk, List.mem_cons_self⟩
    · obtain ⟨k', hk', hm⟩ := insertKeys_keeps hks hb
      exact ⟨k', hk', List.mem_cons_of_mem _ hm⟩

/-! ## New versions -/

section New

variable {s s' : HeapState} {a p : TID} {v u : TupleVersion} {w : Write Nat Values}

/-- **A version is made over one that nobody has deleted and whose creator is not gone.** -/
theorem HeapStepped.target_live (hi : HeapInv s) (hs : HeapStepped True s s') (ha : s.table.physicalVersion a = none)
    (hv : s'.table.physicalVersion a = some v) (hw : s'.log[s'.origin a]? = some w) (ht : w.target = some (s.origin p))
    (hu : s.table.physicalVersion p = some u) :
    HeapTable.writable u s.manager.statuses = true ∧ ∃ x ∈ s.manager.active, LiveFor s.manager x u := by
  cases hs with
  | same => rw [ha] at hv; cases hv
  | manager m hm => rw [ha] at hv; cases hv
  | inserted x hx values table tid hins _ =>
    have hat : a = tid := by
      by_contra hne
      rw [hins.versions, Function.update_of_ne hne, ha] at hv
      cases hv
    subst hat
    simp only [Function.update_self] at hw
    rcases getElem?_concat.1 hw with hold | ⟨-, rfl⟩
    · exact absurd (lt_of_getElem? hold) (Nat.lt_irrefl _)
    · cases ht
  | replaced x hx values tid new old mid table hold hwr hlf hins hrew _ _ =>
    have han : a = new := by
      by_contra hne
      have hat : a ≠ tid := by
        rintro rfl
        rw [ha] at hold
        cases hold
      rw [hrew.versions, Function.update_of_ne hat, hins.versions, Function.update_of_ne hne, ha] at hv
      cases hv
    subst han
    simp only [Function.update_self] at hw
    rcases getElem?_concat.1 hw with hlt | ⟨-, rfl⟩
    · exact absurd (lt_of_getElem? hlt) (Nat.lt_irrefl _)
    · have hpt := hi.mirror.inj p tid (by rw [hu]; simp) (by rw [hold]; simp) (Option.some.inj ht).symm
      subst hpt
      rw [hold] at hu
      cases hu
      exact ⟨hwr, x, hx, hlf trivial⟩
  | deleted x hx tid old table hold hwr hlf hrew _ =>
    have hat : a ≠ tid := by
      rintro rfl
      rw [ha] at hold
      cases hold
    rw [hrew.versions, Function.update_of_ne hat, ha] at hv
    cases hv

/-- A version gets another deleter only when it is live for it. -/
theorem HeapStepped.deleter_live (hs : HeapStepped True s s') {v' : TupleVersion} (hv : s.table.physicalVersion a = some v)
    (hv' : s'.table.physicalVersion a = some v') : v'.xmax = v.xmax ∨
      (HeapTable.writable v s.manager.statuses = true ∧ ∃ x ∈ s.manager.active, LiveFor s.manager x v) := by
  have hne : s.table.physicalVersion a ≠ none := by rw [hv]; simp
  cases hs with
  | same | manager =>
    have hvv := hv.symm.trans hv'
    cases hvv
    exact Or.inl rfl
  | inserted x hx values table tid hins _ =>
    rw [hins.keeps hne, hv] at hv'
    cases hv'
    exact Or.inl rfl
  | replaced x hx values tid new old mid table hold hwr hlf hins hrew _ _ =>
    by_cases hat : a = tid
    · subst hat
      rw [hold] at hv
      cases hv
      exact Or.inr ⟨hwr, x, hx, hlf trivial⟩
    · rw [hrew.versions, Function.update_of_ne hat, hins.keeps hne, hv] at hv'
      cases hv'
      exact Or.inl rfl
  | deleted x hx tid old table hold hwr hlf hrew _ =>
    by_cases hat : a = tid
    · subst hat
      rw [hold] at hv
      cases hv
      exact Or.inr ⟨hwr, x, hx, hlf trivial⟩
    · rw [hrew.versions, Function.update_of_ne hat, hv] at hv'
      cases hv'
      exact Or.inl rfl

end New

/-! ## Versions that are out, and the others -/

/-- Dead at the scan: not globally live, and of a transaction that had ended. -/
def Out (s₀ : HeapState) (a : TID) : Prop :=
  ∃ v, s₀.table.physicalVersion a = some v ∧ HeapTable.globallyLive v 0 s₀.manager.statuses = false ∧ v.xmin ∉ s₀.manager.active

/-- The version was made over one that is not out and has the same key. -/
def KeyFollows (s₀ : HeapState) (b : IndexBinding) (s : HeapState) (a : TID) (v : TupleVersion) : Prop :=
  ∃ p u w, s.table.physicalVersion p = some u ∧ ¬ Out s₀ p ∧ s.log[s.origin a]? = some w ∧ w.target = some (s.origin p) ∧
    WriterState.SameKey b u.values v.values

def ListedIn (b : IndexBinding) (a : TID) (v : TupleVersion) : Prop := ∃ k, b.key v.values = .ok k ∧ (k, a) ∈ b.tree

/-- **What an index built from the scan of `s₀` keeps.** -/
structure Covers (s₀ : HeapState) (b : IndexBinding) (s : HeapState) : Prop where
  stored  : ∀ k e, (k, e) ∈ b.tree → s.table.physicalVersion e ≠ none
  covered : ∀ a v, s.table.physicalVersion a = some v → Out s₀ a ∨ ListedIn b a v ∨ KeyFollows s₀ b s a v
  out     : ∀ a, Out s₀ a → ∃ v₀ v, s₀.table.physicalVersion a = some v₀ ∧ s.table.physicalVersion a = some v ∧
    v.xmin = v₀.xmin ∧ v.xmax = v₀.xmax

section Covers

variable {s₀ s s' : HeapState} {b b' : IndexBinding}

theorem HeapInv.settled_writer (hi : HeapInv s) {a : TID} {v : TupleVersion} (hv : s.table.physicalVersion a = some v)
    (hx : v.xmin ∉ s.manager.active) :
    s.manager.statuses v.xmin = some .committed ∨ s.manager.statuses v.xmin = some .aborted := by
  obtain ⟨w, hw, hwx, -⟩ := hi.origin_write hv
  obtain ⟨t, ht⟩ := hi.writers w (List.mem_of_getElem? hw)
  rw [hwx] at ht
  cases hst : t.state with
  | active => exact absurd ((hi.manager.active _).2 ⟨t, ht, Or.inl hst⟩) hx
  | failed => exact absurd ((hi.manager.active _).2 ⟨t, ht, Or.inr hst⟩) hx
  | committed => exact Or.inl (hi.manager.committed _ t ht hst)
  | aborted => exact Or.inr (hi.manager.aborted _ t ht hst)

theorem Out.dead (hi : HeapInv s) {a : TID} (h : Out s a) : ∃ v, s.table.physicalVersion a = some v ∧
    v.xmin ∉ s.manager.active ∧
    (s.manager.statuses v.xmin = some .aborted ∨ (v.xmax ≠ 0 ∧ s.manager.statuses v.xmax = some .committed)) := by
  obtain ⟨v, hv, hlive, hx⟩ := h
  refine ⟨v, hv, hx, ?_⟩
  rcases hi.settled_writer hv hx with hc | hab
  · refine Or.inr ?_
    by_contra hne
    rw [Bool.eq_false_iff, Ne, hi.globallyLive_iff hv] at hlive
    refine hlive ⟨Or.inr hc, fun hd => hne ⟨hd.1, ?_⟩⟩
    rcases hd.2 with h0 | hd
    · exact absurd h0 hd.1
    · exact hd
  · exact Or.inl hab

/-- **Nobody writes over a version that is out.** -/
theorem Covers.not_written (h₀ : HeapInv s₀) (hi : HeapInv s) (hl : TransactionManager.Later s₀.manager s.manager)
    (h : Covers s₀ b s) {a : TID} {v : TupleVersion} (hv : s.table.physicalVersion a = some v)
    (hw : HeapTable.writable v s.manager.statuses = true) {x : Nat} (hx : x ∈ s.manager.active) (hlf : LiveFor s.manager x v) :
    ¬ Out s₀ a := by
  intro hout
  obtain ⟨v₀, v', hv₀, hv', hmin, hmax⟩ := h.out a hout
  rw [hv] at hv'
  cases hv'
  obtain ⟨v₁, hv₁, -, hdead⟩ := hout.dead h₀
  rw [hv₀] at hv₁
  cases hv₁
  rw [← hmin, ← hmax] at hdead
  have hlater : ∀ y st, s₀.manager.statuses y = some st → s.manager.statuses y = some st := fun y st hy => by
    rw [TransactionManager.status_later h₀.manager (by rw [hy]; simp) hl, hy]
  rcases hdead with hab | ⟨hne, hc⟩
  · have hab' := hlater _ _ hab
    rcases hlf with rfl | hc
    · rw [hi.manager.undecided _ hx] at hab'; cases hab'
    · rw [hc] at hab'; cases hab'
  · simp only [HeapTable.writable, decide_eq_true_eq] at hw
    rcases hw with h0 | hab
    · exact hne h0
    · rw [StatusTable.get, hlater _ _ hc] at hab; cases hab

/-- **A step keeps an index complete** when each version it makes is listed, or made over one with the same key. -/
theorem Covers.step (h₀ : HeapInv s₀) (hi : HeapInv s) (hl : TransactionManager.Later s₀.manager s.manager)
    (hs : HeapStepped True s s') (h : Covers s₀ b s) (hkey : ∀ values, b'.key values = b.key values)
    (hsub : ∀ e ∈ b.tree, e ∈ b'.tree) (hstored : ∀ k e, (k, e) ∈ b'.tree → (k, e) ∈ b.tree ∨ s'.table.physicalVersion e ≠ none)
    (hnew : ∀ a v, s.table.physicalVersion a = none → s'.table.physicalVersion a = some v → ListedIn b' a v ∨
      ∃ p u w, s.table.physicalVersion p = some u ∧ s'.log[s'.origin a]? = some w ∧ w.target = some (s.origin p) ∧
        WriterState.SameKey b u.values v.values) : Covers s₀ b' s' := by
  refine ⟨fun k e he => ?_, fun a v' hv' => ?_, fun a hout => ?_⟩
  · rcases hstored k e he with he | he
    · obtain ⟨v, hv⟩ := Option.ne_none_iff_exists'.1 (h.stored k e he)
      obtain ⟨v', hv', -⟩ := hs.stays hv
      rw [hv']
      simp
    · exact he
  · cases hv : s.table.physicalVersion a with
    | some v =>
      obtain ⟨v'', hv'', hmin, hval, ho, -⟩ := hs.stays hv
      rw [hv'] at hv''
      cases hv''
      refine (h.covered a v hv).imp_right (Or.imp (fun hlist => ?_) (fun hfol => ?_))
      · obtain ⟨k, hk, hm⟩ := hlist
        exact ⟨k, by rw [hkey, hval]; exact hk, hsub _ hm⟩
      · obtain ⟨p, u, w, hu, hnot, hw, ht, k, hk, hk'⟩ := hfol
        obtain ⟨u', hu', -, huval, huo, -⟩ := hs.stays hu
        exact ⟨p, u', w, hu', hnot, by rw [ho]; exact hs.log_get hw, by rw [huo]; exact ht, k, by rw [hkey, huval]; exact hk,
          by rw [hkey, hval]; exact hk'⟩
    | none =>
      refine Or.inr ((hnew a v' hv hv').imp_right (fun hfol => ?_))
      obtain ⟨p, u, w, hu, hw, ht, k, hk, hk'⟩ := hfol
      obtain ⟨hwr, x, hx, hlf⟩ := hs.target_live hi hv hv' hw ht hu
      obtain ⟨u', hu', -, huval, huo, -⟩ := hs.stays hu
      exact ⟨p, u', w, hu', h.not_written h₀ hi hl hu hwr hx hlf, hw, by rw [huo]; exact ht, k, by rw [hkey, huval]; exact hk,
        by rw [hkey]; exact hk'⟩
  · obtain ⟨v₀, v, hv₀, hv, hmin, hmax⟩ := h.out a hout
    obtain ⟨v', hv', hmin', -⟩ := hs.stays hv
    refine ⟨v₀, v', hv₀, hv', hmin'.trans hmin, ?_⟩
    rcases hs.deleter_live hv hv' with he | ⟨hwr, x, hx, hlf⟩
    · exact he.trans hmax
    · exact absurd hout (h.not_written h₀ hi hl hv hwr hx hlf)

/-- **Every version that is not out, and whose creator did not abort, is found by its key.** -/
theorem Covers.found (hi : HeapInv s) (ht : LiveTargets s.manager.statuses s.log)
    (hst : Stored s.table.physicalVersion s.log s.origin) (h : Covers s₀ b s) :
    ∀ (n : Nat) (a : TID) (v : TupleVersion), s.origin a = n → s.table.physicalVersion a = some v → ¬ Out s₀ a →
      ¬ s.manager.statuses v.xmin = some .aborted →
      ∃ e k, (k, e) ∈ b.tree ∧ b.key v.values = .ok k ∧ Linked.Reach s.table.physicalVersion TupleVersion.nextTid e a := by
  intro n
  induction n using Nat.strongRecOn with
  | ind n ih =>
    intro a v hn hv hnot hlive
    rcases (h.covered a v hv).resolve_left hnot with ⟨k, hk, hm⟩ | ⟨p, u, w, hu, hnotp, hw, htw, k, hk, hk'⟩
    · exact ⟨a, k, hm, hk, .refl⟩
    · have hlink := hi.link_of_target hst hv hu hw htw hlive
      obtain ⟨y, hy, hxy, -⟩ := (hi.mirror.carries p u hu).made
      obtain ⟨w', hw', hxw, -⟩ := (hi.mirror.carries a v hv).made
      rw [hw] at hw'
      cases hw'
      have hlive' : ¬ s.manager.statuses u.xmin = some .aborted := by
        rcases ht _ w _ y hw htw hy with he | hc
        · rw [← hxy, he, hxw]; exact hlive
        · rw [← hxy, hc]; simp
      obtain ⟨e, k', hm, hke, hreach⟩ := ih _ (hn ▸ (hi.wf.writes _ w _ hw htw).1) p u rfl hu hnotp hlive'
      rw [hk, Except.ok.injEq] at hke
      subst hke
      exact ⟨e, k, hm, hk', hreach.tail ⟨u, hu, hlink, by rw [hv]; simp⟩⟩

/-- A snapshot of `o` taken in `m`: after the scan, or before it and seeing none of the versions that were dead at the scan. -/
def ScanSafe (s₀ : HeapState) (m : TransactionManager) (o : Nat) (sn : Snapshot) : Prop :=
  TransactionManager.Later s₀.manager m ∨ (TransactionManager.Later m s₀.manager ∧
    ∀ a v, s₀.table.physicalVersion a = some v → isVisible v sn o s₀.manager.statuses = true →
      v.xmin = o ∨ HeapTable.globallyLive v 0 s₀.manager.statuses = true)

/-- **No snapshot in use sees a version that is out.** -/
theorem Covers.not_out (h₀ : HeapInv s₀) (hl : TransactionManager.Later s₀.manager s.manager) (h : Covers s₀ b s)
    {m : TransactionManager} (hm : TransactionManager.Inv m) {o : Nat} {sn : Snapshot} (ht : m.Takes o sn)
    (hlm : TransactionManager.Later m s.manager) (ho : o ∈ s.manager.active) (hsafe : ScanSafe s₀ m o sn) {a : TID}
    {v : TupleVersion} (hv : s.table.physicalVersion a = some v) (hvis : isVisible v sn o s.manager.statuses = true) :
    ¬ Out s₀ a := by
  intro hout
  obtain ⟨v₀, v', hv₀, hv', hmin, hmax⟩ := h.out a hout
  rw [hv] at hv'
  cases hv'
  obtain ⟨v₁, hv₁, hclosed, hdead⟩ := hout.dead h₀
  rw [hv₀] at hv₁
  cases hv₁
  -- the owner is open, and the creator of the version had ended at the scan
  have hown : v₀.xmin ≠ o := by
    intro he
    have hset := TransactionManager.settled_later h₀.manager ⟨(h₀.xmin_pos hv₀).2, hclosed⟩ hl
    rw [he] at hset
    exact hset.1.2 ho
  obtain ⟨hfresh, t, htx, -⟩ := TransactionManager.takes_fresh ht
  have h2 := (hm.object o t htx).2.1
  rw [TransactionManager.isVisible_later hm h2 hfresh hlm, hmin, hmax] at hvis
  rcases hsafe with hafter | ⟨hbefore, hsees⟩
  · have hlater : ∀ y st, s₀.manager.statuses y = some st → m.statuses y = some st := fun y st hy => by
      rw [TransactionManager.status_later h₀.manager (by rw [hy]; simp) hafter, hy]
    rcases hvis with ⟨he, -⟩ | ⟨-, hc, hd⟩
    · exact hown he
    · rcases hdead with hab | ⟨-, hdc⟩
      · rcases hc with hsys | hc
        · have hpos := (h₀.xmin_pos hv₀).1
          rw [hsys] at hpos
          exact absurd hpos (by decide)
        · rw [hlater _ _ hab] at hc; cases hc
      · exact hd (Or.inr (hlater _ _ hdc))
  · have hvis₀ : isVisible v₀ sn o s₀.manager.statuses = true :=
      (TransactionManager.isVisible_later hm h2 hfresh hbefore v₀).2 hvis
    rcases hsees a v₀ hv₀ hvis₀ with he | hlive
    · exact hown he
    · obtain ⟨u, hu, hnot, -⟩ := hout
      rw [hv₀] at hu
      cases hu
      rw [hlive] at hnot
      cases hnot

/-! ## At the scan -/

theorem HeapInv.committed_reads (hi : HeapInv s) (hl : LiveTargets s.manager.statuses s.log) (row : Nat) :
    Reads (fun x => s.manager.statuses x = some .committed) (fun v => HeapTable.globallyLive v 0 s.manager.statuses) s.table
      s.log row := by
  have hzero : ¬ s.manager.statuses 0 = some .committed := by rw [hi.manager.status_zero]; simp
  refine ⟨hi.serial.mono (fun y hy hc => ?_), fun j w i u hw hc _ ht hu => ?_, hzero, fun a v hv => ?_⟩
  · rw [hc] at hy; cases hy
  · rcases hl j w i u hw ht hu with he | hc'
    · rw [he]; exact hc
    · exact hc'
  · rw [hi.globallyLive_iff hv]
    have hmin : v.xmin ≠ 0 := by have := (hi.xmin_pos hv).1; omega
    unfold HeapState.Live
    refine and_congr ⟨fun h => h.resolve_left hmin, Or.inr⟩ (not_congr ⟨fun h => h.2.resolve_left h.1, fun h => ⟨?_, Or.inr h⟩⟩)
    intro h0
    exact hzero (h0 ▸ h)

theorem HeapInv.mem_scanned_live (hi : HeapInv s) (hl : LiveTargets s.manager.statuses s.log) {a : TID} {v : TupleVersion}
    (hv : s.table.physicalVersion a = some v) (hp : HeapTable.globallyLive v 0 s.manager.statuses = true) :
    (a, v.values) ∈ s.table.scanned (fun v => HeapTable.globallyLive v 0 s.manager.statuses) := by
  refine ((hi.mirror.threaded hi.wf).mem_scanned (fun c e x y hx hy hpx hpy hreach => ?_)).2 ⟨v, hv, hp, rfl⟩
  have hrow := (hi.mirror.row_of_reach hi.wf (by rw [hx]; simp) hreach).2
  exact ((hi.committed_reads hl _).unique hi.mirror hi.wf hx hy rfl hrow hpx hpy).symm

end Covers

namespace WriterState

/-- **At the scan**: every version is out, listed, or continues one that is not out with the same key. -/
theorem covers_built {s : WriterState} (h : WriterInv s) (hst : Stored s.heap.table.physicalVersion s.heap.log s.heap.origin)
    {md : IndexMetadata} {d : List DataType} {b : IndexBinding} (hb : s.buildIndex md d = .ok b) (hopen : s.ContinuesKey b) :
    Covers s.heap b s.heap := by
  obtain ⟨rows, hrows, hb⟩ := bind_eq_ok.1 hb
  obtain ⟨tree, htree, he⟩ := bind_eq_ok.1 hb
  cases he
  have hi := h.heap
  obtain rfl := Except.ok.inj ((HeapTable.scanGloballyLive_ok hi.mirror hi.wf s.statuses).symm.trans hrows)
  refine ⟨fun k e he => ?_, fun a v hv => ?_, fun a ⟨v, hv, _⟩ => ⟨v, v, hv, hv, rfl, rfl⟩⟩
  · rcases (mem_buildTree htree List.nodup_nil).2 (k, e) he with hm | ⟨q, hq, rfl, -⟩
    · cases hm
    · obtain ⟨v, hv, -⟩ := HeapTable.scanned_sound hi.mirror hi.wf hq
      rw [hv]
      simp
  · by_cases hlive : HeapTable.globallyLive v 0 s.statuses = true
    · obtain ⟨k, hk, hm⟩ := (buildTree_lists htree).2 _ (hi.mem_scanned_live h.targets hv hlive)
      exact Or.inr (Or.inl ⟨k, hk, hm⟩)
    · by_cases hx : v.xmin ∈ s.active
      · refine Or.inr (Or.inr ?_)
        obtain ⟨p, u, hu, hn, hkeys⟩ := hopen a v hv hx
        -- the link is a replacement, by the open transaction
        obtain ⟨hne, hsuccs⟩ := hi.mirror.named p u a hu hn
        obtain ⟨w, hlast⟩ : ∃ w, LastReplaced s.heap.log (s.heap.origin p) (s.heap.origin a) w := by
          cases hsuccs with
          | one hl => exact ⟨_, hl⟩
          | step hl hg _ =>
            obtain ⟨e, he, ho⟩ := hst _ _ hl.get hl.value
            exact absurd ho (hg e he)
        obtain ⟨w', hw', hxw, -⟩ := (hi.mirror.carries a v hv).made
        rw [hlast.get] at hw'
        cases hw'
        refine ⟨p, u, w, hu, ?_, hlast.get, hlast.target, hkeys⟩
        rintro ⟨u₁, hu₁, hdead, hclosed⟩
        have hu' : s.heap.table.physicalVersion p = some u := hu
        rw [hu'] at hu₁
        cases hu₁
        obtain ⟨y, hy, hxy, -⟩ := (hi.mirror.carries p u hu').made
        rcases h.targets _ w _ y hlast.get hlast.target hy with hsame | hc
        · rw [← hxy, hsame, hxw] at hclosed
          exact hclosed hx
        · -- its deleter is open, so it is live
          obtain ⟨q, z, hz, ho, hmax⟩ := h.marked _ w _ hlast.get hlast.target (by rw [hxw]; exact hx)
          obtain rfl := hi.mirror.inj q p (by rw [hz]; simp) (by rw [hu']; simp) ho
          rw [hu'] at hz
          cases hz
          rw [Bool.eq_false_iff, Ne, hi.globallyLive_iff hu'] at hdead
          refine hdead ⟨Or.inr (hxy ▸ hc), ?_⟩
          rintro ⟨hz, h0 | hcom⟩
          · exact hz h0
          · rw [hmax, hxw, hi.manager.undecided _ hx] at hcom
            cases hcom
      · exact Or.inl ⟨v, hv, Bool.eq_false_iff.2 hlive, hx⟩

/-! ## Until the index is registered -/

/-- A version that `replace_mvcc` makes has the validated values, over the version it resolved. -/
theorem replaceChecked_version {s s' : TableState} {x : Nat} {p : TID} {old values : Values} {r : Option TID}
    (h : s.replaceChecked x p old values = .ok (s', r)) {a : TID} {v : TupleVersion}
    (ha : s.heap.table.physicalVersion a = none) (hv : s'.heap.table.physicalVersion a = some v) :
    s.heap.table.schema.validateRow values = .ok v.values ∧
      ∃ w, s'.heap.log[s'.heap.origin a]? = some w ∧ w.target = some (s.heap.origin p) := by
  obtain ⟨validated, hval, h⟩ := bind_eq_ok.1 h
  obtain ⟨oldKeys, -, h⟩ := bind_eq_ok.1 h
  obtain ⟨newKeys, -, h⟩ := bind_eq_ok.1 h
  obtain ⟨_, -, h⟩ := bind_eq_ok.1 h
  obtain ⟨⟨heap, replacement⟩, hr, h⟩ := bind_eq_ok.1 h
  have hheap : replacement = none ∨ s'.heap = heap := by
    cases replacement with
    | none => exact Or.inl rfl
    | some new =>
      refine Or.inr ?_
      simp only at h
      split at h
      · cases h; rfl
      · cases h; rfl
  obtain ⟨_, -, hr⟩ := bind_eq_ok.1 hr
  obtain ⟨⟨table, r'⟩, ht, hr⟩ := bind_eq_ok.1 hr
  rcases HeapTable.replaceVersion_eq_ok ht with ⟨rfl, rfl⟩ | ⟨u, new, rfl, hu, -, mid, ⟨hins, -⟩, hrew, -⟩
  · cases hr
    cases h
    rw [ha] at hv
    cases hv
  · cases hr
    rw [hheap.resolve_left (by simp)] at hv ⊢
    have hap : a ≠ p := by
      rintro rfl
      rw [ha] at hu
      cases hu
    have han : a = new := by
      by_contra hne
      simp only [hrew.versions, Function.update_of_ne hap, hins.versions, Function.update_of_ne hne] at hv
      rw [ha] at hv
      cases hv
    subst han
    simp only [hrew.versions, Function.update_of_ne hap, hins.versions, Function.update_self] at hv
    cases hv
    refine ⟨hval, ⟨x, s.heap.rowOf p, some (s.heap.origin p), some validated⟩, ?_, rfl⟩
    simp only [Function.update_self]
    exact getElem?_concat.2 (Or.inr ⟨rfl, rfl⟩)

/-- Of the turns of a row write only the last one of an update makes a version, over the one it resolved. -/
theorem turn_version {s s' : WriterState} (h : WriterInv s) {x : Nat} {k : RowTask} (hk : s.tasks x = some k)
    {stage : Option WriteStage} (hturn : s.turn x k = .ok (s', stage)) {a : TID} {v : TupleVersion}
    (ha : s.heap.table.physicalVersion a = none) (hv : s'.heap.table.physicalVersion a = some v) :
    ∃ root p u values, s.heap.table.physicalVersion p = some u ∧ k.stage = .writing root p u.values ∧
      k.write = .update values ∧ s.heap.table.schema.validateRow values = .ok v.values ∧
      ∃ w, s'.heap.log[s'.heap.origin a]? = some w ∧ w.target = some (s.heap.origin p) := by
  by_cases hst : ∃ root p old, k.stage = .writing root p old
  · obtain ⟨root, p, old, hst⟩ := hst
    unfold turn at hturn
    rw [hst] at hturn
    have ht := h.tasks x k hk
    obtain ⟨u, hu, -, -, rfl⟩ := (ht.root.resolved_live h.heap h.targets ht.active).1 (ht.live (some (p, old)) (by rw [hst]; rfl))
    cases hwr : k.write with
    | update values =>
      rw [hwr] at hturn
      obtain ⟨⟨table, replacement⟩, hr, hturn⟩ := bind_eq_ok.1 hturn
      cases replacement with
      | none => exact absurd hturn raise_ne_ok
      | some new =>
        cases hturn
        obtain ⟨hval, hw⟩ := replaceChecked_version hr ha hv
        exact ⟨root, p, u, values, hu, hst, rfl, hval, hw⟩
    | delete =>
      rw [hwr] at hturn
      obtain ⟨⟨heap, deleted⟩, hr, hturn⟩ := bind_eq_ok.1 hturn
      cases hturn
      exact absurd ha (deleteVersion_stored hr a (by rw [show heap.table.physicalVersion a = some v from hv]; simp))
  · rw [heap, turn_table hturn (fun root p old he => hst ⟨root, p, old, he⟩)] at hv
    exact absurd (ha.symm.trans hv) (by simp)

/-- The calls that are neither an insert, a vacuum nor a turn store no version. -/
theorem step_table {s : WriterState} {c : WriterCall} (hi : ∀ x values, c ≠ .insert x values)
    (hv : ∀ horizon, c ≠ .vacuum horizon)
    (ht : ∀ x, c ≠ .turn x) : (s.step c).heap.table = s.heap.table := by
  cases c with
  | manager mc =>
    cases mc with
    | commit x =>
      simp only [step]
      split
      · rfl
      · exact (s.managerCall_table _).2
    | begin | statementSnapshot | abort | markFailed => exact (s.managerCall_table _).2
  | insert x values => exact absurd rfl (hi x values)
  | vacuum horizon => exact absurd rfl (hv horizon)
  | createIndex md d =>
    simp only [step]
    split
    · rename_i table hcr
      obtain ⟨rows, -, hcr⟩ := bind_eq_ok.1 hcr
      obtain ⟨tree, -, he⟩ := bind_eq_ok.1 hcr
      cases he
      rfl
    · rfl
  | write leased x wr tid sn recheck =>
    simp only [step]
    split
    · rename_i s' _ hw
      rw [heap, startWrite_table hw]
      rfl
    · rfl
  | turn x => exact absurd rfl (ht x)

/-- **A step that keeps the key** makes a version over one with the same key, or none. -/
theorem keepsKey_version {s : WriterState} (h : WriterInv s) {b : IndexBinding} {c : WriterCall} (hc : keepsKey b s c) {a : TID}
    {v : TupleVersion} (ha : s.heap.table.physicalVersion a = none) (hv : (s.step c).heap.table.physicalVersion a = some v) :
    ∃ p u w, s.heap.table.physicalVersion p = some u ∧ (s.step c).heap.log[(s.step c).heap.origin a]? = some w ∧
      w.target = some (s.heap.origin p) ∧ SameKey b u.values v.values := by
  have hnew : (s.step c).heap.table ≠ s.heap.table := fun ht => by
    rw [ht, ha] at hv
    cases hv
  by_cases hturn : ∃ x, c = .turn x
  · obtain ⟨x, rfl⟩ := hturn
    simp only [step] at hv hnew ⊢
    cases hk : s.tasks x with
    | none => exact absurd (by rw [hk]) hnew
    | some k =>
      simp only [hk] at hv hnew ⊢
      cases hturn : s.turn x k with
      | error e => exact absurd (by rw [hturn]; exact (s.failTask_table x).2) hnew
      | ok q =>
        obtain ⟨s', stage⟩ := q
        simp only [hturn] at hv ⊢
        obtain ⟨root, p, u, values, hu, hst, hwr, hval, w, hw, htw⟩ := turn_version h hk hturn ha hv
        exact ⟨p, u, w, hu, hw, htw, hc k root p u.values values v.values hk hst hwr hval⟩
  · refine absurd (step_table ?_ ?_ (fun x he => hturn ⟨x, he⟩)) hnew
    · rintro x values rfl
      exact hc
    · rintro horizon rfl
      exact hc

/-- What the calls without a vacuum keep. -/
structure Plain (s : WriterState) : Prop where
  writer : WriterInv s
  stored : Stored s.heap.table.physicalVersion s.heap.log s.heap.origin

theorem Plain.step {s : WriterState} (h : Plain s) {c : WriterCall} (hc : ∀ horizon, c ≠ .vacuum horizon) : Plain (s.step c) := by
  have hm := step_moved h.writer hc
  exact ⟨hm.writerInv h.writer, stored_stepped hm.stepped h.stored⟩

/-- **Until the index is registered** the private tree stays complete. -/
theorem covers_unregistered {s₀ : HeapState} (h₀ : HeapInv s₀) {b : IndexBinding} : ∀ (calls : List WriterCall) {s : WriterState},
    Plain s → TransactionManager.Later s₀.manager s.heap.manager → Along (keepsKey b) s calls → Covers s₀ b s.heap →
    Plain (s.run calls) ∧ HeapLater True s.heap (s.run calls).heap ∧ Covers s₀ b (s.run calls).heap
  | [], s, h, _, _, hcov => ⟨h, .refl, hcov⟩
  | c :: calls, s, h, hl, ⟨hc, hrest⟩, hcov => by
    have hno : ∀ horizon, c ≠ .vacuum horizon := by
      rintro horizon rfl
      exact hc
    have hstep := (step_moved h.writer hno).stepped
    have hcov' := hcov.step h₀ h.writer.heap hl hstep (fun _ => rfl) (fun _ he => he) (fun _ _ he => Or.inl he)
      (fun a v ha hv => Or.inr (keepsKey_version h.writer hc ha hv))
    obtain ⟨hp, hlater, hcov''⟩ :=
      covers_unregistered h₀ calls (h.step hno) (hl.trans (manager_later (.single hstep))) hrest hcov'
    exact ⟨hp, .head hstep hlater, hcov''⟩

/-! ## From then on -/

/-- **A registered index stays complete**: a version is listed in it, or is heap-only over a version with the same keys. -/
theorem covers_listing {s₀ : HeapState} (h₀ : HeapInv s₀) {s s' : TableState} (hi : HeapInv s.heap)
    (hl : TransactionManager.Later s₀.manager s.heap.manager) (hs : HeapStepped True s.heap s'.heap) {creates : Prop}
    (hlist : Listing creates s s') {b : IndexBinding} (hb : b ∈ s.indexes) (hcov : Covers s₀ b s.heap) :
    ∃ b' ∈ s'.indexes, b' = { b with tree := b'.tree } ∧ Covers s₀ b' s'.heap := by
  cases hlist with
  | same he hold =>
    refine ⟨b, by rw [he]; exact hb, rfl, hcov.step h₀ hi hl hs (fun _ => rfl) (fun _ h => h) (fun _ _ h => Or.inl h)
      (fun a v ha hv => absurd ha (hold a (by rw [hv]; simp)))⟩
  | created hc c rows tree hh hrows hct ht he =>
    refine ⟨b, by rw [he]; exact List.mem_append_left _ hb, rfl, ?_⟩
    rw [hh]
    exact hcov
  | listed tid v keys hn hk he =>
    obtain ⟨k, hkey, hm⟩ := @insertKeys_keeps _ tid _ _ _ hk hb
    refine ⟨{ b with tree := b.tree.insert k tid }, by rw [he]; exact hm, rfl, hcov.step h₀ hi hl hs (fun _ => rfl)
      (fun e h => BTree.mem_insert.2 (Or.inl h)) (fun k' e h => ?_) (fun a v' ha hv' => ?_)⟩
    · rcases BTree.mem_insert.1 h with h | h
      · exact Or.inl h
      · cases h
        exact Or.inr (by rw [hn.stored]; simp)
    · have hat : a = tid := by
        by_contra hne
        exact hn.only a hne (by rw [hv']; simp) ha
      subst hat
      rw [hn.stored] at hv'
      cases hv'
      exact Or.inl ⟨k, hkey, BTree.mem_insert.2 (Or.inr rfl)⟩
  | hot tid p v u keys hn hu hpage ho hk hk' he =>
    refine ⟨b, by rw [he]; exact hb, rfl, hcov.step h₀ hi hl hs (fun _ => rfl) (fun _ h => h) (fun _ _ h => Or.inl h)
      (fun a v' ha hv' => ?_)⟩
    have hat : a = tid := by
      by_contra hne
      exact hn.only a hne (by rw [hv']; simp) ha
    subst hat
    rw [hn.stored] at hv'
    cases hv'
    obtain ⟨w, hw, htw⟩ := ho
    exact Or.inr ⟨p, u, w, hu, hw, htw, sameKeys_of_keysOf hk hk' b hb⟩

theorem covers_registered {s₀ : HeapState} (h₀ : HeapInv s₀) : ∀ (calls : List WriterCall) {s : WriterState} {b : IndexBinding},
    Plain s → TransactionManager.Later s₀.manager s.heap.manager → (∀ c ∈ calls, ∀ horizon, c ≠ .vacuum horizon) →
    b ∈ s.table.indexes → Covers s₀ b s.heap →
    Plain (s.run calls) ∧ HeapLater True s.heap (s.run calls).heap ∧
      ∃ b' ∈ (s.run calls).table.indexes, b' = { b with tree := b'.tree } ∧ Covers s₀ b' (s.run calls).heap
  | [], s, b, h, _, _, hb, hcov => ⟨h, .refl, b, hb, rfl, hcov⟩
  | c :: calls, s, b, h, hl, hno, hb, hcov => by
    have hc := hno c List.mem_cons_self
    have hstep := (step_moved h.writer hc).stepped
    obtain ⟨b₁, hb₁, hbb, hcov₁⟩ := covers_listing h₀ h.writer.heap hl hstep (step_listing h.writer hc) hb hcov
    obtain ⟨hp, hlater, b', hb', hbb', hcov'⟩ := covers_registered h₀ calls (h.step hc)
      (hl.trans (manager_later (.single hstep))) (fun d hd => hno d (List.mem_cons_of_mem _ hd)) hb₁ hcov₁
    refine ⟨hp, .head hstep hlater, b', hb', ?_, hcov'⟩
    rw [hbb', hbb]

theorem Plain.run : ∀ (calls : List WriterCall) {s : WriterState}, Plain s → (∀ c ∈ calls, ∀ horizon, c ≠ .vacuum horizon) →
    Plain (s.run calls) ∧ HeapLater True s.heap (s.run calls).heap
  | [], s, h, _ => ⟨h, .refl⟩
  | c :: calls, s, h, hno => by
    have hc := hno c List.mem_cons_self
    obtain ⟨hp, hl⟩ := Plain.run calls (h.step hc) (fun d hd => hno d (List.mem_cons_of_mem _ hd))
    exact ⟨hp, .head (step_moved h.writer hc).stepped hl⟩

theorem Plain.addIndex {s : WriterState} (h : Plain s) (b : IndexBinding) : Plain (s.addIndex b) := by
  refine ⟨⟨h.writer.heap, h.writer.targets, h.writer.marked, h.writer.held, fun x k hk => ?_⟩, h.stored⟩
  have ht := h.writer.tasks x k hk
  exact ⟨ht.active, ht.root, ht.row, ht.locked, ht.live⟩

theorem plain_start (r : Recovered) (schema : Schema) : Plain (start r schema) :=
  ⟨writerInv_start r schema, fun i w hw => by simp [start, heap, TableState.start, HeapState.start] at hw⟩

theorem no_vacuum_of_keepsKey {b : IndexBinding} : ∀ {calls : List WriterCall} {s : WriterState}, Along (keepsKey b) s calls →
    ∀ c ∈ calls, ∀ horizon, c ≠ .vacuum horizon
  | d :: calls, s, ⟨hd, hrest⟩, c, hc => by
    rcases List.mem_cons.1 hc with rfl | hc
    · rintro horizon rfl
      exact hd
    · exact no_vacuum_of_keepsKey hrest c hc

/-- **The new index finds what the snapshot sees**: an index scan for any key returns the rows of the heap scan with the key. -/
def FindsRows (s : WriterState) (md : IndexMetadata) (d : List DataType) (o : Nat) (sn : Snapshot) : Prop :=
  ∃ b ∈ s.table.indexes, b.metadata = md ∧ b.dataTypes = d ∧ ∀ key, ∃ found rows,
    b.indexScan s.heap.table key sn o s.statuses = .ok found ∧ s.heap.table.scanVisible sn o s.statuses = .ok rows ∧
    ∀ q, q ∈ found ↔ q ∈ rows ∧ b.key q.2 = .ok key

def sameKeys (b : IndexBinding) (old validated : Values) : Bool :=
  match b.key old, b.key validated with
  | .ok k, .ok k' => decide (k = k')
  | _, _          => false

/-- `keepsKey`, computed. -/
def keyKept (b : IndexBinding) (s : WriterState) : WriterCall → Bool
  | .insert _ _ => false
  | .vacuum _   => false
  | .turn x     =>
    match s.tasks x with
    | some ⟨_, .update values, _, _, _, _, .writing _ _ old⟩ =>
      match s.heap.table.schema.validateRow values with
      | .ok validated => sameKeys b old validated
      | .error _      => true
    | _ => true
  | _           => true

theorem sameKey_of_sameKeys {b : IndexBinding} {old validated : Values} (h : sameKeys b old validated = true) :
    SameKey b old validated := by
  unfold sameKeys at h
  cases hold : b.key old with
  | error e => rw [hold] at h; cases h
  | ok k =>
    cases hnew : b.key validated with
    | error e => rw [hold, hnew] at h; cases h
    | ok k' =>
      rw [hold, hnew] at h
      obtain rfl := of_decide_eq_true h
      exact ⟨k, hold, hnew⟩

theorem keepsKey_of_keyKept {b : IndexBinding} {s : WriterState} {c : WriterCall}
    (h : keyKept b s c = true) : keepsKey b s c := by
  cases c with
  | insert xid values => cases h
  | vacuum horizon => cases h
  | turn x =>
    intro k root p old values validated hk hstage hwrite hvalid
    obtain ⟨leased, write, tid, snapshot, recheck, row, stage⟩ := k
    cases hstage
    cases hwrite
    simp only [keyKept, hk, hvalid] at h
    exact sameKey_of_sameKeys h
  | _ => trivial

def keysKept (b : IndexBinding) : WriterState → List WriterCall → Bool
  | _, []         => true
  | s, c :: calls => keyKept b s c && keysKept b (s.step c) calls

theorem along_of_keysKept {b : IndexBinding} : ∀ {calls : List WriterCall} {s : WriterState}, keysKept b s calls = true →
    Along (keepsKey b) s calls
  | [], _, _     => trivial
  | _ :: _, _, h => ⟨keepsKey_of_keyKept (Bool.and_eq_true_iff.1 h).1, along_of_keysKept (Bool.and_eq_true_iff.1 h).2⟩

/-- A committed row, and a transaction that is about to update it. -/
def rowBeforeIndex : List WriterCall := committedRow ++ [.manager (.begin .readCommitted)]

/-- The index that the scan makes of the row. -/
def builtIndex : IndexBinding := ⟨⟨1, ['i'], [0], false⟩, [.int64], [([1, 128, 0, 0, 0, 0, 0, 0, 5], ⟨0, 0⟩)]⟩

end WriterState

end MiniPostgres
