import MiniPostgres.Integrity
/-!
# VacuumReturns — when a vacuum returns

Whatever earlier vacuums reclaimed, the links between stored versions lead to younger ones and every stored version
passes the tuple codec (`Ordered`).  So a vacuum raises for three reasons only: a key it reads cannot be encoded, a chain it
prunes leaves its page or meets a dead slot, or a link left behind joins another chain to one it prunes.  `VacuumReady`
excludes them in the state before the vacuum.
-/
namespace MiniPostgres

open History (lt_of_getElem?)

/-! ## Links lead to younger versions -/

/-- **What every call keeps of the stored versions**, a vacuum included: `n` versions were written so far. -/
structure Ordered (schema : Schema) (look : Versions) (origin : TID → Nat) (n : Nat) : Prop where
  bound   : ∀ a v, look a = some v → origin a < n
  ranked  : Linked.Ranked look TupleVersion.nextTid origin
  encodes : ∀ a v, look a = some v → HeapTable.Encodes schema v
  writers : ∀ a v, look a = some v → 2 ≤ v.xmin

namespace Ordered

variable {schema : Schema} {look : Versions} {origin : TID → Nat} {n : Nat}

theorem insert (h : Ordered schema look origin n) {tid : TID} {v : TupleVersion} (hnext : v.nextTid = none)
    (he : HeapTable.Encodes schema v) (hx : 2 ≤ v.xmin) :
    Ordered schema (Function.update look tid (some v)) (Function.update origin tid n) (n + 1) := by
  have hlook : ∀ {a : TID} {w : TupleVersion}, Function.update look tid (some v) a = some w →
      (a = tid ∧ w = v) ∨ (a ≠ tid ∧ look a = some w) := by
    intro a w ha
    by_cases hat : a = tid
    · subst hat
      rw [Function.update_self] at ha
      exact Or.inl ⟨rfl, (Option.some.inj ha).symm⟩
    · rw [Function.update_of_ne hat] at ha
      exact Or.inr ⟨hat, ha⟩
  refine ⟨fun a w ha => ?_, fun a w c u ha hn hc => ?_, fun a w ha => ?_, fun a w ha => ?_⟩
  · rcases hlook ha with ⟨rfl, -⟩ | ⟨hne, ha⟩
    · rw [Function.update_self]; omega
    · rw [Function.update_of_ne hne]
      have := h.bound a w ha
      omega
  · rcases hlook ha with ⟨-, rfl⟩ | ⟨hne, ha'⟩
    · rw [hnext] at hn; cases hn
    · rw [Function.update_of_ne hne]
      rcases hlook hc with ⟨rfl, -⟩ | ⟨hne', hc'⟩
      · rw [Function.update_self]; exact h.bound a w ha'
      · rw [Function.update_of_ne hne']; exact h.ranked a w c u ha' hn hc'
  · rcases hlook ha with ⟨-, rfl⟩ | ⟨-, ha⟩
    · exact he
    · exact h.encodes a w ha
  · rcases hlook ha with ⟨-, rfl⟩ | ⟨-, ha⟩
    · exact hx
    · exact h.writers a w ha

theorem rewrite (h : Ordered schema look origin n) {tid : TID} {old v : TupleVersion} (hold : look tid = some old)
    (hx : v.xmin = old.xmin) (he : HeapTable.Encodes schema v)
    (hnext : ∀ c u, v.nextTid = some c → look c = some u → origin tid < origin c) :
    Ordered schema (Function.update look tid (some v)) origin n := by
  have hlook : ∀ {a : TID} {w : TupleVersion}, Function.update look tid (some v) a = some w →
      (a = tid ∧ w = v) ∨ look a = some w := by
    intro a w ha
    by_cases hat : a = tid
    · subst hat
      rw [Function.update_self] at ha
      exact Or.inl ⟨rfl, (Option.some.inj ha).symm⟩
    · rw [Function.update_of_ne hat] at ha
      exact Or.inr ha
  have hstored : ∀ {a : TID} {w : TupleVersion}, Function.update look tid (some v) a = some w → ∃ u, look a = some u := by
    intro a w ha
    rcases hlook ha with ⟨rfl, -⟩ | ha
    · exact ⟨old, hold⟩
    · exact ⟨w, ha⟩
  refine ⟨fun a w ha => ?_, fun a w c u ha hn hc => ?_, fun a w ha => ?_, fun a w ha => ?_⟩
  · obtain ⟨u, hu⟩ := hstored ha
    exact h.bound a u hu
  · obtain ⟨u', hu'⟩ := hstored hc
    rcases hlook ha with ⟨rfl, rfl⟩ | ha
    · exact hnext c u' hn hu'
    · exact h.ranked a w c u' ha hn hu'
  · rcases hlook ha with ⟨-, rfl⟩ | ha
    · exact he
    · exact h.encodes a w ha
  · rcases hlook ha with ⟨rfl, rfl⟩ | ha
    · rw [hx]; exact h.writers a old hold
    · exact h.writers a w ha

theorem remove (h : Ordered schema look origin n) {look' : Versions} (hsub : ∀ a v, look' a = some v → look a = some v) :
    Ordered schema look' origin n :=
  ⟨fun a v ha => h.bound a v (hsub a v ha),
    fun a v c u ha hn hc => h.ranked a v c u (hsub a v ha) hn (hsub c u hc),
    fun a v ha => h.encodes a v (hsub a v ha), fun a v ha => h.writers a v (hsub a v ha)⟩

theorem clear (h : Ordered schema look origin n) (c : TID) : Ordered schema (Function.update look c none) origin n := by
  refine h.remove (fun a v ha => ?_)
  by_cases hac : a = c
  · subst hac; rw [Function.update_self] at ha; cases ha
  · rw [Function.update_of_ne hac] at ha; exact ha

theorem prune {removable : List TID} : ∀ (l : List (TID × TupleVersion)) (look : Versions) (p : TID) (pv : TupleVersion),
    Ordered schema look origin n → look p = some pv → Linked.Complete look TupleVersion.nextTid pv.nextTid l →
    (p :: l.map Prod.fst).Nodup → Ordered schema (HeapTable.prunedLook removable look p pv l) origin n
  | [], _, _, _, h, _, _, _ => h
  | (c, v) :: l, look, p, pv, h, hp, hc, hnd => by
    cases hn : pv.nextTid with
    | none => rw [hn] at hc; cases hc
    | some c' =>
      rw [hn] at hc
      cases hc with
      | cons _ _ _ hv ht =>
        rw [List.map_cons, List.nodup_cons, List.nodup_cons, List.mem_cons, not_or] at hnd
        obtain ⟨⟨hpc, hpl⟩, hcl, hnl⟩ := hnd
        simp only [HeapTable.prunedLook]
        split
        · have hlt := h.ranked p pv c v hp hn hv
          have hmid := (h.rewrite (v := { pv with nextTid := v.nextTid }) hp rfl (h.encodes p pv hp)
            (fun d u hd hu => Nat.lt_trans hlt (h.ranked c v d u hv hd hu))).clear c
          refine prune l _ p { pv with nextTid := v.nextTid } hmid ?_ ?_ (List.nodup_cons.2 ⟨hpl, hnl⟩)
          · rw [Function.update_of_ne hpc, Function.update_self]
          · refine ht.transfer (fun q hq => ?_)
            have hqc : q.1 ≠ c := fun he => hcl (he ▸ List.mem_map.2 ⟨q, hq, rfl⟩)
            have hqp : q.1 ≠ p := fun he => hpl (he ▸ List.mem_map.2 ⟨q, hq, rfl⟩)
            rw [Function.update_of_ne hqc, Function.update_of_ne hqp]
            exact ht.path.look_of_mem hq
        · exact prune l look c v h hv ht (List.nodup_cons.2 ⟨hcl, hnl⟩)

end Ordered

/-- The order of a whole state. -/
def HeapState.ordered (s : HeapState) : Prop := Ordered s.table.schema s.table.physicalVersion s.origin s.log.length

theorem ordered_stepped {live : Prop} {s s' : HeapState} (hi : TransactionManager.Inv s.manager) (h : s.ordered)
    (hs : HeapStepped live s s') : s'.ordered := by
  unfold HeapState.ordered at h ⊢
  cases hs with
  | same => exact h
  | manager m hm => exact h
  | inserted x hx values table tid hins he =>
    simp only [hins.versions, hins.schema, List.length_append, List.length_singleton]
    exact h.insert rfl he (hi.active_lt hx).1
  | replaced x hx values tid new old mid table hold hw _ hins hrew he he' =>
    have hne : tid ≠ new := hins.ne (by rw [hold]; simp)
    simp only [hrew.versions, hrew.schema, hins.versions, hins.schema, List.length_append, List.length_singleton]
    have hold' : Function.update s.table.physicalVersion new (some ⟨x, 0, none, values⟩) tid = some old := by
      rw [Function.update_of_ne hne, hold]
    refine (h.insert (v := ⟨x, 0, none, values⟩) rfl he (hi.active_lt hx).1).rewrite
      (v := ⟨old.xmin, x, some new, old.values⟩) hold' rfl he' (fun c u hc hu => ?_)
    cases hc
    rw [Function.update_self, Function.update_of_ne hne]
    exact h.bound tid old hold
  | deleted x hx tid old table hold hw _ hrew he =>
    simp only [hrew.versions, hrew.schema, List.length_append, List.length_singleton]
    refine Ordered.rewrite ?_ hold rfl he (fun c u hc hu => h.ranked tid old c u hold hc hu)
    exact ⟨fun a v ha => Nat.lt_succ_of_lt (h.bound a v ha), h.ranked, h.encodes, h.writers⟩

/-! ## The loops keep the order -/

section Loops

variable {origin : TID → Nat} {n : Nat} {horizon : Nat} {st : StatusTable}

/-- The heap of a loop's state is ordered and has the table's schema. -/
def KeepsOrder (schema : Schema) (origin : TID → Nat) (n : Nat) (t : HeapTable) : Prop :=
  t.schema = schema ∧ Ordered schema t.physicalVersion origin n

theorem pruneChain_keepsOrder {schema : Schema} {t t' : HeapTable} {r : TID} {removable : List TID} {counts : Nat × Nat}
    {chain : List (TID × TupleVersion)} (h : KeepsOrder schema origin n t) (hc : t.versionChain r = .ok chain)
    (hp : t.pruneChain r removable = .ok (t', counts)) : KeepsOrder schema origin n t' := by
  obtain ⟨hcomp, -⟩ := HeapTable.versionChain_eq_ok hc
  have hnd := hcomp.path.nodup h.2.ranked
  cases hcomp with
  | cons _ v l hv hl =>
    simp only [HeapTable.pruneChain, hv] at hp
    obtain ⟨hlook, hschema⟩ := HeapTable.pruneLoop_eq_ok l _ hl hnd hp
    exact ⟨hschema.trans h.1, by rw [hlook]; exact h.2.prune l _ r v hv hl hnd⟩

theorem pruneStep_keepsOrder {schema : Schema} {indexes : List IndexBinding} {conts : List TID} {p p' : Pruning}
    {root : TID × TupleVersion} (h : KeepsOrder schema origin n p.heap)
    (hs : pruneStep indexes conts horizon st p root = .ok p') : KeepsOrder schema origin n p'.heap := by
  obtain ⟨sel, -, hs⟩ := bind_eq_ok.1 hs
  cases sel with
  | false => cases hs; exact h
  | true =>
    obtain ⟨chain, hchain, hs⟩ := bind_eq_ok.1 hs
    obtain ⟨⟨heap, counts⟩, hprune, he⟩ := bind_eq_ok.1 hs
    cases he
    exact pruneChain_keepsOrder h hchain hprune

theorem sweepStep_keepsOrder {schema : Schema} {processed : List TID} {s s' : Sweeping} {item : TID × TupleVersion}
    (h : KeepsOrder schema origin n s.heap) (hs : sweepStep processed horizon st s item = .ok s') :
    KeepsOrder schema origin n s'.heap := by
  rcases sweepStep_cases hs with ⟨rfl, -⟩ | ⟨-, -, -, hlook, hschema, -⟩
  · exact h
  · exact ⟨hschema.trans h.1, by rw [hlook]; exact h.2.clear item.1⟩

theorem vacuumEffect_keepsOrder {schema : Schema} {t : IndexedTable} (h : KeepsOrder schema origin n t.heap) :
    KeepsOrder schema origin n (t.vacuumEffect horizon st).heap := by
  have hp := progress_keeps (P := fun p : Pruning => KeepsOrder schema origin n p.heap)
    (fun p a p' hp hs => pruneStep_keepsOrder hp hs) (f := pruneStep t.indexes t.heap.continuations horizon st)
    t.heap.scanVersions ⟨t.heap, [], 0, 0⟩ h
  unfold IndexedTable.vacuumEffect
  split
  · exact hp
  · rename_i p hok
    rw [progress_of_ok hok] at hp
    exact progress_keeps (P := fun s : Sweeping => KeepsOrder schema origin n s.heap)
      (fun s a s' hs hstep => sweepStep_keepsOrder hs hstep) t.heap.scanVersions _ hp

end Loops

/-! ## The loops return -/

namespace HeapTable

theorem pruneLoop_ok {removable : List TID} : ∀ (l : List (TID × TupleVersion)) (n : Nat) {t : HeapTable} {p : TID}
    {pv : TupleVersion} {cur : Option TID} (counters : Nat × Nat),
    Linked.Complete t.physicalVersion TupleVersion.nextTid cur l → t.physicalVersion p = some pv →
      (p :: l.map Prod.fst).Nodup → Encodes t.schema pv → (∀ q ∈ l, Encodes t.schema q.2) → l.length ≤ n →
      ∃ r, pruneLoop removable n t p pv cur counters = .ok r
  | [], n, t, p, pv, cur, counters, hc, _, _, _, _, _ => by
    cases hc
    cases n <;> exact ⟨_, rfl⟩
  | (c, v) :: l, n, t, p, pv, cur, counters, hc, hp, hnd, hep, hel, hn => by
    cases hc with
    | cons _ _ _ hv ht =>
      obtain ⟨n, rfl⟩ : ∃ k, n = k + 1 := ⟨n - 1, by simp at hn; omega⟩
      rw [List.map_cons, List.nodup_cons, List.nodup_cons, List.mem_cons, not_or] at hnd
      obtain ⟨⟨hpc, hpl⟩, hcl, hnl⟩ := hnd
      have hlen : l.length ≤ n := by simp at hn; omega
      obtain ⟨removed, reclaimed⟩ := counters
      simp only [pruneLoop, hv]
      split
      · obtain ⟨t₁, hset⟩ := setVersion_ok (v := { pv with nextTid := v.nextTid }) hp rfl hep
        obtain ⟨hrew, -⟩ := setVersion_eq_ok hset
        obtain ⟨hlook, hschema⟩ := reclaimVersion_versions t₁ c
        have hlook' : (t₁.reclaimVersion c).1.physicalVersion =
            Function.update (Function.update t.physicalVersion p (some { pv with nextTid := v.nextTid })) c none := by
          rw [hlook, hrew.versions]
        have hsch : (t₁.reclaimVersion c).1.schema = t.schema := hschema.trans hrew.schema
        simp only [hset, bind, Except.bind]
        refine pruneLoop_ok l n _ (ht.transfer (fun q hq => ?_)) ?_ (List.nodup_cons.2 ⟨hpl, hnl⟩) ?_ (fun q hq => ?_) hlen
        · have hqc : q.1 ≠ c := fun he => hcl (he ▸ List.mem_map.2 ⟨q, hq, rfl⟩)
          have hqp : q.1 ≠ p := fun he => hpl (he ▸ List.mem_map.2 ⟨q, hq, rfl⟩)
          rw [hlook', Function.update_of_ne hqc, Function.update_of_ne hqp]
          exact ht.path.look_of_mem hq
        · rw [hlook', Function.update_of_ne hpc, Function.update_self]
        · rw [hsch]; exact hep
        · rw [hsch]; exact hel q (List.mem_cons_of_mem _ hq)
      · exact pruneLoop_ok l n _ ht hv (List.nodup_cons.2 ⟨hcl, hnl⟩) (hel (c, v) List.mem_cons_self)
          (fun q hq => hel q (List.mem_cons_of_mem _ hq)) hlen

end HeapTable

/-- **The states a vacuum does not fail on.**  The membership tests of the two loops reach no key that cannot be encoded, and
neither does the removal of a dead version's entries; the chains to prune end at a version without a next one, on
one page; and no slot of such a chain is the next of two stored versions. -/
structure VacuumReady (t : IndexedTable) (horizon : Nat) (st : StatusTable) : Prop where
  roots    : ∀ a v next, t.heap.physicalVersion a = some v → v.nextTid = some next → a ∉ t.heap.continuations →
    (∃ b, indexedByAny a v.values t.indexes = .ok b) ∧
      ∀ w, t.heap.physicalVersion next = some w → ∃ b, indexedByAny next w.values t.indexes = .ok b
  chains   : ∀ r, Selected t r → ∃ l, Linked.Complete t.heap.physicalVersion TupleVersion.nextTid (some r) l ∧
    ∀ p ∈ l, p.1.pageId = r.pageId
  unshared : ∀ c, OnPruned t c → ∀ a v a' v', t.heap.physicalVersion a = some v →
    t.heap.physicalVersion a' = some v' → v.nextTid = some c → v'.nextTid = some c → a = a'
  held     : ∀ a v next w, t.heap.physicalVersion a = some v → ¬ OnPruned t a → v.nextTid = some next →
    t.heap.physicalVersion next = some w → ∃ b, indexedByAll next w.values t.indexes = .ok b
  keys     : ∀ a v, t.heap.physicalVersion a = some v → ¬ OnPruned t a → classifyVersion v horizon st = .dead →
    heldBack t.heap t.indexes v = .ok false → ∃ ks, keysOf t.indexes v.values = .ok ks

section Returns

variable {t : IndexedTable} {origin : TID → Nat} {n : Nat} {horizon : Nat} {st : StatusTable}

theorem Selected.not_named {r : TID} (h : Selected t r) {a : TID} {v : TupleVersion} (ha : t.heap.physicalVersion a = some v) :
    v.nextTid ≠ some r := by
  obtain ⟨_, -, hsel⟩ := h
  intro hn
  exact (selects_eq_true hsel).1 (HeapTable.mem_continuations.2 ⟨a, v, ha, hn⟩)

theorem VacuumReady.pred {r a c : TID} {v : TupleVersion} (h : VacuumReady t horizon st) (hr : Selected t r)
    (hreach : Linked.Reach t.heap.physicalVersion TupleVersion.nextTid r c) (ha : t.heap.physicalVersion a = some v)
    (hn : v.nextTid = some c) : Linked.Reach t.heap.physicalVersion TupleVersion.nextTid r a := by
  rcases Relation.ReflTransGen.cases_tail hreach with rfl | ⟨x, hx, y, hy, hxn, -⟩
  · exact absurd hn (hr.not_named ha)
  · obtain rfl := h.unshared c ⟨r, hr, hreach⟩ a v x y ha hy hn hxn
    exact hx

theorem VacuumReady.root_unique {r r' a : TID} (h : VacuumReady t horizon st) (hr : Selected t r) (hr' : Selected t r')
    (hra : Linked.Reach t.heap.physicalVersion TupleVersion.nextTid r a)
    (hra' : Linked.Reach t.heap.physicalVersion TupleVersion.nextTid r' a) : r = r' := by
  induction hra with
  | refl =>
    rcases Relation.ReflTransGen.cases_tail hra' with he | ⟨x, -, y, hy, hn, -⟩
    · exact he
    · exact absurd hn (hr.not_named hy)
  | tail _ hlink ih =>
    obtain ⟨y, hy, hn, -⟩ := hlink
    exact ih (h.pred hr' hra' hy hn)

/-- What the first loop has done so far: `done` are the roots it has met. -/
structure PruneReady (t : IndexedTable) (origin : TID → Nat) (n : Nat) (done : TID → Prop) (p : Pruning) : Prop where
  order  : KeepsOrder t.heap.schema origin n p.heap
  same   : ∀ a, a ∉ p.processed → p.heap.physicalVersion a = t.heap.physicalVersion a
  chosen : ∀ a ∈ p.processed, ∃ r, Selected t r ∧ done r ∧ Linked.Reach t.heap.physicalVersion TupleVersion.nextTid r a
  met    : ∀ r, Selected t r → done r → ∀ a, Linked.Reach t.heap.physicalVersion TupleVersion.nextTid r a →
    a ∈ p.processed

theorem selects_ok (h : VacuumReady t horizon st) {a : TID} {v : TupleVersion} (ha : t.heap.physicalVersion a = some v) :
    ∃ b, selects t.indexes t.heap.continuations t.heap a v = .ok b := by
  unfold selects
  split
  · exact ⟨_, rfl⟩
  · rename_i next hn
    split
    · exact ⟨_, rfl⟩
    · rename_i hc
      obtain ⟨⟨b, hb⟩, hsucc⟩ := h.roots a v next ha hn hc
      simp only [hb, bind, Except.bind]
      cases hw : t.heap.physicalVersion next with
      | none => exact ⟨_, rfl⟩
      | some w =>
        obtain ⟨b', hb'⟩ := hsucc w hw
        simp only [hb']
        exact ⟨_, rfl⟩

theorem versionChain_pruneChain_ok {schema : Schema} {heap : HeapTable} (ho : KeepsOrder schema origin n heap) {r : TID}
    {v : TupleVersion} {l : List (TID × TupleVersion)}
    (hc : Linked.Complete heap.physicalVersion TupleVersion.nextTid (some r) ((r, v) :: l))
    (hpage : ∀ p ∈ (r, v) :: l, p.1.pageId = r.pageId) (removable : List TID) :
    heap.versionChain r = .ok ((r, v) :: l) ∧ ∃ q, heap.pruneChain r removable = .ok q ∧
      q.1.physicalVersion = HeapTable.prunedLook removable heap.physicalVersion r v l := by
  have hnd := hc.path.nodup ho.2.ranked
  have hlen : ((r, v) :: l).length ≤ heap.scanVersions.length := by
    have hsub : ((r, v) :: l).map Prod.fst ⊆ heap.scanVersions.map Prod.fst := by
      intro a ha
      obtain ⟨p, hp, rfl⟩ := List.mem_map.1 ha
      exact heap.mem_keys p.1 (by rw [hc.path.look_of_mem hp]; simp)
    have := (List.subperm_of_subset hnd hsub).length_le
    rwa [List.length_map, List.length_map] at this
  have henc : ∀ q ∈ (r, v) :: l, HeapTable.Encodes heap.schema q.2 := fun q hq => by
    rw [ho.1]; exact ho.2.encodes q.1 q.2 (hc.path.look_of_mem hq)
  refine ⟨HeapTable.versionChainLoop_ok hc _ [] hpage hnd (by simp) (by omega), ?_⟩
  cases hc with
  | cons _ _ _ hv hl =>
    obtain ⟨⟨heap', counts⟩, hq⟩ : ∃ q, HeapTable.pruneLoop removable (heap.scanVersions.length + 1) heap r v v.nextTid (0, 0) =
        .ok q :=
      HeapTable.pruneLoop_ok l _ _ hl hv hnd (henc (r, v) List.mem_cons_self)
        (fun q hq => henc q (List.mem_cons_of_mem _ hq)) (by simp at hlen; omega)
    refine ⟨(heap', counts), by simp only [HeapTable.pruneChain, hv, hq], ?_⟩
    exact (HeapTable.pruneLoop_eq_ok l _ hl hnd hq).1

/-- **One scanned version of the first loop returns.** -/
theorem pruneStep_ok (h : VacuumReady t horizon st) {done : TID → Prop} {p : Pruning} {r : TID} {vr : TupleVersion}
    (hr : t.heap.physicalVersion r = some vr) (hnd : ¬ done r) (hp : PruneReady t origin n done p) :
    ∃ p', pruneStep t.indexes t.heap.continuations horizon st p (r, vr) = .ok p' ∧
      PruneReady t origin n (fun x => done x ∨ x = r) p' := by
  have hsame : selects t.indexes t.heap.continuations p.heap r vr =
      selects t.indexes t.heap.continuations t.heap r vr := by
    refine selects_congr (fun hrc next hn => hp.same next (fun hmem => ?_))
    obtain ⟨r', hr', hdone, hreach⟩ := hp.chosen next hmem
    rcases Relation.ReflTransGen.cases_tail (h.pred hr' hreach hr hn) with rfl | ⟨x, -, y, hy, hxn, -⟩
    · exact hnd hdone
    · exact hrc (HeapTable.mem_continuations.2 ⟨x, y, hy, hxn⟩)
  obtain ⟨sel, hsel⟩ := selects_ok h hr
  have hchosen : ∀ a ∈ p.processed, ∃ r', Selected t r' ∧ (done r' ∨ r' = r) ∧
      Linked.Reach t.heap.physicalVersion TupleVersion.nextTid r' a := fun a ha => by
    obtain ⟨r', h1, h2, h3⟩ := hp.chosen a ha
    exact ⟨r', h1, Or.inl h2, h3⟩
  simp only [pruneStep, hsame, hsel, bind, Except.bind]
  cases sel with
  | false =>
    refine ⟨p, rfl, hp.order, hp.same, hchosen, fun x hx hdone => ?_⟩
    rcases hdone with hd | rfl
    · exact hp.met x hx hd
    · obtain ⟨v, hv, hs⟩ := hx
      rw [hr] at hv
      cases hv
      rw [hsel] at hs
      cases hs
  | true =>
    have hselr : Selected t r := ⟨vr, hr, hsel⟩
    obtain ⟨l, hcomp, hpage⟩ := h.chains r hselr
    have hout : ∀ q ∈ l, q.1 ∉ p.processed := fun q hq hmem => by
      obtain ⟨r', hr', hdone, hreach⟩ := hp.chosen q.1 hmem
      exact hnd (h.root_unique hr' hselr hreach (hcomp.path.reach_of_mem hq) ▸ hdone)
    have hcomp' : Linked.Complete p.heap.physicalVersion TupleVersion.nextTid (some r) l :=
      hcomp.transfer (fun q hq => by rw [hp.same q.1 (hout q hq)]; exact hcomp.path.look_of_mem hq)
    cases l with
    | nil => cases hcomp'
    | cons q l =>
      obtain ⟨r', v'⟩ := q
      obtain ⟨rfl, rfl⟩ : r' = r ∧ v' = vr := by
        cases hcomp with
        | cons _ _ _ hv _ => rw [hr] at hv; exact ⟨rfl, (Option.some.inj hv).symm⟩
      obtain ⟨hchain, ⟨heap, counts⟩, hprune, hlook⟩ := versionChain_pruneChain_ok hp.order hcomp' hpage
        (removableOf ((r', v') :: l) horizon st)
      simp only [if_true, hchain, hprune]
      refine ⟨_, rfl, pruneChain_keepsOrder hp.order hchain hprune, fun a ha => ?_, fun a ha => ?_, fun x hx hdone a hxa => ?_⟩
      · rw [List.mem_append, not_or, List.map_cons, List.mem_cons, not_or] at ha
        rw [hlook, HeapTable.prunedLook_other l _ r' v' ha.1.1 ha.1.2]
        exact hp.same a ha.2
      · rcases List.mem_append.1 ha with ha | ha
        · obtain ⟨q, hq, rfl⟩ := List.mem_map.1 ha
          exact ⟨r', hselr, Or.inr rfl, hcomp.path.reach_of_mem hq⟩
        · exact hchosen a ha
      · rcases hdone with hd | rfl
        · exact List.mem_append_right _ (hp.met x hx hd a hxa)
        · have hstored : ∃ w, t.heap.physicalVersion a = some w := by
            rcases Relation.ReflTransGen.cases_tail hxa with rfl | ⟨_, -, _, -, -, hne⟩
            · exact ⟨v', hr⟩
            · exact Option.ne_none_iff_exists'.1 hne
          obtain ⟨w, hw⟩ := hstored
          exact List.mem_append_left _ (List.mem_map.2 ⟨(a, w), hcomp.path.mem_of_reach hxa hw, rfl⟩)

theorem pruneSteps_ok (h : VacuumReady t horizon st) : ∀ (items : List (TID × TupleVersion)) {done : TID → Prop} {p : Pruning},
    (∀ q ∈ items, t.heap.physicalVersion q.1 = some q.2 ∧ ¬ done q.1) → (items.map Prod.fst).Nodup →
    PruneReady t origin n done p →
    ∃ p', items.foldlM (pruneStep t.indexes t.heap.continuations horizon st) p = .ok p' ∧
      PruneReady t origin n (fun x => done x ∨ x ∈ items.map Prod.fst) p'
  | [], done, p, _, _, hp => ⟨p, rfl, by simpa using hp⟩
  | (r, vr) :: items, done, p, hitems, hnd, hp => by
    rw [List.map_cons, List.nodup_cons] at hnd
    obtain ⟨hr, hd⟩ := hitems (r, vr) List.mem_cons_self
    obtain ⟨p₁, h₁, hp₁⟩ := pruneStep_ok h hr hd hp
    have hrest : ∀ q ∈ items, t.heap.physicalVersion q.1 = some q.2 ∧ ¬ (done q.1 ∨ q.1 = r) := by
      intro q hq
      obtain ⟨hq1, hq2⟩ := hitems q (List.mem_cons_of_mem _ hq)
      refine ⟨hq1, ?_⟩
      rintro (hdone | he)
      · exact hq2 hdone
      · exact hnd.1 (he ▸ List.mem_map.2 ⟨q, hq, rfl⟩)
    obtain ⟨p₂, h₂, hp₂⟩ := pruneSteps_ok h items hrest hnd.2 hp₁
    refine ⟨p₂, by rw [List.foldlM_cons, h₁]; exact h₂, ?_⟩
    have heq : (fun x => (done x ∨ x = r) ∨ x ∈ items.map Prod.fst) = fun x => done x ∨ x ∈ ((r, vr) :: items).map Prod.fst := by
      funext x; simp [or_assoc]
    rw [heq] at hp₂
    exact hp₂

theorem keysOf_shrunk {keep : TID → Prop} {values : Values} : ∀ {bs bs' : List IndexBinding},
    List.Forall₂ (Shrunk keep) bs bs' → keysOf bs' values = keysOf bs values
  | [], [], .nil => rfl
  | b :: bs, b' :: bs', .cons h hs => by simp only [keysOf, h.key, keysOf_shrunk hs]

theorem indexedByAll_shrunk {keep : TID → Prop} {tid : TID} {values : Values} : ∀ {bs bs' : List IndexBinding},
    List.Forall₂ (Shrunk keep) bs bs' → ∀ {b : Bool}, indexedByAll tid values bs = .ok b →
      ∃ b', indexedByAll tid values bs' = .ok b' ∧ (b' = true → b = true) := by
  intro bs bs' hall
  induction hall with
  | nil => exact fun {b} h => ⟨b, h, id⟩
  | @cons x x' bs bs' hb _ ih =>
    intro b h
    obtain ⟨key, hkey, h⟩ := bind_eq_ok.1 h
    have hkey' : x'.key values = .ok key := by rw [hb.key, hkey]
    simp only [indexedByAll, hkey', bind, Except.bind]
    split
    · rename_i hm
      rw [if_pos (BTree.mem_search.2 (hb.sub _ (BTree.mem_search.1 hm)))] at h
      exact ih h
    · exact ⟨false, rfl, fun hf => by cases hf⟩

/-- What the second loop has done so far. -/
structure SweepReady (t : IndexedTable) (p : Pruning) (s : Sweeping) : Prop where
  sub     : ∀ a v, s.heap.physicalVersion a = some v → p.heap.physicalVersion a = some v
  indexes : List.Forall₂ (Shrunk (fun _ => False)) t.indexes s.indexes

/-- At a version outside the pruned chains the guard returns, and lets it go only if it did so at the start. -/
theorem heldBack_ok (h : VacuumReady t horizon st) {p : Pruning} {s : Sweeping} (hs : SweepReady t p s)
    (hsame : ∀ a, ¬ OnPruned t a → p.heap.physicalVersion a = t.heap.physicalVersion a) {a : TID} {v : TupleVersion}
    (ha : t.heap.physicalVersion a = some v) (hon : ¬ OnPruned t a) :
    ∃ b, heldBack s.heap s.indexes v = .ok b ∧ (b = false → heldBack t.heap t.indexes v = .ok false) := by
  unfold heldBack
  cases hn : v.nextTid with
  | none => exact ⟨false, rfl, fun _ => rfl⟩
  | some next =>
    simp only [forall₂_nil_iff hs.indexes]
    split
    · exact ⟨false, rfl, fun _ => rfl⟩
    · cases hw : s.heap.physicalVersion next with
      | none => exact ⟨true, rfl, fun hf => by cases hf⟩
      | some w =>
        have hnp : ¬ OnPruned t next := fun ⟨r, hr, hreach⟩ => hon ⟨r, hr, h.pred hr hreach ha hn⟩
        have hw0 : t.heap.physicalVersion next = some w := by rw [← hsame next hnp]; exact hs.sub next w hw
        obtain ⟨b, hb⟩ := h.held a v next w ha hon hn hw0
        obtain ⟨b', hb', himp⟩ := indexedByAll_shrunk hs.indexes hb
        simp only [hb', hw0, hb, bind, Except.bind]
        refine ⟨!b', rfl, fun hf => ?_⟩
        have hb1 : b' = true := by simpa using hf
        rw [himp hb1]
        rfl

/-- **One item of the second loop returns.** -/
theorem sweepStep_ok (h : VacuumReady t horizon st) {p : Pruning} {s : Sweeping} (hs : SweepReady t p s)
    (hsame : ∀ a, ¬ OnPruned t a → p.heap.physicalVersion a = t.heap.physicalVersion a)
    (hall : ∀ a, OnPruned t a → a ∈ p.processed) {a : TID} {v : TupleVersion} (ha : t.heap.physicalVersion a = some v) :
    ∃ s', sweepStep p.processed horizon st s (a, v) = .ok s' ∧ SweepReady t p s' := by
  have hex : ∃ s', sweepStep p.processed horizon st s (a, v) = .ok s' := by
    unfold sweepStep
    split
    · exact ⟨_, rfl⟩
    · rename_i hap
      have hon : ¬ OnPruned t a := fun ho => hap (hall a ho)
      obtain ⟨b, hb, himp⟩ := heldBack_ok h hs hsame ha hon
      simp only [hb, bind, Except.bind]
      cases b with
      | true => exact ⟨_, rfl⟩
      | false =>
        simp only [Bool.false_eq_true, if_false]
        split
        · exact ⟨_, rfl⟩
        · rename_i hk
          have hdead : classifyVersion v horizon st = .dead := by
            cases hc : classifyVersion v horizon st with
            | keep => exact absurd hc hk
            | dead => rfl
          obtain ⟨ks, hks⟩ := h.keys a v ha hon hdead (himp rfl)
          simp only [keysOf_shrunk hs.indexes, hks]
          exact ⟨_, rfl⟩
  obtain ⟨s', hs'⟩ := hex
  refine ⟨s', hs', ?_⟩
  rcases sweepStep_cases hs' with ⟨rfl, -⟩ | ⟨-, -, -, hlook, -, keys, -, hidx⟩
  · exact hs
  · have hshrunk := shrunk_trans hs.indexes (deleteKeys_shrunk s.indexes keys a)
    rw [← hidx] at hshrunk
    refine ⟨fun b w hb => ?_, shrunk_weaken (fun _ hf => hf.elim) hshrunk⟩
    rw [hlook] at hb
    by_cases hba : b = a
    · subst hba; rw [Function.update_self] at hb; cases hb
    · rw [Function.update_of_ne hba] at hb; exact hs.sub b w hb

theorem sweepSteps_ok (h : VacuumReady t horizon st) {p : Pruning}
    (hsame : ∀ a, ¬ OnPruned t a → p.heap.physicalVersion a = t.heap.physicalVersion a)
    (hall : ∀ a, OnPruned t a → a ∈ p.processed) : ∀ (items : List (TID × TupleVersion)) {s : Sweeping},
      (∀ q ∈ items, t.heap.physicalVersion q.1 = some q.2) → SweepReady t p s →
      ∃ s', items.foldlM (sweepStep p.processed horizon st) s = .ok s'
  | [], s, _, _ => ⟨s, rfl⟩
  | (a, v) :: items, s, hitems, hs => by
    obtain ⟨s₁, h₁, hs₁⟩ := sweepStep_ok h hs hsame hall (hitems (a, v) List.mem_cons_self)
    obtain ⟨s₂, h₂⟩ := sweepSteps_ok h hsame hall items (fun q hq => hitems q (List.mem_cons_of_mem _ hq)) hs₁
    exact ⟨s₂, by rw [List.foldlM_cons, h₁]; exact h₂⟩

/-- **A ready vacuum returns.** -/
theorem vacuum_ok (ho : Ordered t.heap.schema t.heap.physicalVersion origin n) (h : VacuumReady t horizon st) :
    ∃ r, t.vacuum horizon st = .ok r := by
  have hscan : ∀ q ∈ t.heap.scanVersions, t.heap.physicalVersion q.1 = some q.2 :=
    fun q hq => HeapTable.mem_scanVersions.1 hq
  have hstart : PruneReady t origin n (fun _ => False) ⟨t.heap, [], 0, 0⟩ :=
    ⟨⟨rfl, ho⟩, fun _ _ => rfl, by simp, fun _ _ hf => hf.elim⟩
  obtain ⟨p, hpf, hp⟩ := pruneSteps_ok h t.heap.scanVersions (fun q hq => ⟨hscan q hq, id⟩) t.heap.scanVersions_nodup hstart
  have hall : ∀ a, OnPruned t a → a ∈ p.processed := by
    rintro a ⟨r, hr, hreach⟩
    obtain ⟨v, hv, -⟩ := id hr
    exact hp.met r hr (Or.inr (t.heap.mem_keys r (by rw [hv]; simp))) a hreach
  have hsame : ∀ a, ¬ OnPruned t a → p.heap.physicalVersion a = t.heap.physicalVersion a := by
    intro a ha
    refine hp.same a (fun hm => ha ?_)
    obtain ⟨r, hr, -, hreach⟩ := hp.chosen a hm
    exact ⟨r, hr, hreach⟩
  obtain ⟨s, hsf⟩ := sweepSteps_ok h hsame hall t.heap.scanVersions (s := ⟨p.heap, t.indexes, p.pruned, 0, p.bytes⟩) hscan
    ⟨fun _ _ hv => hv, shrunk_refl _ _⟩
  simp only [IndexedTable.vacuum, hpf, hsf, bind, Except.bind]
  exact ⟨_, rfl⟩

end Returns

namespace TableState

/-- **Every call keeps the order**, whatever a vacuum reclaims and wherever it raises. -/
theorem ordered_step {s : TableState} (hi : TransactionManager.Inv s.heap.manager) (h : s.heap.ordered) (c : TableCall) :
    TransactionManager.Inv (s.step c).heap.manager ∧ (s.step c).heap.ordered := by
  by_cases hv : ∀ horizon, c ≠ .vacuum horizon
  · have hs := step_stepped hi h.writers hv (fun hf : False => hf.elim)
    exact ⟨TransactionManager.inv_later hi (manager_later (.single hs)), ordered_stepped hi h hs⟩
  · obtain ⟨horizon, rfl⟩ := not_forall_not.1 hv
    rw [step_vacuum]
    refine ⟨hi, ?_⟩
    obtain ⟨hschema, hord⟩ : KeepsOrder s.heap.table.schema s.heap.origin s.heap.log.length
      (s.table.vacuumEffect horizon s.statuses).heap := vacuumEffect_keepsOrder ⟨rfl, h⟩
    unfold HeapState.ordered
    simp only [hschema]
    exact hord

theorem ordered_run : ∀ (calls : List TableCall) {s : TableState}, TransactionManager.Inv s.heap.manager →
    s.heap.ordered → (s.run calls).heap.ordered
  | [], _, _, h => h
  | c :: calls, _, hi, h => ordered_run calls (ordered_step hi h c).1 (ordered_step hi h c).2

theorem ordered_start (r : Recovered) (schema : Schema) : (start r schema).heap.ordered := by
  have hnone : ∀ a, (start r schema).heap.table.physicalVersion a = none := fun a => by
    simp [start, HeapState.start, HeapTable.create, HeapTable.physicalVersion]
  constructor <;> intro a v <;> simp_all

end TableState

namespace TableState

/-- The horizon that a vacuum of this state computes. -/
def horizon (s : TableState) : Nat := cleanupHorizon s.heap.manager.activeTransactions s.heap.manager.nextXid

/-- Two rows under an index: one is updated twice on its page without a change of its key, the other is deleted. -/
def hotChain : List TableCall :=
  [.createIndex ⟨1, ['i'], [0], false⟩ [.int64], .heap (.manager (.begin .readCommitted)),
    .insertMvcc 2 [.int 5], .insertMvcc 2 [.int 7],
    .heap (.manager (.commit 2)), .heap (.manager (.begin .readCommitted)), .replaceMvcc 3 ⟨0, 0⟩ (.of 4 []) [.int 5],
    .heap (.manager (.commit 3)), .heap (.manager (.begin .readCommitted)), .replaceMvcc 4 ⟨0, 0⟩ (.of 5 []) [.int 5],
    .deleteMvcc 4 ⟨0, 1⟩ (.of 5 []), .heap (.manager (.commit 4)), .heap (.manager (.begin .readCommitted))]

/-- The chain of the first row, and the deleted row beside it. -/
def chainVersions : List (TID × TupleVersion) :=
  [(⟨0, 0⟩, ⟨2, 3, some ⟨0, 2⟩, [.int 5]⟩), (⟨0, 1⟩, ⟨2, 4, none, [.int 7]⟩), (⟨0, 2⟩, ⟨3, 4, some ⟨0, 3⟩, [.int 5]⟩),
    (⟨0, 3⟩, ⟨4, 0, none, [.int 5]⟩)]

def chainIndex : IndexBinding :=
  ⟨⟨1, ['i'], [0], false⟩, [.int64], [([1, 128, 0, 0, 0, 0, 0, 0, 5], ⟨0, 0⟩), ([1, 128, 0, 0, 0, 0, 0, 0, 7], ⟨0, 1⟩)]⟩

theorem vacuumReady_chain {t : IndexedTable} (hs : t.heap.scanVersions = chainVersions)
    (hi : t.indexes = [chainIndex]) (horizon : Nat)
    (st : StatusTable) : VacuumReady t horizon st := by
  have hlook : ∀ {a v}, t.heap.physicalVersion a = some v → (a, v) ∈ chainVersions := fun h => hs ▸ HeapTable.mem_scanVersions.2 h
  have hread : ∀ {a v}, (a, v) ∈ chainVersions → t.heap.physicalVersion a = some v :=
    fun h => HeapTable.mem_scanVersions.1 (hs ▸ h)
  have hkey : ∀ p ∈ chainVersions, ∃ k, chainIndex.key p.2.values = .ok k := by
    intro p hp
    fin_cases hp <;> exact ⟨_, rfl⟩
  have hany : ∀ {a v}, t.heap.physicalVersion a = some v → ∃ b, indexedByAny a v.values t.indexes = .ok b := by
    intro a v hv
    obtain ⟨k, hk⟩ := hkey _ (hlook hv)
    simp only [hi, indexedByAny, hk, bind, Except.bind]
    split <;> exact ⟨_, rfl⟩
  -- the chain of the first slot is the only one that is pruned
  have hconts : t.heap.continuations = [⟨0, 2⟩, ⟨0, 3⟩] := by
    rw [HeapTable.continuations, hs]
    rfl
  have hroot : ∀ r, Selected t r → r = ⟨0, 0⟩ := by
    rintro r ⟨v, hv, hsel⟩
    obtain ⟨hr, next, hn⟩ := selects_eq_true hsel
    rw [hconts] at hr
    have hm := hlook hv
    simp only [chainVersions, List.mem_cons, Prod.mk.injEq, List.not_mem_nil, or_false] at hm
    rcases hm with ⟨rfl, rfl⟩ | ⟨rfl, rfl⟩ | ⟨rfl, rfl⟩ | ⟨rfl, rfl⟩
    · rfl
    · cases hn
    · exact absurd (by decide) hr
    · cases hn
  refine ⟨fun a v next hv _ _ => ⟨hany hv, fun w hw => hany hw⟩, fun r hr => ?_, fun c _ a v a' v' hv hv' hn hn' => ?_,
    fun a v next w _ _ _ hw => ?_, fun a v hv _ _ _ => ?_⟩
  · rw [hroot r hr]
    exact ⟨[(⟨0, 0⟩, ⟨2, 3, some ⟨0, 2⟩, [.int 5]⟩), (⟨0, 2⟩, ⟨3, 4, some ⟨0, 3⟩, [.int 5]⟩), (⟨0, 3⟩, ⟨4, 0, none, [.int 5]⟩)],
      .cons _ _ _ (hread (by decide)) (.cons _ _ _ (hread (by decide)) (.cons _ _ _ (hread (by decide)) .nil)), by decide⟩
  · have hm := hlook hv
    have hm' := hlook hv'
    simp only [chainVersions, List.mem_cons, Prod.mk.injEq, List.not_mem_nil, or_false] at hm hm'
    rcases hm with ⟨rfl, rfl⟩ | ⟨rfl, rfl⟩ | ⟨rfl, rfl⟩ | ⟨rfl, rfl⟩ <;> cases hn <;>
      rcases hm' with ⟨rfl, rfl⟩ | ⟨rfl, rfl⟩ | ⟨rfl, rfl⟩ | ⟨rfl, rfl⟩ <;> cases hn' <;> rfl
  · obtain ⟨k, hk⟩ := hkey _ (hlook hw)
    simp only [hi, indexedByAll, hk, bind, Except.bind]
    split <;> exact ⟨_, rfl⟩
  · obtain ⟨k, hk⟩ := hkey _ (hlook hv)
    simp only [hi, keysOf, hk, bind, Except.bind]
    exact ⟨_, rfl⟩

/-- A deleted row with a null in the column of an index created later. -/
def nullBeforeIndex : List TableCall :=
  [.heap (.manager (.begin .readCommitted)), .insertMvcc 2 [.null], .heap (.manager (.commit 2)),
    .heap (.manager (.begin .readCommitted)), .deleteMvcc 3 ⟨0, 0⟩ (.of 4 []), .heap (.manager (.commit 3)),
    .createIndex ⟨1, ['i'], [0], false⟩ [.int64], .heap (.manager (.begin .readCommitted))]

def keyedText : Schema := ⟨[⟨['k'], .int64, false⟩, ⟨['v'], .text, true⟩]⟩

/-- Two rows of this size fill a page. -/
def wideRow (c : Char) : Values := [.int 1, .text (List.replicate 3900 c)]

/-- An update on the page of the row, then one that finds no room there. -/
def chainOverPages : List TableCall :=
  [.createIndex ⟨1, ['i'], [0], false⟩ [.int64], .heap (.manager (.begin .readCommitted)), .insertMvcc 2 (wideRow 'a'),
    .heap (.manager (.commit 2)), .heap (.manager (.begin .readCommitted)),
    .replaceMvcc 3 ⟨0, 0⟩ (.of 4 []) (wideRow 'b'), .heap (.manager (.commit 3)),
    .heap (.manager (.begin .readCommitted)), .replaceMvcc 4 ⟨0, 0⟩ (.of 5 []) (wideRow 'c'),
    .heap (.manager (.commit 4)), .heap (.manager (.begin .readCommitted))]

end TableState
end MiniPostgres
