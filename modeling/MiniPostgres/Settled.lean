import MiniPostgres.Readers
/-!
# Settled — the tables a vacuum leaves alone

A vacuum returns the table it was given exactly when the table is `Settled`: the tests of its two loops reach no key that
cannot be encoded, the chains it walks are complete, lie on one page and have no dead inner member, and no other version is
dead without being held back.  The heap may have links to dead slots, so this needs less than the mirror.
-/
namespace MiniPostgres

/-- **The tables a vacuum has nothing to do on.** -/
structure Settled (t : IndexedTable) (horizon : Nat) (st : StatusTable) : Prop where
  tests  : ∀ a v, t.heap.physicalVersion a = some v → ∃ b, selects t.indexes t.heap.continuations t.heap a v = .ok b
  chains : ∀ r, Selected t r → ∃ l, Linked.Complete t.heap.physicalVersion TupleVersion.nextTid (some r) l ∧
    (∀ q ∈ l, q.1.pageId = r.pageId) ∧ removableOf l horizon st = []
  held   : ∀ a v, t.heap.physicalVersion a = some v → ¬ OnPruned t a → heldBack t.heap t.indexes v = .ok true ∨
    (heldBack t.heap t.indexes v = .ok false ∧ classifyVersion v horizon st = .keep)

theorem removableOf_congr {l : List (TID × TupleVersion)} {horizon horizon' : Nat} {st st' : StatusTable}
    (h : ∀ q ∈ l, classifyVersion q.2 horizon' st' = classifyVersion q.2 horizon st) :
    removableOf l horizon' st' = removableOf l horizon st := by
  have hdead : l.tail.filter (fun q => decide (classifyVersion q.2 horizon' st' = .dead)) =
      l.tail.filter (fun q => decide (classifyVersion q.2 horizon st = .dead)) :=
    List.filter_congr (fun q hq => by rw [h q (List.mem_of_mem_tail hq)])
  unfold removableOf
  rw [hdead]

/-- `Settled` reads the horizon and the outcomes only for what is stored. -/
theorem settled_congr {t : IndexedTable} {horizon horizon' : Nat} {st st' : StatusTable}
    (h : ∀ a v, t.heap.physicalVersion a = some v → classifyVersion v horizon' st' = classifyVersion v horizon st) :
    Settled t horizon' st' ↔ Settled t horizon st := by
  have hchain : ∀ {r : TID} {l : List (TID × TupleVersion)},
      Linked.Complete t.heap.physicalVersion TupleVersion.nextTid (some r) l →
        removableOf l horizon' st' = removableOf l horizon st :=
    fun hc => removableOf_congr (fun q hq => h q.1 q.2 (hc.path.look_of_mem hq))
  constructor
  · intro hs
    refine ⟨hs.tests, fun r hr => ?_, fun a v hv hno => ?_⟩
    · obtain ⟨l, hc, hpage, hnone⟩ := hs.chains r hr
      exact ⟨l, hc, hpage, by rw [← hchain hc]; exact hnone⟩
    · rw [← h a v hv]
      exact hs.held a v hv hno
  · intro hs
    refine ⟨hs.tests, fun r hr => ?_, fun a v hv hno => ?_⟩
    · obtain ⟨l, hc, hpage, hnone⟩ := hs.chains r hr
      exact ⟨l, hc, hpage, by rw [hchain hc]; exact hnone⟩
    · rw [h a v hv]
      exact hs.held a v hv hno

/-! ## A walk that removes nothing -/

namespace HeapTable

theorem pruneLoop_idle {removable : List TID} : ∀ (l : List (TID × TupleVersion)) (n : Nat) {t : HeapTable} {p : TID}
    {pv : TupleVersion} {cur : Option TID} {counters : Nat × Nat},
    Linked.Complete t.physicalVersion TupleVersion.nextTid cur l → (∀ q ∈ l, q.1 ∉ removable) → l.length < n →
      pruneLoop removable n t p pv cur counters = .ok (t, counters)
  | [], n, t, p, pv, cur, counters, hc, _, _ => by
    cases hc
    cases n <;> rfl
  | (c, v) :: l, n, t, p, pv, cur, counters, hc, hr, hn => by
    cases hc with
    | cons _ _ _ hv ht =>
      obtain ⟨n, rfl⟩ : ∃ k, n = k + 1 := ⟨n - 1, by simp at hn; omega⟩
      simp only [pruneLoop, hv, if_neg (hr (c, v) List.mem_cons_self)]
      exact pruneLoop_idle l n ht (fun q hq => hr q (List.mem_cons_of_mem _ hq)) (by simp at hn; omega)

theorem pruneLoop_gone {removable : List TID} {a : TID} : ∀ (n : Nat) {t t' : HeapTable} {p : TID} {pv : TupleVersion}
    {cur : Option TID} {counters r : Nat × Nat}, pruneLoop removable n t p pv cur counters = .ok (t', r) →
      t.physicalVersion a = none → t'.physicalVersion a = none
  | n, t, t', p, pv, none, counters, r, h, ha => by
    cases n <;> · cases h; exact ha
  | 0, _, _, _, _, some _, _, _, h, _ => absurd h raise_ne_ok
  | n + 1, t, t', p, pv, some c, (removed, reclaimed), r, h, ha => by
    simp only [pruneLoop] at h
    split at h
    · exact absurd h raise_ne_ok
    · split at h
      · obtain ⟨t₁, hset, h⟩ := bind_eq_ok.1 h
        refine pruneLoop_gone n h ?_
        obtain ⟨hrew, -⟩ := setVersion_eq_ok hset
        have hap : a ≠ p := by
          rintro rfl
          exact hrew.live ha
        rw [(reclaimVersion_versions t₁ c).1, hrew.versions]
        by_cases hac : a = c
        · rw [hac, Function.update_self]
        · rw [Function.update_of_ne hac, Function.update_of_ne hap]
          exact ha
      · exact pruneLoop_gone n h ha

end HeapTable

theorem pruneStep_gone {indexes : List IndexBinding} {conts : List TID} {horizon : Nat} {st : StatusTable} {p p' : Pruning}
    {item : TID × TupleVersion} (h : pruneStep indexes conts horizon st p item = .ok p') {a : TID}
    (ha : p.heap.physicalVersion a = none) : p'.heap.physicalVersion a = none := by
  obtain ⟨sel, -, h⟩ := bind_eq_ok.1 h
  cases sel with
  | false => cases h; exact ha
  | true =>
    obtain ⟨chain, -, h⟩ := bind_eq_ok.1 h
    obtain ⟨⟨heap, counts⟩, hprune, h⟩ := bind_eq_ok.1 h
    cases h
    unfold HeapTable.pruneChain at hprune
    split at hprune
    · cases hprune; exact ha
    · exact HeapTable.pruneLoop_gone _ hprune ha

theorem pruneSteps_gone {indexes : List IndexBinding} {conts : List TID} {horizon : Nat} {st : StatusTable} {a : TID} :
    ∀ (items : List (TID × TupleVersion)) {p p' : Pruning}, items.foldlM (pruneStep indexes conts horizon st) p = .ok p' →
      p.heap.physicalVersion a = none → p'.heap.physicalVersion a = none
  | [], p, p', h, ha => by cases h; exact ha
  | item :: items, p, p', h, ha => by
    rw [List.foldlM_cons] at h
    obtain ⟨p₁, h₁, h₂⟩ := bind_eq_ok.1 h
    exact pruneSteps_gone items h₂ (pruneStep_gone h₁ ha)

/-! ## The first loop -/

section Loops

variable {t : IndexedTable} {rank : TID → Nat} {horizon : Nat} {st : StatusTable}

/-- The first loop after the versions in `done`, when it has removed nothing. -/
structure PruneIdle (t : IndexedTable) (done : TID → Prop) (p : Pruning) : Prop where
  heap      : p.heap = t.heap
  pruned    : p.pruned = 0
  processed : ∀ x, x ∈ p.processed ↔ ∃ r, done r ∧ Selected t r ∧
    Linked.Reach t.heap.physicalVersion TupleVersion.nextTid r x

theorem Threaded.complete_length {heap : HeapTable} (ht : Threaded heap.physicalVersion rank) {s : Option TID}
    {l : List (TID × TupleVersion)} (hc : Linked.Complete heap.physicalVersion TupleVersion.nextTid s l) :
    l.length ≤ heap.scanVersions.length := by
  have hsub : l.map Prod.fst ⊆ heap.scanVersions.map Prod.fst := by
    intro a ha
    obtain ⟨p, hp, rfl⟩ := List.mem_map.1 ha
    exact heap.mem_keys p.1 (by rw [hc.path.look_of_mem hp]; simp)
  have := (List.subperm_of_subset (hc.path.nodup ht.ranked) hsub).length_le
  rwa [List.length_map, List.length_map] at this

theorem mem_complete_iff {look : Versions} {r : TID} {l : List (TID × TupleVersion)}
    (hc : Linked.Complete look TupleVersion.nextTid (some r) l) (x : TID) :
    x ∈ l.map Prod.fst ↔ Linked.Reach look TupleVersion.nextTid r x := by
  constructor
  · intro hx
    obtain ⟨q, hq, rfl⟩ := List.mem_map.1 hx
    exact hc.path.reach_of_mem hq
  · intro hr
    have hstored : look x ≠ none := by
      rcases Relation.ReflTransGen.cases_tail hr with rfl | ⟨_, -, _, -, -, hne⟩
      · cases hc with
        | cons _ _ _ hv _ => rw [hv]; simp
      · exact hne
    obtain ⟨w, hw⟩ := Option.ne_none_iff_exists'.1 hstored
    exact List.mem_map.2 ⟨(x, w), hc.path.mem_of_reach hr hw, rfl⟩

/-- **A version of the first loop that removes nothing**: what it needs, and what it leaves. -/
theorem pruneStep_idle (ht : Threaded t.heap.physicalVersion rank) {done : TID → Prop} {p p' : Pruning} {a : TID}
    {v : TupleVersion} (ha : t.heap.physicalVersion a = some v) (hp : PruneIdle t done p)
    (h : pruneStep t.indexes t.heap.continuations horizon st p (a, v) = .ok p')
    (hkeep : ∀ x, t.heap.physicalVersion x ≠ none → p'.heap.physicalVersion x ≠ none) :
    PruneIdle t (fun x => done x ∨ x = a) p' ∧
      (∃ b, selects t.indexes t.heap.continuations t.heap a v = .ok b) ∧
      (Selected t a → ∃ l, Linked.Complete t.heap.physicalVersion TupleVersion.nextTid (some a) l ∧
        (∀ q ∈ l, q.1.pageId = a.pageId) ∧ removableOf l horizon st = []) := by
  obtain ⟨sel, hsel, h⟩ := bind_eq_ok.1 h
  rw [hp.heap] at hsel
  cases sel with
  | false =>
    cases h
    have hnot : ¬ Selected t a := by
      rintro ⟨u, hu, hs⟩
      rw [ha] at hu
      cases hu
      rw [hsel] at hs
      cases hs
    refine ⟨⟨hp.heap, hp.pruned, fun x => ?_⟩, ⟨_, hsel⟩, fun hs => absurd hs hnot⟩
    rw [hp.processed x]
    constructor
    · rintro ⟨r, hd, hrest⟩
      exact ⟨r, Or.inl hd, hrest⟩
    · rintro ⟨r, hd | rfl, hs, hreach⟩
      · exact ⟨r, hd, hs, hreach⟩
      · exact absurd hs hnot
  | true =>
    obtain ⟨chain, hchain, h⟩ := bind_eq_ok.1 h
    obtain ⟨⟨heap, n, bytes⟩, hprune, h⟩ := bind_eq_ok.1 h
    cases h
    rw [hp.heap] at hchain hprune
    obtain ⟨hcomp, hpage⟩ := HeapTable.versionChain_eq_ok hchain
    have hnd := hcomp.path.nodup ht.ranked
    cases hcomp with
    | cons _ v' l hv' hl =>
      rw [ha] at hv'
      cases hv'
      have hcomp : Linked.Complete t.heap.physicalVersion TupleVersion.nextTid (some a) ((a, v) :: l) := .cons a v l ha hl
      simp only [HeapTable.pruneChain, ha] at hprune
      -- a removable member would be gone
      have hnone : removableOf ((a, v) :: l) horizon st = [] := by
        refine List.eq_nil_iff_forall_not_mem.2 (fun c hc => ?_)
        obtain ⟨-, w, hw, -⟩ := mem_removableOf hc
        have hwl : (c, w) ∈ l := hw
        have hgone := prunedLook_removed l t.heap.physicalVersion a v hnd c hc (List.mem_map.2 ⟨(c, w), hwl, rfl⟩)
        rw [← (HeapTable.pruneLoop_eq_ok l _ hl hnd hprune).1] at hgone
        exact hkeep c (by rw [hl.path.look_of_mem hwl]; simp) hgone
      have hlen := ht.complete_length hl
      rw [HeapTable.pruneLoop_idle l _ hl (fun q _ => by rw [hnone]; exact List.not_mem_nil) (by omega)] at hprune
      cases hprune
      refine ⟨⟨rfl, by rw [hp.pruned], fun x => ?_⟩, ⟨_, hsel⟩, fun _ => ⟨_, hcomp, hpage, hnone⟩⟩
      simp only [List.mem_append, mem_complete_iff hcomp x, hp.processed x]
      constructor
      · rintro (hreach | ⟨r, hd, hrest⟩)
        · exact ⟨a, Or.inr rfl, ⟨v, ha, hsel⟩, hreach⟩
        · exact ⟨r, Or.inl hd, hrest⟩
      · rintro ⟨r, hd | rfl, hs, hreach⟩
        · exact Or.inr ⟨r, hd, hs, hreach⟩
        · exact Or.inl hreach

theorem pruneStep_settled (ht : Threaded t.heap.physicalVersion rank) (hs : Settled t horizon st) {p : Pruning}
    (hp : p.heap = t.heap) {a : TID} {v : TupleVersion} (ha : t.heap.physicalVersion a = some v) :
    ∃ p', pruneStep t.indexes t.heap.continuations horizon st p (a, v) = .ok p' ∧ p'.heap = t.heap := by
  obtain ⟨sel, hsel⟩ := hs.tests a v ha
  have hsel' : selects t.indexes t.heap.continuations p.heap a v = .ok sel := by rw [hp]; exact hsel
  unfold pruneStep
  simp only [hsel', bind, Except.bind]
  cases sel with
  | false => exact ⟨p, rfl, hp⟩
  | true =>
    obtain ⟨l, hcomp, hpage, hnone⟩ := hs.chains a ⟨v, ha, hsel⟩
    have hlen := ht.complete_length hcomp
    have hchain : t.heap.versionChain a = .ok l :=
      HeapTable.versionChainLoop_ok hcomp _ [] hpage (hcomp.path.nodup ht.ranked) (by simp) (by omega)
    have hprune : t.heap.pruneChain a (removableOf l horizon st) = .ok (t.heap, 0, 0) := by
      rw [hnone]
      cases hcomp with
      | cons _ u l hu hl =>
        simp only [HeapTable.pruneChain, hu]
        exact HeapTable.pruneLoop_idle l _ hl (fun q _ => List.not_mem_nil) (by simp at hlen; omega)
    simp only [hp, if_true, hchain, hprune]
    exact ⟨_, rfl, rfl⟩

theorem pruneSteps_settled (ht : Threaded t.heap.physicalVersion rank) (hs : Settled t horizon st) :
    ∀ (items : List (TID × TupleVersion)) {done : TID → Prop} {p : Pruning},
      (∀ q ∈ items, t.heap.physicalVersion q.1 = some q.2) → PruneIdle t done p →
      ∃ p', items.foldlM (pruneStep t.indexes t.heap.continuations horizon st) p = .ok p' ∧
        PruneIdle t (fun x => done x ∨ x ∈ items.map Prod.fst) p'
  | [], done, p, _, hp => ⟨p, rfl, by simpa using hp⟩
  | (a, v) :: items, done, p, hitems, hp => by
    have ha := hitems (a, v) List.mem_cons_self
    obtain ⟨p₁, h₁, hheap⟩ := pruneStep_settled ht hs hp.heap ha
    obtain ⟨hp₁, -⟩ := pruneStep_idle ht ha hp h₁ (fun x hx => by rw [hheap]; exact hx)
    obtain ⟨p₂, h₂, hp₂⟩ := pruneSteps_settled ht hs items (fun q hq => hitems q (List.mem_cons_of_mem _ hq)) hp₁
    refine ⟨p₂, by rw [List.foldlM_cons, h₁]; exact h₂, hp₂.heap, hp₂.pruned, fun x => ?_⟩
    rw [hp₂.processed x]
    simp only [List.map_cons, List.mem_cons, or_assoc]

theorem pruneSteps_idle (ht : Threaded t.heap.physicalVersion rank) :
    ∀ (items : List (TID × TupleVersion)) {done : TID → Prop} {p p' : Pruning},
      (∀ q ∈ items, t.heap.physicalVersion q.1 = some q.2) → PruneIdle t done p →
      items.foldlM (pruneStep t.indexes t.heap.continuations horizon st) p = .ok p' →
      (∀ x, t.heap.physicalVersion x ≠ none → p'.heap.physicalVersion x ≠ none) →
      PruneIdle t (fun x => done x ∨ x ∈ items.map Prod.fst) p' ∧
        ∀ q ∈ items, (∃ b, selects t.indexes t.heap.continuations t.heap q.1 q.2 = .ok b) ∧
          (Selected t q.1 → ∃ l, Linked.Complete t.heap.physicalVersion TupleVersion.nextTid (some q.1) l ∧
            (∀ e ∈ l, e.1.pageId = q.1.pageId) ∧ removableOf l horizon st = [])
  | [], done, p, p', _, hp, h, _ => by
    cases h
    exact ⟨by simpa using hp, fun q hq => by cases hq⟩
  | (a, v) :: items, done, p, p', hitems, hp, h, hkeep => by
    rw [List.foldlM_cons] at h
    obtain ⟨p₁, h₁, h₂⟩ := bind_eq_ok.1 h
    have ha := hitems (a, v) List.mem_cons_self
    obtain ⟨hp₁, htest⟩ := pruneStep_idle ht ha hp h₁ (fun x hx hgone => hkeep x hx (pruneSteps_gone items h₂ hgone))
    obtain ⟨hp₂, htests⟩ := pruneSteps_idle ht items (fun q hq => hitems q (List.mem_cons_of_mem _ hq)) hp₁ h₂ hkeep
    refine ⟨⟨hp₂.heap, hp₂.pruned, fun x => ?_⟩, fun q hq => ?_⟩
    · rw [hp₂.processed x]
      simp only [List.map_cons, List.mem_cons, or_assoc]
    · rcases List.mem_cons.1 hq with rfl | hq
      · exact htest
      · exact htests q hq

theorem pruneIdle_start : PruneIdle t (fun _ => False) ⟨t.heap, [], 0, 0⟩ :=
  ⟨rfl, rfl, fun x => by simp⟩

theorem PruneIdle.onPruned {p : Pruning} (hp : PruneIdle t (fun x => False ∨ x ∈ t.heap.scanVersions.map Prod.fst) p) (x : TID) :
    x ∈ p.processed ↔ OnPruned t x := by
  rw [hp.processed x]
  constructor
  · rintro ⟨r, -, hs, hreach⟩
    exact ⟨r, hs, hreach⟩
  · rintro ⟨r, hs, hreach⟩
    obtain ⟨v, hv, -⟩ := id hs
    exact ⟨r, Or.inr (t.heap.mem_keys r (by rw [hv]; simp)), hs, hreach⟩

/-! ## The second loop -/

theorem sweepSteps_settled {processed : List TID} : ∀ (items : List (TID × TupleVersion)) (s : Sweeping),
    (∀ q ∈ items, q.1 ∉ processed → heldBack s.heap s.indexes q.2 = .ok true ∨
      (heldBack s.heap s.indexes q.2 = .ok false ∧ classifyVersion q.2 horizon st = .keep)) →
    items.foldlM (sweepStep processed horizon st) s = .ok s
  | [], s, _ => rfl
  | (a, v) :: items, s, h => by
    have hstep : sweepStep processed horizon st s (a, v) = .ok s := by
      unfold sweepStep
      split
      · rfl
      · rename_i hp
        rcases h (a, v) List.mem_cons_self hp with hheld | ⟨hheld, hkeep⟩
        · simp only [hheld, bind, Except.bind, if_true]
        · simp only [hheld, hkeep, bind, Except.bind, if_true, Bool.false_eq_true, if_false]
    rw [List.foldlM_cons, hstep]
    exact sweepSteps_settled items s (fun q hq => h q (List.mem_cons_of_mem _ hq))

theorem sweepSteps_gone {processed : List TID} {a : TID} : ∀ (items : List (TID × TupleVersion)) {s s' : Sweeping},
    items.foldlM (sweepStep processed horizon st) s = .ok s' → s.heap.physicalVersion a = none →
    s'.heap.physicalVersion a = none
  | [], s, s', h, ha => by cases h; exact ha
  | (c, v) :: items, s, s', h, ha => by
    rw [List.foldlM_cons] at h
    obtain ⟨s₁, h₁, h₂⟩ := bind_eq_ok.1 h
    refine sweepSteps_gone items h₂ ?_
    rcases sweepStep_cases h₁ with ⟨rfl, -⟩ | ⟨-, -, -, hlook, -⟩
    · exact ha
    · rw [hlook, Function.update_apply, ha, ite_self]

theorem sweepSteps_idle {processed : List TID} : ∀ (items : List (TID × TupleVersion)) {s s' : Sweeping},
    (items.map Prod.fst).Nodup → items.foldlM (sweepStep processed horizon st) s = .ok s' →
    (∀ q ∈ items, s'.heap.physicalVersion q.1 ≠ none) →
    ∀ q ∈ items, q.1 ∉ processed → heldBack s.heap s.indexes q.2 = .ok true ∨
      (heldBack s.heap s.indexes q.2 = .ok false ∧ classifyVersion q.2 horizon st = .keep)
  | [], _, _, _, _, _, q, hq => by cases hq
  | (a, v) :: items, s, s', hnd, h, hkeep, q, hq => by
    rw [List.foldlM_cons] at h
    obtain ⟨s₁, h₁, h₂⟩ := bind_eq_ok.1 h
    rw [List.map_cons, List.nodup_cons] at hnd
    rcases sweepStep_cases h₁ with ⟨rfl, hwhy⟩ | ⟨-, -, -, hlook, -⟩
    · intro hp
      rcases List.mem_cons.1 hq with rfl | hq
      · unfold sweepStep at h₁
        rw [if_neg hp] at h₁
        obtain ⟨held, hheld, -⟩ := bind_eq_ok.1 h₁
        rcases hwhy with hin | htrue | hk
        · exact absurd hin hp
        · exact Or.inl htrue
        · cases held with
          | true => exact Or.inl hheld
          | false => exact Or.inr ⟨hheld, hk⟩
      · exact sweepSteps_idle items hnd.2 h₂ (fun e he => hkeep e (List.mem_cons_of_mem _ he)) q hq hp
    · refine absurd ?_ (hkeep (a, v) List.mem_cons_self)
      rw [sweepSteps_other items h₂ hnd.1, hlook, Function.update_self]

/-! ## The vacuum -/

/-- A vacuum returns, reports that nothing was removed, and leaves the versions and the indexes as they were. -/
def Idle (t : IndexedTable) (horizon : Nat) (st : StatusTable) : Prop :=
  ∃ t' r, t.vacuum horizon st = .ok (t', r) ∧ r.deadVersionsRemoved = 0 ∧ r.indexEntriesRemoved = 0 ∧
    t'.heap.scanVersions = t.heap.scanVersions ∧ t'.indexes = t.indexes

/-- **A vacuum has nothing to do exactly on the settled tables.** -/
theorem idle_iff_settled (ht : Threaded t.heap.physicalVersion rank) : Idle t horizon st ↔ Settled t horizon st := by
  have hitems : ∀ q ∈ t.heap.scanVersions, t.heap.physicalVersion q.1 = some q.2 :=
    fun q hq => HeapTable.mem_scanVersions.1 hq
  constructor
  · rintro ⟨t', r, h, -, -, hscan, -⟩
    obtain ⟨p, hpf, h⟩ := bind_eq_ok.1 h
    obtain ⟨s, hsf, h⟩ := bind_eq_ok.1 h
    cases h
    have hkeep : ∀ x, t.heap.physicalVersion x ≠ none → s.heap.physicalVersion x ≠ none := by
      intro x hx
      obtain ⟨v, hv⟩ := Option.ne_none_iff_exists'.1 hx
      have hm := HeapTable.mem_scanVersions.2 hv
      rw [← hscan] at hm
      rw [HeapTable.mem_scanVersions.1 hm]
      simp
    have hkeep' : ∀ x, t.heap.physicalVersion x ≠ none → p.heap.physicalVersion x ≠ none :=
      fun x hx hgone => hkeep x hx (sweepSteps_gone t.heap.scanVersions hsf hgone)
    obtain ⟨hp, htests⟩ := pruneSteps_idle ht t.heap.scanVersions hitems pruneIdle_start hpf hkeep'
    refine ⟨fun a v hv => (htests (a, v) (HeapTable.mem_scanVersions.2 hv)).1, fun r hs => ?_, fun a v hv hno => ?_⟩
    · obtain ⟨v, hv, -⟩ := id hs
      exact (htests (r, v) (HeapTable.mem_scanVersions.2 hv)).2 hs
    · have := sweepSteps_idle t.heap.scanVersions t.heap.scanVersions_nodup hsf
        (fun q hq => hkeep q.1 (by rw [hitems q hq]; simp)) (a, v) (HeapTable.mem_scanVersions.2 hv)
        (fun hm => hno ((hp.onPruned a).1 hm))
      rwa [hp.heap] at this
  · intro hs
    obtain ⟨p, hpf, hp⟩ := pruneSteps_settled ht hs t.heap.scanVersions hitems pruneIdle_start
    have hsf : t.heap.scanVersions.foldlM (sweepStep p.processed horizon st) ⟨p.heap, t.indexes, p.pruned, 0, p.bytes⟩ =
        .ok ⟨p.heap, t.indexes, p.pruned, 0, p.bytes⟩ := by
      refine sweepSteps_settled t.heap.scanVersions _ (fun q hq hnp => ?_)
      rw [hp.heap]
      exact hs.held q.1 q.2 (hitems q hq) (fun hon => hnp ((hp.onPruned q.1).2 hon))
    refine ⟨⟨p.heap, t.indexes⟩, ⟨p.heap.pages.length, p.pruned, 0, p.bytes, p.pruned⟩, ?_, hp.pruned, rfl, by rw [hp.heap],
      rfl⟩
    simp only [IndexedTable.vacuum, hpf, hsf, bind, Except.bind]

end Loops

end MiniPostgres
