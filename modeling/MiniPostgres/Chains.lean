import MiniPostgres.Mirror
/-!
# Chains — scans over a heap that mirrors its history

In a heap that mirrors its history the links go to later writes, no slot is named twice, and the versions of one row that
a set of writers left, closed under what they wrote over, lie on one chain (`reach_of_counted`).  So the loops over
chains return, a scan meets each stored version from exactly one root, and the version a reader finds open is the row's
last counted write.
-/
namespace MiniPostgres

open History (Write WF Serial Closed Open Over lt_of_getElem?)

variable {loose : TupleVersion → Prop} {look : Versions} {log : Log} {origin : TID → Nat}

/-! ## Links -/

theorem LastReplaced.unique {i j j' : Nat} {w w' : Write Nat Values} (h : LastReplaced log i j w)
    (h' : LastReplaced log i j' w') : j = j' := by
  have h1 := h.last j' w' h'.get h'.target h'.value
  have h2 := h'.last j w h.get h.target h.value
  omega

theorem LastReplaced.source {i i' j : Nat} {w w' : Write Nat Values} (h : LastReplaced log i j w)
    (h' : LastReplaced log i' j w') : i = i' := by
  have hg := h.get
  rw [h'.get] at hg
  cases hg
  have ht := h.target
  rw [h'.target] at ht
  exact (Option.some.inj ht).symm

theorem Succs.row (hwf : WF log) {gone : Nat → Prop} {i j : Nat} (h : Succs log gone i j) {w u : Write Nat Values}
    (hw : log[i]? = some w) (hu : log[j]? = some u) : u.row = w.row := by
  induction h generalizing w with
  | one h =>
    obtain ⟨-, x, hx, -, hr⟩ := hwf.writes _ _ _ h.get h.target
    have hg := h.get
    rw [hu] at hg
    cases hg
    rw [hw] at hx
    cases hx
    exact hr.symm
  | step h _ _ ih =>
    obtain ⟨-, x, hx, -, hr⟩ := hwf.writes _ _ _ h.get h.target
    rw [hw] at hx
    cases hx
    exact (ih h.get hu).trans hr.symm

theorem Succs.tail_cases {gone : Nat → Prop} {i j : Nat} (h : Succs log gone i j) :
    (∃ w, LastReplaced log i j w) ∨ ∃ k w, Succs log gone i k ∧ gone k ∧ LastReplaced log k j w := by
  induction h with
  | one h => exact Or.inl ⟨_, h⟩
  | step h hg _ ih =>
    rcases ih with ⟨w, hw⟩ | ⟨m, w, hs, hm, hw⟩
    · exact Or.inr ⟨_, w, .one h, hg, hw⟩
    · exact Or.inr ⟨m, w, .step h hg hs, hm, hw⟩

theorem Succs.source (hwf : WF log) {gone : Nat → Prop} : ∀ (j : Nat) {i i' : Nat}, Succs log gone i j →
    Succs log gone i' j → ¬ gone i → ¬ gone i' → i = i' := by
  intro j
  induction j using Nat.strongRecOn with
  | ind j ih =>
    intro i i' h h' hi hi'
    rcases h.tail_cases with ⟨w, hw⟩ | ⟨k, w, hs, hk, hw⟩
    · rcases h'.tail_cases with ⟨w', hw'⟩ | ⟨k', w', -, hk', hw'⟩
      · exact hw.source hw'
      · exact absurd (hw.source hw' ▸ hk') hi
    · rcases h'.tail_cases with ⟨w', hw'⟩ | ⟨k', w', hs', -, hw'⟩
      · exact absurd (hw.source hw' ▸ hk) hi'
      · obtain rfl := hw.source hw'
        exact ih k (hwf.writes _ _ _ hw.get hw.target).1 hs hs' hi hi'

/-- **Ranks grow along links**: the origin of a version is before the origin of the version it names. -/
theorem Mirror.ranked (hm : Mirror loose look log origin) (hwf : WF log) :
    Linked.Ranked look TupleVersion.nextTid origin :=
  fun a v c _ ha hn _ => (hm.named a v c ha hn).2.lt hwf

theorem not_gone {a : TID} (ha : look a ≠ none) : ¬ Gone look origin (origin a) := fun hg => hg a ha rfl

/-- **No slot is named by two versions.** -/
theorem Mirror.unshared (hm : Mirror loose look log origin) (hwf : WF log) :
    Linked.Unshared look TupleVersion.nextTid := by
  intro a v a' v' c ha ha' hn hn'
  have hne : look a ≠ none := by rw [ha]; simp
  have hne' : look a' ≠ none := by rw [ha']; simp
  exact hm.inj a a' hne hne' (Succs.source hwf (origin c) (hm.named a v c ha hn).2 (hm.named a' v' c ha' hn').2
    (not_gone hne) (not_gone hne'))

/-- **The links of a heap thread its versions**: along a link a rank grows, and no slot is named twice. -/
structure Threaded (look : Versions) (rank : TID → Nat) : Prop where
  ranked   : Linked.Ranked look TupleVersion.nextTid rank
  unshared : Linked.Unshared look TupleVersion.nextTid

theorem Mirror.threaded (hm : Mirror loose look log origin) (hwf : WF log) : Threaded look origin :=
  ⟨hm.ranked hwf, hm.unshared hwf⟩

theorem Mirror.link_iff (hm : Mirror loose look log origin) {a c : TID} :
    Linked.Link look TupleVersion.nextTid a c ↔ ∃ v, look a = some v ∧ v.nextTid = some c :=
  ⟨fun ⟨v, hv, hn, _⟩ => ⟨v, hv, hn⟩, fun ⟨v, hv, hn⟩ => ⟨v, hv, hn, (hm.named a v c hv hn).1⟩⟩

/-- The row a stored version belongs to. -/
def rowOf (log : Log) (origin : TID → Nat) (tid : TID) : Nat := ((log[origin tid]?).map Write.row).getD 0

theorem rowOf_eq {tid : TID} {w : Write Nat Values} (h : log[origin tid]? = some w) : rowOf log origin tid = w.row := by
  simp [rowOf, h]

theorem Mirror.row_of_reach (hm : Mirror loose look log origin) (hwf : WF log) {a c : TID} (ha : look a ≠ none)
    (h : Linked.Reach look TupleVersion.nextTid a c) : look c ≠ none ∧ rowOf log origin c = rowOf log origin a := by
  induction h with
  | refl => exact ⟨ha, rfl⟩
  | @tail x y _ hlink ih =>
    obtain ⟨v, hv, hn⟩ := hm.link_iff.1 hlink
    obtain ⟨hy, hs⟩ := hm.named x v y hv hn
    obtain ⟨w, hw, -⟩ := (hm.carries x v hv).made
    obtain ⟨v', hv'⟩ := Option.ne_none_iff_exists'.1 hy
    obtain ⟨u, hu, -⟩ := (hm.carries y v' hv').made
    refine ⟨hy, ?_⟩
    rw [← ih.2, rowOf_eq hu, rowOf_eq hw]
    exact hs.row hwf hw hu

/-! ## Counted writers -/

section Counted

variable {counted : Nat → Prop}

theorem lastOver_of_counted (hs : Serial (fun x => ¬ counted x) log) {i k : Nat} {u : Write Nat Values}
    (hk : log[k]? = some u) (hc : counted u.writer) (ht : u.target = some i) : LastOver log i k u := by
  refine ⟨hk, ht, fun m x hm hx => ?_⟩
  by_contra hlt
  exact hs k m u x i (by omega) hk hm ht hx hc

/-- **The deleter of a version is counted exactly when a counted write is over it.** -/
theorem Carries.xmax_counted (hs : Serial (fun x => ¬ counted x) log) (h0 : ¬ counted 0) {i : Nat} {v : TupleVersion}
    (h : Carries log i v) :
    counted v.xmax ↔ ∃ (k : Nat) (u : Write Nat Values), log[k]? = some u ∧ counted u.writer ∧ u.target = some i := by
  constructor
  · intro hc
    obtain ⟨j, w, hl, hx⟩ := h.deleted (fun hz => h0 (hz ▸ hc))
    exact ⟨j, w, hl.get, hx ▸ hc, hl.target⟩
  · rintro ⟨k, u, hk, hc, ht⟩
    by_cases hz : v.xmax = 0
    · exact absurd ht (h.kept hz k u hk)
    · obtain ⟨j, w, hl, hx⟩ := h.deleted hz
      obtain ⟨-, rfl⟩ := hl.unique (lastOver_of_counted hs hk hc ht)
      exact hx ▸ hc

/-- **A stored version is open exactly when its creator is counted and its deleter is not.** -/
theorem Carries.open_iff (hs : Serial (fun x => ¬ counted x) log) (h0 : ¬ counted 0) {i : Nat} {v : TupleVersion}
    (h : Carries log i v) {w : Write Nat Values} (hw : log[i]? = some w) :
    Open counted log w.row i w ↔ counted v.xmin ∧ ¬ counted v.xmax := by
  obtain ⟨w', hw', hx, hval⟩ := h.made
  obtain rfl : w' = w := by rw [hw] at hw'; exact (Option.some.inj hw').symm
  rw [h.xmax_counted hs h0]
  constructor
  · intro ho
    exact ⟨hx ▸ ho.mine, fun ⟨k, u, hk, hc, ht⟩ => ho.free k u hk hc ht⟩
  · rintro ⟨hc, hn⟩
    exact ⟨hw, hx ▸ hc, rfl, by rw [hval]; simp, fun k u hk hcu ht => hn ⟨k, u, hk, hcu, ht⟩⟩

/-- Version `j` follows version `i` by replacements. -/
abbrev Follows (log : Log) : Nat → Nat → Prop := Relation.TransGen (fun i j => ∃ w, LastReplaced log i j w)

theorem follows_of_over (hs : Serial (fun x => ¬ counted x) log) (hwf : WF log) {i j : Nat} {w : Write Nat Values}
    (h : Relation.TransGen (Over counted log) i j) (hw : log[j]? = some w) (hv : w.value ≠ none) : Follows log i j := by
  have hone : ∀ {i j : Nat} {w : Write Nat Values}, Over counted log i j → log[j]? = some w → w.value ≠ none →
      ∃ w, LastReplaced log i j w := by
    rintro i j w ⟨u, hu, hc, ht⟩ hw hv
    rw [hw] at hu
    cases hu
    have hl := lastOver_of_counted hs hw hc ht
    exact ⟨w, hw, ht, hv, fun k u hk htk _ => hl.last k u hk htk⟩
  induction h generalizing w with
  | single h => exact .single (hone h hw hv)
  | tail _ hover ih =>
    obtain ⟨u, hu, -, ht⟩ := id hover
    obtain ⟨-, x, hx, hvx, -⟩ := hwf.writes _ u _ hu ht
    exact (ih hx hvx).tail (hone hover hw hv)

theorem Follows.lt (hwf : WF log) {i j : Nat} (h : Follows log i j) : i < j := by
  induction h with
  | single h => obtain ⟨w, hw⟩ := h; exact (hwf.writes _ _ _ hw.get hw.target).1
  | tail _ h ih => obtain ⟨w, hw⟩ := h; exact Nat.lt_trans ih (hwf.writes _ _ _ hw.get hw.target).1

theorem Succs.toFollows {gone : Nat → Prop} {i j : Nat} (h : Succs log gone i j) : Follows log i j := by
  induction h with
  | one h => exact .single ⟨_, h⟩
  | step h _ _ ih => exact .head ⟨_, h⟩ ih

theorem Succs.follows {gone : Nat → Prop} {i m j : Nat} (h : Succs log gone i m) (hf : Follows log i j) (hj : ¬ gone j) :
    m = j ∨ Follows log m j := by
  induction h with
  | one h =>
    rcases Relation.TransGen.head'_iff.1 hf with ⟨k, ⟨w, hw⟩, hkj⟩
    obtain rfl := h.unique hw
    rcases Relation.reflTransGen_iff_eq_or_transGen.1 hkj with he | ht
    · exact Or.inl he.symm
    · exact Or.inr ht
  | step h hg _ ih =>
    rcases Relation.TransGen.head'_iff.1 hf with ⟨k, ⟨w, hw⟩, hkj⟩
    obtain rfl := h.unique hw
    rcases Relation.reflTransGen_iff_eq_or_transGen.1 hkj with he | ht
    · exact absurd (he ▸ hg) hj
    · exact ih ht

/-- **A stored version that follows another by replacements is met on its chain.** -/
theorem Mirror.reach_of_follows (hm : Mirror loose look log origin) (hwf : WF log) {c : TID} (hc : look c ≠ none) :
    ∀ (n : Nat) (a : TID), look a ≠ none → origin c - origin a ≤ n → Follows log (origin a) (origin c) →
      Linked.Reach look TupleVersion.nextTid a c := by
  intro n
  induction n with
  | zero =>
    intro a ha hn hf
    have := Follows.lt hwf hf
    omega
  | succ n ih =>
    intro a ha hn hf
    obtain ⟨v, hv⟩ := Option.ne_none_iff_exists'.1 ha
    cases hnx : v.nextTid with
    | none =>
      -- no replacement of `a` is recorded, but one starts the chain to `c`
      obtain ⟨k, ⟨w, hw⟩, -⟩ := Relation.TransGen.head'_iff.1 hf
      exact absurd (hm.plain a v hv hnx _ w hw.get hw.target) hw.value
    | some d =>
      obtain ⟨hd, hs⟩ := hm.named a v d hv hnx
      have hlink : Linked.Link look TupleVersion.nextTid a d := ⟨v, hv, hnx, hd⟩
      rcases hs.follows hf (not_gone hc) with he | hf'
      · rw [hm.inj d c hd hc he] at hlink
        exact .single hlink
      · have := hs.lt hwf
        exact .head hlink (ih d hd (by omega) hf')

/-- **A slot that no version names is named by none of the versions left** of a heap that lost some. -/
theorem Mirror.unnamed_stays {loose' : TupleVersion → Prop} {look' : Versions} (hm : Mirror loose look log origin)
    (hm' : Mirror loose' look' log origin) (hwf : WF log) (hsub : ∀ a, look' a ≠ none → look a ≠ none) {r : TID}
    (hr : ∀ a v, look a = some v → v.nextTid ≠ some r) {a : TID} {v : TupleVersion} (ha : look' a = some v) :
    v.nextTid ≠ some r := by
  intro hn
  obtain ⟨hr', hs⟩ := hm'.named a v r ha hn
  have hreach := hm.reach_of_follows hwf (hsub r hr') _ a (hsub a (by rw [ha]; simp)) (Nat.le_refl _) hs.toFollows
  rcases Relation.ReflTransGen.cases_tail hreach with he | ⟨b, -, w, hb, hbn, -⟩
  · have := hs.lt hwf
    rw [he] at this
    omega
  · exact hr b w hb hbn

/-- **The stored versions of a row that counted writers left lie on one chain.** -/
theorem Mirror.reach_of_counted (hm : Mirror loose look log origin) (hwf : WF log)
    (hs : Serial (fun x => ¬ counted x) log) {a c : TID} {v v' : TupleVersion} (ha : look a = some v)
    (hc : look c = some v') (hrow : rowOf log origin a = rowOf log origin c)
    (hclosed : Closed counted log (rowOf log origin a)) (hca : counted v.xmin) (hcc : counted v'.xmin)
    (hlt : origin a < origin c) : Linked.Reach look TupleVersion.nextTid a c := by
  obtain ⟨w, hw, hx, -⟩ := (hm.carries a v ha).made
  obtain ⟨u, hu, hy, hval⟩ := (hm.carries c v' hc).made
  rw [rowOf_eq hw] at hrow hclosed
  rw [rowOf_eq hu] at hrow
  have hover := History.over_chain hwf hs hclosed (origin c) (origin a) u w hu (hy ▸ hcc) hrow.symm hw (hx ▸ hca) rfl hlt
  exact hm.reach_of_follows hwf (by rw [hc]; simp) _ a (by rw [ha]; simp) (Nat.le_refl _)
    (follows_of_over hs hwf hover hu (by rw [hval]; simp))

end Counted

/-! ## The loops return -/

namespace HeapTable

variable {t : HeapTable}

theorem mem_keys (t : HeapTable) : ∀ a, t.physicalVersion a ≠ none → a ∈ t.scanVersions.map Prod.fst := fun a ha => by
  obtain ⟨v, hv⟩ := Option.ne_none_iff_exists'.1 ha
  exact List.mem_map.2 ⟨(a, v), mem_scanVersions.2 hv, rfl⟩

theorem predecessor_eq_some {a b : TID} (h : t.predecessor a = some b) :
    ∃ v, t.physicalVersion b = some v ∧ v.nextTid = some a := by
  unfold predecessor at h
  obtain ⟨⟨b', v⟩, hp, rfl⟩ := Option.map_eq_some_iff.1 h
  have hmem := List.mem_of_getLast? hp
  rw [List.mem_filter] at hmem
  exact ⟨v, mem_scanVersions.1 hmem.1, by simpa using hmem.2⟩

theorem predecessor_eq_none {a b : TID} {v : TupleVersion} (h : t.predecessor a = none)
    (hb : t.physicalVersion b = some v) : v.nextTid ≠ some a := by
  unfold predecessor at h
  rw [Option.map_eq_none_iff, List.getLast?_eq_none_iff, List.filter_eq_nil_iff] at h
  have := h (b, v) (mem_scanVersions.2 hb)
  simpa using this

theorem no_link_to_root {r : TID} (hr : r ∈ t.roots) (a : TID) :
    ¬ Linked.Link t.physicalVersion TupleVersion.nextTid a r := fun ⟨v, hv, hn, _⟩ => (mem_roots.1 hr).2 a v hv hn

theorem mapM_eq_ok {α β : Type} {f : α → Result β} {g : α → β} : ∀ (l : List α), (∀ a ∈ l, f a = .ok (g a)) →
    l.mapM f = .ok (l.map g)
  | [], _ => rfl
  | a :: l, h => by
    rw [List.mapM_cons, h a List.mem_cons_self, mapM_eq_ok l (fun b hb => h b (List.mem_cons_of_mem _ hb))]
    rfl

/-- The last version on the chain of `r` that passes, if the chain loop returns. -/
def resolved (t : HeapTable) (passes : TupleVersion → Bool) (r : TID) : Option (TID × Values) :=
  match t.chainFrom r with
  | .ok l    => lastOf passes l
  | .error _ => none

/-- The rows a scan returns: what each root resolves to. -/
def scanned (t : HeapTable) (passes : TupleVersion → Bool) : List (TID × Values) :=
  t.roots.filterMap (t.resolved passes)

end HeapTable

namespace Threaded

variable {t : HeapTable} {rank : TID → Nat}

theorem chainFrom_ok (ht : Threaded t.physicalVersion rank) (tid : TID) :
    ∃ l, Linked.Path t.physicalVersion TupleVersion.nextTid (some tid) l ∧ t.chainFrom tid = .ok l := by
  obtain ⟨l, hl, hw⟩ := Linked.walk_ranked ht.ranked t.mem_keys (n := t.scanVersions.length + 1) (by simp) (some tid)
  exact ⟨l, hl, by simp [HeapTable.chainFrom, hw]⟩

/-- **`root_tid` returns the root whose chain meets the version.** -/
theorem rootTid_ok (ht : Threaded t.physicalVersion rank) {a : TID} (ha : t.physicalVersion a ≠ none) :
    ∃ r, t.rootTid a = .ok r ∧ r ∈ t.roots ∧ Linked.Reach t.physicalVersion TupleVersion.nextTid r a := by
  obtain ⟨r, hr, hreach, hp⟩ := Linked.climb_eq_some ht.ranked t.mem_keys
    (fun a b ha (hb : t.predecessor a = some b) => by
      obtain ⟨v, hv, hn⟩ := HeapTable.predecessor_eq_some hb
      exact ⟨v, hv, hn, ha⟩)
    (t.scanVersions.length + 1) [] a ha .nil (by simp) (by simp)
  refine ⟨r, by simp [HeapTable.rootTid, hr], HeapTable.mem_roots.2 ⟨?_, fun b v hb => HeapTable.predecessor_eq_none hp hb⟩,
    hreach⟩
  rcases Relation.ReflTransGen.cases_head hreach with rfl | ⟨c, ⟨v, hv, -⟩, -⟩
  · exact Option.ne_none_iff_exists'.1 ha
  · exact ⟨v, hv⟩

theorem root_unique (ht : Threaded t.physicalVersion rank) {r r' a : TID} (hr : r ∈ t.roots) (hr' : r' ∈ t.roots)
    (h : Linked.Reach t.physicalVersion TupleVersion.nextTid r a)
    (h' : Linked.Reach t.physicalVersion TupleVersion.nextTid r' a) : r = r' :=
  Linked.root_unique ht.unshared h h' (HeapTable.no_link_to_root hr) (HeapTable.no_link_to_root hr')

theorem resolved_eq_some (ht : Threaded t.physicalVersion rank) {passes : TupleVersion → Bool} {r a : TID} {values : Values}
    (h : t.resolved passes r = some (a, values)) :
    Linked.Reach t.physicalVersion TupleVersion.nextTid r a ∧
      ∃ v, t.physicalVersion a = some v ∧ passes v = true ∧ v.values = values := by
  obtain ⟨l, hl, hc⟩ := ht.chainFrom_ok r
  simp only [HeapTable.resolved, hc, HeapTable.lastOf, Option.map_eq_some_iff] at h
  obtain ⟨⟨a', v⟩, hlast, heq⟩ := h
  cases heq
  obtain ⟨hmem, hp⟩ := List.mem_filter.1 (List.mem_of_getLast? hlast)
  exact ⟨hl.reach_of_mem hmem, v, hl.look_of_mem hmem, hp, rfl⟩

theorem resolved_isSome (ht : Threaded t.physicalVersion rank) {passes : TupleVersion → Bool} {r a : TID} {v : TupleVersion}
    (ha : t.physicalVersion a = some v) (hp : passes v = true)
    (h : Linked.Reach t.physicalVersion TupleVersion.nextTid r a) : ∃ q, t.resolved passes r = some q := by
  obtain ⟨l, hl, hc⟩ := ht.chainFrom_ok r
  have hmem : (a, v) ∈ l.filter (fun p => passes p.2) := List.mem_filter.2 ⟨hl.mem_of_reach h ha, hp⟩
  simp only [HeapTable.resolved, hc, HeapTable.lastOf]
  cases hlast : (l.filter (fun p => passes p.2)).getLast? with
  | none => rw [List.getLast?_eq_none_iff] at hlast; rw [hlast] at hmem; cases hmem
  | some q => exact ⟨_, rfl⟩

theorem resolveVisible_ok (ht : Threaded t.physicalVersion rank) (r : TID) (s : Snapshot) (o : Nat) (st : StatusTable) :
    t.resolveVisible r s o st = .ok (t.resolved (fun v => isVisible v s o st) r) := by
  obtain ⟨l, -, hc⟩ := ht.chainFrom_ok r
  simp [HeapTable.resolveVisible, HeapTable.resolved, hc, bind, Except.bind]

/-- **`scan_visible` returns.** -/
theorem scanVisible_ok (ht : Threaded t.physicalVersion rank) (s : Snapshot) (o : Nat) (st : StatusTable) :
    t.scanVisible s o st = .ok (t.scanned (fun v => isVisible v s o st)) := by
  unfold HeapTable.scanVisible HeapTable.scanned
  rw [HeapTable.mapM_eq_ok (g := t.resolved (fun v => isVisible v s o st)) t.roots
    (fun r _ => ht.resolveVisible_ok r s o st)]
  simp [bind, Except.bind, List.filterMap_map]

end Threaded

namespace HeapTable

variable {t : HeapTable}

theorem rootTid_ok (hm : Mirror loose t.physicalVersion log origin) (hwf : WF log) {a : TID}
    (ha : t.physicalVersion a ≠ none) :
    ∃ r, t.rootTid a = .ok r ∧ r ∈ t.roots ∧ Linked.Reach t.physicalVersion TupleVersion.nextTid r a :=
  (hm.threaded hwf).rootTid_ok ha

theorem root_unique (hm : Mirror loose t.physicalVersion log origin) (hwf : WF log) {r r' a : TID} (hr : r ∈ t.roots)
    (hr' : r' ∈ t.roots) (h : Linked.Reach t.physicalVersion TupleVersion.nextTid r a)
    (h' : Linked.Reach t.physicalVersion TupleVersion.nextTid r' a) : r = r' :=
  (hm.threaded hwf).root_unique hr hr' h h'

theorem resolved_eq_some (hm : Mirror loose t.physicalVersion log origin) (hwf : WF log) {passes : TupleVersion → Bool}
    {r a : TID} {values : Values} (h : t.resolved passes r = some (a, values)) :
    Linked.Reach t.physicalVersion TupleVersion.nextTid r a ∧
      ∃ v, t.physicalVersion a = some v ∧ passes v = true ∧ v.values = values :=
  (hm.threaded hwf).resolved_eq_some h

theorem resolved_isSome (hm : Mirror loose t.physicalVersion log origin) (hwf : WF log) {passes : TupleVersion → Bool}
    {r a : TID} {v : TupleVersion} (ha : t.physicalVersion a = some v) (hp : passes v = true)
    (h : Linked.Reach t.physicalVersion TupleVersion.nextTid r a) : ∃ q, t.resolved passes r = some q :=
  (hm.threaded hwf).resolved_isSome ha hp h

theorem resolveVisible_ok (hm : Mirror loose t.physicalVersion log origin) (hwf : WF log) (r : TID) (s : Snapshot)
    (o : Nat) (st : StatusTable) : t.resolveVisible r s o st = .ok (t.resolved (fun v => isVisible v s o st) r) :=
  (hm.threaded hwf).resolveVisible_ok r s o st

theorem resolveGloballyLiveFromRoot_ok (hm : Mirror loose t.physicalVersion log origin) (hwf : WF log) (r : TID)
    (o : Nat) (st : StatusTable) :
    t.resolveGloballyLiveFromRoot r o st = .ok (t.resolved (fun v => globallyLive v o st) r) := by
  obtain ⟨l, -, hc⟩ := (hm.threaded hwf).chainFrom_ok r
  simp [resolveGloballyLiveFromRoot, resolved, hc, bind, Except.bind]

theorem scanVisible_ok (hm : Mirror loose t.physicalVersion log origin) (hwf : WF log) (s : Snapshot) (o : Nat)
    (st : StatusTable) : t.scanVisible s o st = .ok (t.scanned (fun v => isVisible v s o st)) :=
  (hm.threaded hwf).scanVisible_ok s o st

theorem scanGloballyLive_ok (hm : Mirror loose t.physicalVersion log origin) (hwf : WF log) (st : StatusTable) :
    t.scanGloballyLive st = .ok (t.scanned (fun v => globallyLive v 0 st)) := by
  unfold scanGloballyLive scanned
  rw [mapM_eq_ok (g := t.resolved (fun v => globallyLive v 0 st)) t.roots
    (fun r _ => resolveGloballyLiveFromRoot_ok hm hwf r 0 st)]
  simp [bind, Except.bind, List.filterMap_map]

theorem mem_scanned {passes : TupleVersion → Bool} {q : TID × Values} :
    q ∈ t.scanned passes ↔ ∃ r ∈ t.roots, t.resolved passes r = some q := by
  simp [scanned, List.mem_filterMap]

/-- **A scanned row is a stored version that passes, and every stored version that passes has its chain scanned.** -/
theorem scanned_sound (hm : Mirror loose t.physicalVersion log origin) (hwf : WF log) {passes : TupleVersion → Bool}
    {a : TID} {values : Values} (h : (a, values) ∈ t.scanned passes) :
    ∃ v, t.physicalVersion a = some v ∧ passes v = true ∧ v.values = values := by
  obtain ⟨r, -, hres⟩ := mem_scanned.1 h
  exact (resolved_eq_some hm hwf hres).2

theorem filterMap_eq_singleton {α β : Type} {f : α → Option β} {x : α} {b : β} : ∀ {l : List α}, l.Nodup → x ∈ l →
    f x = some b → (∀ y ∈ l, f y ≠ none → y = x) → l.filterMap f = [b]
  | [], _, hx, _, _ => absurd hx (by simp)
  | y :: l, hnd, hx, hf, hu => by
    rw [List.nodup_cons] at hnd
    by_cases hy : y = x
    · subst hy
      have hnil : l.filterMap f = [] := by
        rw [List.filterMap_eq_nil_iff]
        intro z hz
        by_contra hne
        exact hnd.1 (hu z (List.mem_cons_of_mem _ hz) hne ▸ hz)
      rw [List.filterMap_cons_some hf, hnil]
    · have hnone : f y = none := by
        by_contra hne
        exact hy (hu y List.mem_cons_self hne)
      rw [List.filterMap_cons_none hnone]
      refine filterMap_eq_singleton hnd.2 ?_ hf (fun z hz => hu z (List.mem_cons_of_mem _ hz))
      rcases List.mem_cons.1 hx with rfl | hx
      · exact absurd rfl hy
      · exact hx

/-- **A row whose only passing version is `a` is scanned once, with its values.** -/
theorem scanned_row (hm : Mirror loose t.physicalVersion log origin) (hwf : WF log) {passes : TupleVersion → Bool}
    {a : TID} {v : TupleVersion} (ha : t.physicalVersion a = some v) (hp : passes v = true)
    (hu : ∀ b u, t.physicalVersion b = some u → rowOf log origin b = rowOf log origin a → passes u = true → b = a) :
    (t.scanned passes).filter (fun q => rowOf log origin q.1 = rowOf log origin a) = [(a, v.values)] := by
  obtain ⟨r, -, hr, hreach⟩ := rootTid_ok hm hwf (a := a) (by rw [ha]; simp)
  have hrow : ∀ r' q, t.resolved passes r' = some q → rowOf log origin q.1 = rowOf log origin a →
      q = (a, v.values) ∧ Linked.Reach t.physicalVersion TupleVersion.nextTid r' a := by
    rintro r' ⟨b, values⟩ hq hrow
    obtain ⟨hb, u, hbu, hpu, rfl⟩ := resolved_eq_some hm hwf hq
    obtain rfl := hu b u hbu hrow hpu
    rw [ha] at hbu
    cases hbu
    exact ⟨rfl, hb⟩
  unfold scanned
  rw [List.filter_filterMap]
  refine filterMap_eq_singleton t.roots_nodup hr ?_ (fun r' hr' hne => ?_)
  · obtain ⟨q, hq⟩ := resolved_isSome hm hwf ha hp hreach
    have hrl : t.physicalVersion r ≠ none := by
      obtain ⟨⟨v', hv'⟩, -⟩ := mem_roots.1 hr
      rw [hv']; simp
    have hqrow : rowOf log origin q.1 = rowOf log origin a := by
      rw [(hm.row_of_reach hwf hrl (resolved_eq_some hm hwf hq).1).2, (hm.row_of_reach hwf hrl hreach).2]
    obtain ⟨rfl, -⟩ := hrow r q hq hqrow
    rw [hq]
    simp
  · obtain ⟨q, hq⟩ := Option.ne_none_iff_exists'.1 hne
    obtain ⟨hres, hqrow⟩ := Option.filter_eq_some_iff.1 hq
    exact root_unique hm hwf hr' hr (hrow r' q hres (by simpa using hqrow)).2 hreach

theorem scanned_no_row (hm : Mirror loose t.physicalVersion log origin) (hwf : WF log) {passes : TupleVersion → Bool}
    {row : Nat} (hu : ∀ b u, t.physicalVersion b = some u → rowOf log origin b = row → passes u = false) :
    (t.scanned passes).filter (fun q => rowOf log origin q.1 = row) = [] := by
  rw [List.filter_eq_nil_iff]
  rintro ⟨b, values⟩ hq hrow
  obtain ⟨u, hbu, hpu, -⟩ := scanned_sound hm hwf hq
  rw [hu b u hbu (by simpa using hrow)] at hpu
  cases hpu

end HeapTable
end MiniPostgres
