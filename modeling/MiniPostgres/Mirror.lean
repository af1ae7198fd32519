import MiniPostgres.HeapSpec
import MiniPostgres.Lib.History
/-!
# Mirror — the stored versions against the write history

`origin` names, for each slot in use, the write that created its version.  `Carries` ties a stored version's creator,
values and deleter to the history; `Mirror` adds the links: `next_tid` names the version of the last replacement, or, past
versions that are gone, a later one of the same chain.  A version is `loose` when its link may have been moved past a
reclaimed version; any other link is exact.
-/
namespace MiniPostgres

open History (Write WF Serial getElem?_concat lt_of_getElem?)

abbrev Log := History.Log Nat Values

abbrev Versions := TID → Option TupleVersion

/-- Write `j` is the last one over version `i`. -/
structure LastOver (log : Log) (i j : Nat) (w : Write Nat Values) : Prop where
  get    : log[j]? = some w
  target : w.target = some i
  last   : ∀ (k : Nat) (u : Write Nat Values), log[k]? = some u → u.target = some i → k ≤ j

/-- Write `j` is the last replacement of version `i`. -/
structure LastReplaced (log : Log) (i j : Nat) (w : Write Nat Values) : Prop where
  get    : log[j]? = some w
  target : w.target = some i
  value  : w.value ≠ none
  last   : ∀ (k : Nat) (u : Write Nat Values), log[k]? = some u → u.target = some i → u.value ≠ none → k ≤ j

/-- **Creator, values and deleter of a stored version**, read off the history at its origin. -/
structure Carries (log : Log) (i : Nat) (v : TupleVersion) : Prop where
  made    : ∃ w, log[i]? = some w ∧ w.writer = v.xmin ∧ w.value = some v.values
  deleted : v.xmax ≠ 0 → ∃ j w, LastOver log i j w ∧ w.writer = v.xmax
  kept    : v.xmax = 0 → ∀ (k : Nat) (u : Write Nat Values), log[k]? = some u → u.target ≠ some i

/-- Version `j` follows version `i` by replacements, through versions that are gone. -/
inductive Succs (log : Log) (gone : Nat → Prop) : Nat → Nat → Prop
  | one {i j : Nat} {w : Write Nat Values} (h : LastReplaced log i j w) : Succs log gone i j
  | step {i k j : Nat} {w : Write Nat Values} (h : LastReplaced log i k w) (hg : gone k) (t : Succs log gone k j) :
      Succs log gone i j

/-- No slot holds version `i`. -/
def Gone (look : Versions) (origin : TID → Nat) (i : Nat) : Prop := ∀ a, look a ≠ none → origin a ≠ i

/-- **The heap holds versions of the history, each at one slot, and its links follow the replacements.** -/
structure Mirror (loose : TupleVersion → Prop) (look : Versions) (log : Log) (origin : TID → Nat) : Prop where
  carries : ∀ a v, look a = some v → Carries log (origin a) v
  inj     : ∀ a b, look a ≠ none → look b ≠ none → origin a = origin b → a = b
  named   : ∀ a v c, look a = some v → v.nextTid = some c →
    look c ≠ none ∧ Succs log (Gone look origin) (origin a) (origin c)
  plain   : ∀ a v, look a = some v → v.nextTid = none →
    ∀ (k : Nat) (u : Write Nat Values), log[k]? = some u → u.target = some (origin a) → u.value = none
  exact   : ∀ a v c, look a = some v → ¬ loose v → v.nextTid = some c → ∃ w, LastReplaced log (origin a) (origin c) w

/-- Every version of the history is stored. -/
def Stored (look : Versions) (log : Log) (origin : TID → Nat) : Prop :=
  ∀ (i : Nat) (w : Write Nat Values), log[i]? = some w → w.value ≠ none → ∃ a, look a ≠ none ∧ origin a = i

variable {look : Versions} {log : Log} {origin : TID → Nat}

theorem Carries.lt {i : Nat} {v : TupleVersion} (h : Carries log i v) : i < log.length := by
  obtain ⟨w, hw, -⟩ := h.made
  exact lt_of_getElem? hw

theorem LastOver.unique {i j j' : Nat} {w w' : Write Nat Values} (h : LastOver log i j w) (h' : LastOver log i j' w') :
    j = j' ∧ w = w' := by
  have h1 := h.last j' w' h'.get h'.target
  have h2 := h'.last j w h.get h.target
  obtain rfl : j = j' := by omega
  have hg := h.get
  rw [h'.get] at hg
  exact ⟨rfl, (Option.some.inj hg).symm⟩

theorem Carries.concat {i : Nat} {v : TupleVersion} (h : Carries log i v) {w : Write Nat Values}
    (hw : w.target ≠ some i) : Carries (log ++ [w]) i v := by
  obtain ⟨u, hu, hx, hv⟩ := h.made
  refine ⟨⟨u, getElem?_concat.2 (Or.inl hu), hx, hv⟩, fun hne => ?_, fun h0 k u' hk => ?_⟩
  · obtain ⟨j, w', hl, hx'⟩ := h.deleted hne
    refine ⟨j, w', ⟨getElem?_concat.2 (Or.inl hl.get), hl.target, fun k u' hk ht => ?_⟩, hx'⟩
    rcases getElem?_concat.1 hk with hk | ⟨-, rfl⟩
    · exact hl.last k u' hk ht
    · exact absurd ht hw
  · rcases getElem?_concat.1 hk with hk | ⟨-, rfl⟩
    · exact h.kept h0 k u' hk
    · exact hw

theorem Carries.concat_over {i : Nat} {v v' : TupleVersion} (h : Carries log i v) {w : Write Nat Values}
    (hw : w.target = some i) (hmin : v'.xmin = v.xmin) (hval : v'.values = v.values) (hmax : v'.xmax = w.writer)
    (h0 : w.writer ≠ 0) : Carries (log ++ [w]) i v' := by
  obtain ⟨u, hu, hx, hv⟩ := h.made
  refine ⟨⟨u, getElem?_concat.2 (Or.inl hu), hx.trans hmin.symm, by rw [hv, hval]⟩, fun _ => ?_, fun hz => ?_⟩
  · refine ⟨log.length, w, ⟨getElem?_concat.2 (Or.inr ⟨rfl, rfl⟩), hw, fun k u' hk _ => ?_⟩, hmax.symm⟩
    rcases getElem?_concat.1 hk with hk | ⟨rfl, -⟩
    · exact Nat.le_of_lt (lt_of_getElem? hk)
    · exact Nat.le_refl _
  · exact absurd (hmax.symm.trans hz) h0

theorem Carries.new (h : WF log) {w : Write Nat Values} {values : Values} (hv : w.value = some values)
    (ht : ∀ i, w.target = some i → i < log.length) : Carries (log ++ [w]) log.length ⟨w.writer, 0, none, values⟩ := by
  refine ⟨⟨w, getElem?_concat.2 (Or.inr ⟨rfl, rfl⟩), rfl, hv⟩, fun h0 => absurd rfl h0, fun _ k u hk htu => ?_⟩
  rcases getElem?_concat.1 hk with hk | ⟨-, rfl⟩
  · have h1 := (h.writes k u _ hk htu).1
    have h2 := lt_of_getElem? hk
    omega
  · have := ht _ htu
    omega

theorem LastReplaced.concat {i j : Nat} {w : Write Nat Values} (h : LastReplaced log i j w) {u : Write Nat Values}
    (hu : u.target = some i → u.value = none) : LastReplaced (log ++ [u]) i j w := by
  refine ⟨getElem?_concat.2 (Or.inl h.get), h.target, h.value, fun k u' hk ht hv => ?_⟩
  rcases getElem?_concat.1 hk with hk | ⟨-, rfl⟩
  · exact h.last k u' hk ht hv
  · exact absurd (hu ht) hv

theorem LastReplaced.new {i : Nat} {w : Write Nat Values} (ht : w.target = some i) (hv : w.value ≠ none) :
    LastReplaced (log ++ [w]) i log.length w := by
  refine ⟨getElem?_concat.2 (Or.inr ⟨rfl, rfl⟩), ht, hv, fun k u hk _ _ => ?_⟩
  rcases getElem?_concat.1 hk with hk | ⟨rfl, -⟩
  · exact Nat.le_of_lt (lt_of_getElem? hk)
  · exact Nat.le_refl _

theorem Succs.mono {log' : Log} {gone gone' : Nat → Prop} {i j : Nat} (h : Succs log gone i j)
    (hr : ∀ k m w, k = i ∨ gone k → LastReplaced log k m w → LastReplaced log' k m w)
    (hg : ∀ k, k < log.length → gone k → gone' k) : Succs log' gone' i j := by
  induction h with
  | one h => exact .one (hr _ _ _ (Or.inl rfl) h)
  | step h hk t ih =>
    refine .step (hr _ _ _ (Or.inl rfl) h) (hg _ (lt_of_getElem? h.get) hk) (ih fun k m w hkm => hr k m w (Or.inr ?_))
    rcases hkm with rfl | hkm
    · exact hk
    · exact hkm

theorem Succs.trans {gone : Nat → Prop} {i k j : Nat} (h : Succs log gone i k) (hk : gone k) (h' : Succs log gone k j) :
    Succs log gone i j := by
  induction h with
  | one h => exact .step h hk h'
  | step h hg _ ih => exact .step h hg (ih hk h')

theorem Succs.lt (hwf : WF log) {gone : Nat → Prop} {i j : Nat} (h : Succs log gone i j) : i < j := by
  induction h with
  | one h => exact (hwf.writes _ _ _ h.get h.target).1
  | step h _ _ ih => exact Nat.lt_trans (hwf.writes _ _ _ h.get h.target).1 ih

theorem Mirror.origin_lt {loose : TupleVersion → Prop} (hm : Mirror loose look log origin) {a : TID}
    (ha : look a ≠ none) : origin a < log.length := by
  obtain ⟨v, hv⟩ := Option.ne_none_iff_exists'.1 ha
  exact (hm.carries a v hv).lt

theorem Mirror.loosen {loose loose' : TupleVersion → Prop} (hm : Mirror loose look log origin)
    (h : ∀ v, loose v → loose' v) : Mirror loose' look log origin :=
  { hm with exact := fun a v c ha hl => hm.exact a v c ha (fun h' => hl (h v h')) }

/-! ## Heap mutations -/

section Mutations

variable {loose : TupleVersion → Prop} {w : Write Nat Values} {values : Values} {a b : TID} {old : TupleVersion}

/-- A new version in a dead slot: what it does to the other slots. -/
theorem Mirror.fresh_keep (hm : Mirror loose look log origin) (hb : look b = none) (x : Option TupleVersion) {c : TID}
    (hc : look c ≠ none) :
    c ≠ b ∧ Function.update look b x c ≠ none ∧ Function.update origin b log.length c = origin c ∧
      origin c < log.length := by
  have hne : c ≠ b := fun he => hc (he ▸ hb)
  rw [Function.update_of_ne hne, Function.update_of_ne hne]
  exact ⟨hne, hc, rfl, hm.origin_lt hc⟩

theorem Mirror.fresh_inj (hm : Mirror loose look log origin) (x : Option TupleVersion) :
    ∀ c d, Function.update look b x c ≠ none → Function.update look b x d ≠ none →
      Function.update origin b log.length c = Function.update origin b log.length d → c = d := by
  intro c d hc hd he
  by_cases hcb : c = b
  · by_cases hdb : d = b
    · rw [hcb, hdb]
    · rw [Function.update_of_ne hdb] at hd he
      rw [hcb, Function.update_self] at he
      have := hm.origin_lt hd
      omega
  · rw [Function.update_of_ne hcb] at hc he
    by_cases hdb : d = b
    · rw [hdb, Function.update_self] at he
      have := hm.origin_lt hc
      omega
    · rw [Function.update_of_ne hdb] at hd he
      exact hm.inj c d hc hd he

theorem Mirror.fresh_gone (x : Option TupleVersion) {k : Nat} (hk : k < log.length)
    (hg : Gone look origin k) : Gone (Function.update look b x) (Function.update origin b log.length) k := by
  intro c hc
  by_cases hcb : c = b
  · rw [hcb, Function.update_self]; omega
  · rw [Function.update_of_ne hcb] at hc ⊢
    exact hg c hc

/-- **A new row's version, stored in a dead slot.** -/
theorem Mirror.insert (hm : Mirror loose look log origin) (hwf : WF log) (hb : look b = none)
    (hv : w.value = some values) (ht : w.target = none) :
    Mirror loose (Function.update look b (some ⟨w.writer, 0, none, values⟩)) (log ++ [w])
      (Function.update origin b log.length) := by
  have hkeep := fun {c} => hm.fresh_keep (c := c) hb (some ⟨w.writer, 0, none, values⟩)
  have hlast : ∀ k m u, LastReplaced log k m u → LastReplaced (log ++ [w]) k m u :=
    fun k m u h => h.concat (by simp [ht])
  refine ⟨fun c v hc => ?_, hm.fresh_inj _, fun c v d hc hn => ?_, fun c v hc hn k u hk htu => ?_,
    fun c v d hc hl hn => ?_⟩
  · by_cases hcb : c = b
    · subst hcb
      rw [Function.update_self] at hc ⊢
      cases hc
      exact Carries.new hwf hv (by simp [ht])
    · rw [Function.update_of_ne hcb] at hc ⊢
      exact (hm.carries c v hc).concat (by simp [ht])
  · by_cases hcb : c = b
    · subst hcb; rw [Function.update_self] at hc; cases hc; cases hn
    · rw [Function.update_of_ne hcb] at hc
      obtain ⟨hd, hs⟩ := hm.named c v d hc hn
      obtain ⟨-, h1, h2, -⟩ := hkeep hd
      rw [Function.update_of_ne hcb, h2]
      exact ⟨h1, hs.mono (fun k m u _ => hlast k m u) (fun k hk => Mirror.fresh_gone _ hk)⟩
  · by_cases hcb : c = b
    · subst hcb
      rw [Function.update_self] at htu
      rcases getElem?_concat.1 hk with hk | ⟨-, rfl⟩
      · have h1 := (hwf.writes k u _ hk htu).1
        have h2 := lt_of_getElem? hk
        omega
      · rw [ht] at htu; cases htu
    · rw [Function.update_of_ne hcb] at hc htu
      rcases getElem?_concat.1 hk with hk | ⟨-, rfl⟩
      · exact hm.plain c v hc hn k u hk htu
      · rw [ht] at htu; cases htu
  · by_cases hcb : c = b
    · subst hcb; rw [Function.update_self] at hc; cases hc; cases hn
    · rw [Function.update_of_ne hcb] at hc
      obtain ⟨u, hu⟩ := hm.exact c v d hc hl hn
      rw [Function.update_of_ne hcb, (hkeep (hm.named c v d hc hn).1).2.2.1]
      exact ⟨u, hlast _ _ _ hu⟩

/-- **A replacement**: a dead slot holds the new version and the old one names it. -/
theorem Mirror.replace (hm : Mirror loose look log origin) (hwf : WF log) (ha : look a = some old) (hb : look b = none)
    (hv : w.value = some values) (ht : w.target = some (origin a)) (h0 : w.writer ≠ 0) :
    Mirror loose
      (Function.update (Function.update look b (some ⟨w.writer, 0, none, values⟩)) a
        (some ⟨old.xmin, w.writer, some b, old.values⟩))
      (log ++ [w]) (Function.update origin b log.length) := by
  have ha' : look a ≠ none := by rw [ha]; simp
  have hab : a ≠ b := fun he => ha' (he ▸ hb)
  have hkeep := fun {c} => hm.fresh_keep (c := c) hb (some ⟨w.writer, 0, none, values⟩)
  have hsome : ∀ {c}, Function.update (Function.update look b (some ⟨w.writer, 0, none, values⟩)) a
      (some ⟨old.xmin, w.writer, some b, old.values⟩) c ≠ none ↔
      Function.update look b (some ⟨w.writer, 0, none, values⟩) c ≠ none := fun {c} => by
    by_cases hca : c = a
    · subst hca
      rw [Function.update_self, Function.update_of_ne hab, ha]
      simp
    · rw [Function.update_of_ne hca]
  -- a version other than the replaced one, present or gone, keeps its replacements
  have hlast : ∀ c, look c ≠ none → c ≠ a → ∀ k m u, k = origin c ∨ Gone look origin k → LastReplaced log k m u →
      LastReplaced (log ++ [w]) k m u := by
    intro c hc hca k m u hk h
    refine h.concat (fun htw => ?_)
    rw [ht, Option.some.injEq] at htw
    rcases hk with rfl | hg
    · exact absurd (hm.inj c a hc ha' htw.symm) hca
    · exact absurd htw (hg a ha')
  have hgone : ∀ k, k < log.length → Gone look origin k → Gone
      (Function.update (Function.update look b (some ⟨w.writer, 0, none, values⟩)) a
        (some ⟨old.xmin, w.writer, some b, old.values⟩)) (Function.update origin b log.length) k :=
    fun k hk hg c hc => Mirror.fresh_gone (some ⟨w.writer, 0, none, values⟩) hk hg c (hsome.1 hc)
  refine ⟨fun c v hc => ?_, fun c d hc hd => hm.fresh_inj _ c d (hsome.1 hc) (hsome.1 hd), fun c v d hc hn => ?_,
    fun c v hc hn k u hk htu => ?_, fun c v d hc hl hn => ?_⟩
  · by_cases hca : c = a
    · subst hca
      rw [Function.update_self] at hc
      cases hc
      rw [Function.update_of_ne hab]
      exact (hm.carries c old ha).concat_over ht rfl rfl rfl h0
    · rw [Function.update_of_ne hca] at hc
      by_cases hcb : c = b
      · subst hcb
        rw [Function.update_self] at hc ⊢
        cases hc
        exact Carries.new hwf hv (fun i hi => by rw [ht] at hi; cases hi; exact hm.origin_lt ha')
      · rw [Function.update_of_ne hcb] at hc ⊢
        refine (hm.carries c v hc).concat (fun htw => ?_)
        rw [ht, Option.some.injEq] at htw
        exact hca (hm.inj c a (by rw [hc]; simp) ha' htw.symm)
  · by_cases hca : c = a
    · subst hca
      rw [Function.update_self] at hc
      cases hc
      cases hn
      rw [Function.update_of_ne hab, Function.update_self, hsome, Function.update_self]
      exact ⟨by simp, .one (LastReplaced.new ht (by rw [hv]; simp))⟩
    · rw [Function.update_of_ne hca] at hc
      by_cases hcb : c = b
      · subst hcb; rw [Function.update_self] at hc; cases hc; cases hn
      · rw [Function.update_of_ne hcb] at hc
        obtain ⟨hd, hs⟩ := hm.named c v d hc hn
        obtain ⟨-, h1, h2, -⟩ := hkeep hd
        rw [Function.update_of_ne hcb, h2, hsome]
        exact ⟨h1, hs.mono (hlast c (by rw [hc]; simp) hca) hgone⟩
  · by_cases hca : c = a
    · subst hca; rw [Function.update_self] at hc; cases hc; cases hn
    · rw [Function.update_of_ne hca] at hc
      by_cases hcb : c = b
      · subst hcb
        rw [Function.update_self] at htu
        rcases getElem?_concat.1 hk with hk | ⟨-, rfl⟩
        · have h1 := (hwf.writes k u _ hk htu).1
          have h2 := lt_of_getElem? hk
          omega
        · rw [ht, Option.some.injEq] at htu
          have := hm.origin_lt ha'
          omega
      · rw [Function.update_of_ne hcb] at hc htu
        rcases getElem?_concat.1 hk with hk | ⟨-, rfl⟩
        · exact hm.plain c v hc hn k u hk htu
        · rw [ht, Option.some.injEq] at htu
          exact absurd (hm.inj c a (by rw [hc]; simp) ha' htu.symm) hca
  · by_cases hca : c = a
    · subst hca
      rw [Function.update_self] at hc
      cases hc
      cases hn
      rw [Function.update_of_ne hab, Function.update_self]
      exact ⟨w, LastReplaced.new ht (by rw [hv]; simp)⟩
    · rw [Function.update_of_ne hca] at hc
      by_cases hcb : c = b
      · subst hcb; rw [Function.update_self] at hc; cases hc; cases hn
      · rw [Function.update_of_ne hcb] at hc
        obtain ⟨u, hu⟩ := hm.exact c v d hc hl hn
        rw [Function.update_of_ne hcb, (hkeep (hm.named c v d hc hn).1).2.2.1]
        exact ⟨u, hlast c (by rw [hc]; simp) hca _ _ _ (Or.inl rfl) hu⟩

/-- **A deletion**: the version names its deleter and keeps its link. -/
theorem Mirror.delete (hm : Mirror loose look log origin) (ha : look a = some old) (hl : ¬ loose old)
    (hv : w.value = none) (ht : w.target = some (origin a)) (h0 : w.writer ≠ 0) :
    Mirror loose (Function.update look a (some ⟨old.xmin, w.writer, old.nextTid, old.values⟩)) (log ++ [w]) origin := by
  have ha' : look a ≠ none := by rw [ha]; simp
  have hsome : ∀ {c}, Function.update look a (some ⟨old.xmin, w.writer, old.nextTid, old.values⟩) c ≠ none ↔
      look c ≠ none := fun {c} => by
    by_cases hca : c = a
    · subst hca; rw [Function.update_self]; simpa using ha'
    · rw [Function.update_of_ne hca]
  have hlast : ∀ k m u, LastReplaced log k m u → LastReplaced (log ++ [w]) k m u := fun k m u h => h.concat (fun _ => hv)
  have hgone : ∀ k, Gone look origin k →
      Gone (Function.update look a (some ⟨old.xmin, w.writer, old.nextTid, old.values⟩)) origin k :=
    fun k hg c hc => hg c (hsome.1 hc)
  -- the rewritten version has the link of the old one
  have hold : ∀ c v, Function.update look a (some ⟨old.xmin, w.writer, old.nextTid, old.values⟩) c = some v →
      ∃ v₀, look c = some v₀ ∧ v₀.nextTid = v.nextTid ∧ (c = a ∧ v₀ = old ∨ v₀ = v) := by
    intro c v hc
    by_cases hca : c = a
    · subst hca
      rw [Function.update_self] at hc
      cases hc
      exact ⟨old, ha, rfl, Or.inl ⟨rfl, rfl⟩⟩
    · rw [Function.update_of_ne hca] at hc
      exact ⟨v, hc, rfl, Or.inr rfl⟩
  refine ⟨fun c v hc => ?_, fun c d hc hd => hm.inj c d (hsome.1 hc) (hsome.1 hd), fun c v d hc hn => ?_,
    fun c v hc hn k u hk htu => ?_, fun c v d hc hlv hn => ?_⟩
  · by_cases hca : c = a
    · subst hca
      rw [Function.update_self] at hc
      cases hc
      exact (hm.carries c old ha).concat_over ht rfl rfl rfl h0
    · rw [Function.update_of_ne hca] at hc
      refine (hm.carries c v hc).concat (fun htw => ?_)
      rw [ht, Option.some.injEq] at htw
      exact hca (hm.inj c a (by rw [hc]; simp) ha' htw.symm)
  · obtain ⟨v₀, hv₀, hn₀, -⟩ := hold c v hc
    obtain ⟨hd, hs⟩ := hm.named c v₀ d hv₀ (hn₀.trans hn)
    exact ⟨hsome.2 hd, hs.mono (fun k m u _ => hlast k m u) (fun k _ => hgone k)⟩
  · obtain ⟨v₀, hv₀, hn₀, -⟩ := hold c v hc
    rcases getElem?_concat.1 hk with hk | ⟨-, rfl⟩
    · exact hm.plain c v₀ hv₀ (hn₀.trans hn) k u hk htu
    · exact hv
  · obtain ⟨v₀, hv₀, hn₀, hcase⟩ := hold c v hc
    have hl₀ : ¬ loose v₀ := by
      rcases hcase with ⟨-, rfl⟩ | rfl
      · exact hl
      · exact hlv
    obtain ⟨u, hu⟩ := hm.exact c v₀ d hv₀ hl₀ (hn₀.trans hn)
    exact ⟨u, hlast _ _ _ hu⟩

/-- **Slots cleared together**, none of them named by a version that stays. -/
theorem Mirror.remove (hm : Mirror loose look log origin) {look' : Versions}
    (hsub : ∀ c v, look' c = some v → look c = some v)
    (hstay : ∀ c v d, look' c = some v → v.nextTid = some d → look' d ≠ none) : Mirror loose look' log origin := by
  have hne : ∀ {c}, look' c ≠ none → look c ≠ none := fun {c} hc => by
    obtain ⟨v, hv⟩ := Option.ne_none_iff_exists'.1 hc
    rw [hsub c v hv]; simp
  refine ⟨fun c v hc => hm.carries c v (hsub c v hc), fun c d hc hd => hm.inj c d (hne hc) (hne hd),
    fun c v d hc hn => ⟨hstay c v d hc hn, ?_⟩, fun c v hc => hm.plain c v (hsub c v hc),
    fun c v d hc => hm.exact c v d (hsub c v hc)⟩
  exact (hm.named c v d (hsub c v hc) hn).2.mono (fun _ _ _ _ h => h) (fun k _ hg e he => hg e (hne he))

/-- **A chain member unlinked and cleared**: its loose predecessor names its successor. -/
theorem Mirror.unlink (hm : Mirror loose look log origin) {mid next : TID} {mv : TupleVersion} (ha : look a = some old)
    (hold : old.nextTid = some mid) (hmid : look mid = some mv) (hnext : mv.nextTid = some next)
    (hnm : next ≠ mid) (hl : loose { old with nextTid := some next })
    (huniq : ∀ c v, look c = some v → v.nextTid = some mid → c = a) :
    Mirror loose (Function.update (Function.update look a (some { old with nextTid := some next })) mid none) log
      origin := by
  have ha' : look a ≠ none := by rw [ha]; simp
  have hval : ∀ c v, Function.update (Function.update look a (some { old with nextTid := some next })) mid none c = some v →
      c ≠ mid ∧ ((c = a ∧ v = { old with nextTid := some next }) ∨ (c ≠ a ∧ look c = some v)) := by
    intro c v hc
    by_cases hcm : c = mid
    · subst hcm; rw [Function.update_self] at hc; cases hc
    · rw [Function.update_of_ne hcm] at hc
      by_cases hca : c = a
      · subst hca; rw [Function.update_self] at hc; cases hc; exact ⟨hcm, Or.inl ⟨rfl, rfl⟩⟩
      · rw [Function.update_of_ne hca] at hc; exact ⟨hcm, Or.inr ⟨hca, hc⟩⟩
  have hsome : ∀ {c}, look c ≠ none → c ≠ mid →
      Function.update (Function.update look a (some { old with nextTid := some next })) mid none c ≠ none := by
    intro c hc hcm
    rw [Function.update_of_ne hcm]
    by_cases hca : c = a
    · subst hca; rw [Function.update_self]; simp
    · rw [Function.update_of_ne hca]; exact hc
  have hback : ∀ {c}, Function.update (Function.update look a (some { old with nextTid := some next })) mid none c ≠ none →
      look c ≠ none ∧ c ≠ mid := by
    intro c hc
    obtain ⟨v, hv⟩ := Option.ne_none_iff_exists'.1 hc
    obtain ⟨hcm, ⟨rfl, -⟩ | ⟨-, h⟩⟩ := hval c v hv
    · exact ⟨ha', hcm⟩
    · exact ⟨by rw [h]; simp, hcm⟩
  have hgone : ∀ k, Gone look origin k → Gone
      (Function.update (Function.update look a (some { old with nextTid := some next })) mid none) origin k :=
    fun k hg c hc => hg c (hback hc).1
  obtain ⟨-, hs₁⟩ := hm.named a old mid ha hold
  obtain ⟨hnx, hs₂⟩ := hm.named mid mv next hmid hnext
  refine ⟨fun c v hc => ?_, fun c d hc hd => hm.inj c d (hback hc).1 (hback hd).1, fun c v d hc hn => ?_,
    fun c v hc hn => ?_, fun c v d hc hlv hn => ?_⟩
  · obtain ⟨-, ⟨rfl, rfl⟩ | ⟨-, h⟩⟩ := hval c v hc
    · have h := hm.carries c old ha
      exact ⟨h.made, h.deleted, h.kept⟩
    · exact hm.carries c v h
  · obtain ⟨-, ⟨rfl, rfl⟩ | ⟨hca, h⟩⟩ := hval c v hc
    · cases hn
      refine ⟨hsome hnx hnm, ?_⟩
      refine Succs.trans (hs₁.mono (fun _ _ _ _ h => h) (fun k _ => hgone k)) (fun e he heq => ?_)
        (hs₂.mono (fun _ _ _ _ h => h) (fun k _ => hgone k))
      exact (hback he).2 (hm.inj e mid (hback he).1 (by rw [hmid]; simp) heq)
    · obtain ⟨hd, hs⟩ := hm.named c v d h hn
      exact ⟨hsome hd (fun he => hca (huniq c v h (he ▸ hn))), hs.mono (fun _ _ _ _ h => h) (fun k _ => hgone k)⟩
  · obtain ⟨-, ⟨rfl, rfl⟩ | ⟨-, h⟩⟩ := hval c v hc
    · cases hn
    · exact hm.plain c v h hn
  · obtain ⟨-, ⟨rfl, rfl⟩ | ⟨-, h⟩⟩ := hval c v hc
    · exact absurd hl hlv
    · exact hm.exact c v d h hlv hn

end Mutations
end MiniPostgres
