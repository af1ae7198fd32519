import Mathlib
/-!
# History — the writes of a multi-version store

A history is the list of version writes in the order they were made; a version is named by the position of the write that
created it.  A write starts a row (no target) or writes over one version of a row: with a value it creates the next
version, without one it deletes the row.

`last_of_open` is the law of the module: among the writers that a reader counts, if none writes over a version another
one wrote over and each writes over counted versions only, the counted version nobody counted wrote over is the row's
last counted write.  So the one version a reader finds open holds the row's value in the database of the counted
writes (`database_of_last`).
-/
namespace History

variable {τ ν : Type}

structure Write (τ ν : Type) where
  writer : τ
  row    : Nat
  target : Option Nat
  value  : Option ν
  deriving DecidableEq, Repr

abbrev Log (τ ν : Type) := List (Write τ ν)

/-- A write starts its own row, or writes over an earlier version of its row. -/
structure WF (log : Log τ ν) : Prop where
  starts : ∀ (j : Nat) (w : Write τ ν), log[j]? = some w → w.target = none → w.row = j ∧ w.value ≠ none
  writes : ∀ (j : Nat) (w : Write τ ν) (i : Nat), log[j]? = some w → w.target = some i →
    i < j ∧ ∃ u, log[i]? = some u ∧ u.value ≠ none ∧ u.row = w.row

/-- A version is written over again only when the writer before is out. -/
def Serial (out : τ → Prop) (log : Log τ ν) : Prop :=
  ∀ (j k : Nat) (w u : Write τ ν) (i : Nat), j < k → log[j]? = some w → log[k]? = some u → w.target = some i →
    u.target = some i → out w.writer

/-- A counted write of the row writes over a counted version. -/
def Closed (counted : τ → Prop) (log : Log τ ν) (row : Nat) : Prop :=
  ∀ (j : Nat) (w : Write τ ν) (i : Nat) (u : Write τ ν), log[j]? = some w → counted w.writer → w.row = row →
    w.target = some i → log[i]? = some u →
    counted u.writer

/-- Write `i` is a counted version of the row that no counted write is over. -/
structure Open (counted : τ → Prop) (log : Log τ ν) (row i : Nat) (w : Write τ ν) : Prop where
  get   : log[i]? = some w
  mine  : counted w.writer
  inRow : w.row = row
  value : w.value ≠ none
  free  : ∀ (k : Nat) (u : Write τ ν), log[k]? = some u → counted u.writer → u.target ≠ some i

/-- Write `i` is the row's last counted write. -/
structure Last (counted : τ → Prop) (log : Log τ ν) (row i : Nat) (w : Write τ ν) : Prop where
  get   : log[i]? = some w
  mine  : counted w.writer
  inRow : w.row = row
  last  : ∀ (j : Nat) (u : Write τ ν), log[j]? = some u → counted u.writer → u.row = row → j ≤ i

/-- The database after the counted writes, in order. -/
def database (counted : τ → Bool) (log : Log τ ν) : Nat → Option ν :=
  log.foldl (fun db w => if counted w.writer then Function.update db w.row w.value else db) (fun _ => none)

/-! ## Growing a history -/

theorem getElem?_concat {log : Log τ ν} {w u : Write τ ν} {j : Nat} :
    (log ++ [w])[j]? = some u ↔ log[j]? = some u ∨ (j = log.length ∧ u = w) := by
  by_cases hj : j < log.length
  · rw [List.getElem?_append_left hj]
    constructor
    · exact Or.inl
    · rintro (h | ⟨h, -⟩)
      · exact h
      · omega
  · rw [List.getElem?_eq_none (l := log) (by omega)]
    by_cases hj' : j = log.length
    · subst hj'
      simp only [List.getElem?_concat_length, Option.some.injEq, reduceCtorEq, true_and, false_or]
      exact eq_comm
    · rw [List.getElem?_eq_none (by simp; omega)]
      simp [hj']

theorem lt_of_getElem? {log : Log τ ν} {w : Write τ ν} {j : Nat} (h : log[j]? = some w) : j < log.length := by
  by_contra hge
  rw [List.getElem?_eq_none (by omega)] at h
  cases h

theorem WF.nil : WF ([] : Log τ ν) := ⟨by simp, by simp⟩

theorem WF.concat_start {log : Log τ ν} (h : WF log) (x : τ) (v : ν) :
    WF (log ++ [⟨x, log.length, none, some v⟩]) := by
  refine ⟨fun j w hj ht => ?_, fun j w i hj ht => ?_⟩
  · rcases getElem?_concat.1 hj with hj | ⟨rfl, rfl⟩
    · exact h.starts j w hj ht
    · exact ⟨rfl, by simp⟩
  · rcases getElem?_concat.1 hj with hj | ⟨rfl, rfl⟩
    · obtain ⟨hlt, u, hu, hv, hr⟩ := h.writes j w i hj ht
      exact ⟨hlt, u, getElem?_concat.2 (Or.inl hu), hv, hr⟩
    · cases ht

theorem WF.concat_write {log : Log τ ν} (h : WF log) {i : Nat} {u : Write τ ν} (hu : log[i]? = some u)
    (hv : u.value ≠ none) (x : τ) (v : Option ν) : WF (log ++ [⟨x, u.row, some i, v⟩]) := by
  refine ⟨fun j w hj ht => ?_, fun j w k hj ht => ?_⟩
  · rcases getElem?_concat.1 hj with hj | ⟨rfl, rfl⟩
    · exact h.starts j w hj ht
    · cases ht
  · rcases getElem?_concat.1 hj with hj | ⟨rfl, rfl⟩
    · obtain ⟨hlt, u', hu', hv', hr⟩ := h.writes j w k hj ht
      exact ⟨hlt, u', getElem?_concat.2 (Or.inl hu'), hv', hr⟩
    · cases ht
      exact ⟨lt_of_getElem? hu, u, getElem?_concat.2 (Or.inl hu), hv, rfl⟩

theorem Serial.concat {out : τ → Prop} {log : Log τ ν} (h : Serial out log) {w : Write τ ν}
    (hw : ∀ (j : Nat) (u : Write τ ν) (i : Nat), w.target = some i → log[j]? = some u → u.target = some i → out u.writer) :
    Serial out (log ++ [w]) := by
  intro j k a b i hjk ha hb hta htb
  rcases getElem?_concat.1 hb with hb' | ⟨rfl, rfl⟩
  · have hlt := lt_of_getElem? hb'
    rcases getElem?_concat.1 ha with ha' | ⟨rfl, -⟩
    · exact h j k a b i hjk ha' hb' hta htb
    · omega
  · rcases getElem?_concat.1 ha with ha' | ⟨rfl, -⟩
    · exact hw j a i htb ha' hta
    · omega

theorem Serial.mono {out out' : τ → Prop} {log : Log τ ν} (h : Serial out log) (hout : ∀ x, out x → out' x) :
    Serial out' log :=
  fun j k w u i hjk hw hu htw htu => hout _ (h j k w u i hjk hw hu htw htu)

/-! ## The law -/

variable {counted : τ → Prop} {log : Log τ ν} {row : Nat}

theorem WF.row_le (h : WF log) : ∀ (j : Nat) (w : Write τ ν), log[j]? = some w → w.row ≤ j := by
  intro j
  induction j using Nat.strongRecOn with
  | ind j ih =>
    intro w hw
    cases ht : w.target with
    | none => exact Nat.le_of_eq (h.starts j w hw ht).1
    | some i =>
      obtain ⟨hlt, u, hu, -, hr⟩ := h.writes j w i hw ht
      have := ih i hlt u hu
      omega

/-- **No counted write follows, below a position, a counted version that is open below it.**  The induction is on the
position: a counted write there writes over a version open below it too, and of two such versions each would follow
the other. -/
theorem no_write_after (h : WF log) (hs : Serial (fun x => ¬ counted x) log) (hc : Closed counted log row) :
    ∀ (n i : Nat) (w : Write τ ν), log[i]? = some w → counted w.writer → w.row = row → i < n →
      (∀ (k : Nat) (u : Write τ ν), k < n → log[k]? = some u → counted u.writer → u.target ≠ some i) →
      ∀ (j : Nat) (u : Write τ ν), i < j → j < n → log[j]? = some u → counted u.writer → u.row ≠ row
  | 0, i, w, _, _, _, hin, _ => by omega
  | n + 1, i, w, hw, hcw, hr, hin, hfree => by
    have ih := no_write_after h hs hc n
    intro j u hij hjn hu hcu hru
    by_cases hj : j < n
    · exact ih i w hw hcw hr (by omega) (fun k v hk => hfree k v (by omega)) j u hij hj hu hcu hru
    · obtain rfl : j = n := by omega
      cases ht : u.target with
      | none =>
        have h1 := (h.starts j u hu ht).1
        have h2 := h.row_le i w hw
        omega
      | some i' =>
        obtain ⟨hlt, u', hu', hv', hr'⟩ := h.writes j u i' hu ht
        have hcu' := hc j u i' u' hu hcu hru ht hu'
        have hne : i' ≠ i := fun he => hfree j u (by omega) hu hcu (he ▸ ht)
        have hfree' : ∀ (k : Nat) (v : Write τ ν), k < j → log[k]? = some v → counted v.writer → v.target ≠ some i' :=
          fun k v hk hv hcv htv => hs k j v u i' hk hv hu htv ht hcv
        rcases Nat.lt_or_gt_of_ne hne with hlt' | hgt'
        · exact ih i' u' hu' hcu' (by omega) (by omega) hfree' i w hlt' (by omega) hw hcw hr
        · exact ih i w hw hcw hr (by omega) (fun k v hk => hfree k v (by omega)) i' u' hgt' hlt hu' hcu' (by omega)

/-- **The counted version nobody counted wrote over is the row's last counted write.** -/
theorem last_of_open (h : WF log) (hs : Serial (fun x => ¬ counted x) log) (hc : Closed counted log row) {i : Nat}
    {w : Write τ ν} (ho : Open counted log row i w) : Last counted log row i w := by
  refine ⟨ho.get, ho.mine, ho.inRow, fun j u hu hcu hru => ?_⟩
  by_contra hlt
  exact no_write_after h hs hc log.length i w ho.get ho.mine ho.inRow (lt_of_getElem? ho.get)
    (fun k v _ => ho.free k v) j u (by omega) (lt_of_getElem? hu) hu hcu hru

/-- Counted write `j` is over version `i`. -/
def Over (counted : τ → Prop) (log : Log τ ν) (i j : Nat) : Prop :=
  ∃ w, log[j]? = some w ∧ counted w.writer ∧ w.target = some i

/-- **The counted writes of a row follow one another**: each later one is reached from each earlier one. -/
theorem over_chain (h : WF log) (hs : Serial (fun x => ¬ counted x) log) (hc : Closed counted log row) :
    ∀ (j i : Nat) (w u : Write τ ν), log[j]? = some w → counted w.writer → w.row = row → log[i]? = some u →
      counted u.writer → u.row = row → i < j → Relation.TransGen (Over counted log) i j := by
  intro j
  induction j using Nat.strongRecOn with
  | ind j ih =>
    intro i w u hw hcw hrw hu hcu hru hij
    cases ht : w.target with
    | none =>
      have h1 := (h.starts j w hw ht).1
      have h2 := h.row_le i u hu
      omega
    | some k =>
      obtain ⟨hkj, v, hv, -, hrv⟩ := h.writes j w k hw ht
      have hcv := hc j w k v hw hcw hrw ht hv
      have hover : Over counted log k j := ⟨w, hw, hcw, ht⟩
      -- nothing counted stands between `k` and `j`
      have hbetween : ¬ k < i := fun hki =>
        no_write_after h hs hc j k v hv hcv (by omega) hkj
          (fun m x hm hx hcx htx => hs m j x w k hm hx hw htx ht hcx) i u hki hij hu hcu hru
      by_cases hik : i = k
      · subst hik; exact .single hover
      · exact (ih k hkj i v u hv hcv (by omega) hu hcu hru (by omega)).tail hover

/-- **The row's last counted write, if it made a version, left it open.** -/
theorem Last.isOpen (h : WF log) {i : Nat} {w : Write τ ν} (hl : Last counted log row i w) (hv : w.value ≠ none) :
    Open counted log row i w := by
  refine ⟨hl.get, hl.mine, hl.inRow, hv, fun k u hu hcu ht => ?_⟩
  obtain ⟨hlt, u', hu', -, hr⟩ := h.writes k u i hu ht
  obtain rfl : u' = w := by rw [hl.get] at hu'; exact (Option.some.inj hu').symm
  have := hl.last k u hu hcu (hr ▸ hl.inRow)
  omega

theorem Last.unique {i j : Nat} {w u : Write τ ν} (hi : Last counted log row i w) (hj : Last counted log row j u) :
    i = j ∧ w = u := by
  have h1 := hi.last j u hj.get hj.mine hj.inRow
  have h2 := hj.last i w hi.get hi.mine hi.inRow
  obtain rfl : i = j := by omega
  have hg := hi.get
  rw [hj.get] at hg
  exact ⟨rfl, (Option.some.inj hg).symm⟩

theorem Closed.start (h : WF log) (hc : Closed counted log row) : ∀ (i : Nat) (w : Write τ ν), log[i]? = some w →
    counted w.writer → w.row = row → ∃ u, log[row]? = some u ∧ counted u.writer := by
  intro i
  induction i using Nat.strongRecOn with
  | ind i ih =>
    intro w hw hcw hr
    cases ht : w.target with
    | none =>
      have hi : i = row := (h.starts i w hw ht).1.symm.trans hr
      exact ⟨w, hi ▸ hw, hcw⟩
    | some k =>
      obtain ⟨hlt, u, hu, -, hru⟩ := h.writes i w k hw ht
      exact ih k hlt u hu (hc i w k u hw hcw hr ht hu) (hru.trans hr)

theorem Closed.back (h : WF log) (hc : Closed counted log row) {passed : τ → Prop} {i j : Nat}
    (hij : Relation.TransGen (Over passed log) i j) : ∀ {w u : Write τ ν}, log[j]? = some w → counted w.writer →
      w.row = row → log[i]? = some u → counted u.writer := by
  induction hij with
  | single hover =>
    intro w u hw hcw hr hu
    obtain ⟨w', hw', -, ht⟩ := hover
    rw [hw] at hw'
    cases hw'
    exact hc _ w _ u hw hcw hr ht hu
  | tail _ hover ih =>
    intro w u hw hcw hr hu
    obtain ⟨w', hw', -, ht⟩ := hover
    rw [hw] at hw'
    cases hw'
    obtain ⟨-, v, hv, -, hrv⟩ := h.writes _ w _ hw ht
    exact ih hv (hc _ w _ v hw hcw hr ht hv) (hrv.trans hr) hu

theorem exists_last {j : Nat} {w : Write τ ν} (hj : log[j]? = some w) (hc : counted w.writer) (hr : w.row = row) :
    ∃ i u, Last counted log row i u := by
  classical
  obtain ⟨u, hu, hcu, hru⟩ := Nat.findGreatest_spec
    (P := fun n => ∃ u, log[n]? = some u ∧ counted u.writer ∧ u.row = row) (Nat.le_of_lt (lt_of_getElem? hj))
    ⟨w, hj, hc, hr⟩
  refine ⟨_, u, hu, hcu, hru, fun k v hk hcv hrv => ?_⟩
  exact Nat.le_findGreatest (Nat.le_of_lt (lt_of_getElem? hk)) ⟨v, hk, hcv, hrv⟩

/-! ## The database of the counted writes -/

theorem database_concat (counted : τ → Bool) (log : Log τ ν) (w : Write τ ν) :
    database counted (log ++ [w]) =
      if counted w.writer then Function.update (database counted log) w.row w.value else database counted log := by
  unfold database
  rw [List.foldl_append]
  rfl

/-- **The row's last counted write gives its value.** -/
theorem database_of_last {counted : τ → Bool} {log : Log τ ν} {row i : Nat} {w : Write τ ν}
    (h : Last (fun x => counted x = true) log row i w) : database counted log row = w.value := by
  induction log using List.reverseRecOn with
  | nil => have := h.get; simp at this
  | append_singleton log u ih =>
    rw [database_concat]
    rcases getElem?_concat.1 h.get with hg | ⟨hi, rfl⟩
    · have hne : ¬ (counted u.writer = true ∧ u.row = row) := by
        rintro ⟨hc, hr⟩
        have := h.last log.length u (getElem?_concat.2 (Or.inr ⟨rfl, rfl⟩)) hc hr
        have := lt_of_getElem? hg
        omega
      have hl : Last (fun x => counted x = true) log row i w :=
        ⟨hg, h.mine, h.inRow, fun j v hj => h.last j v (getElem?_concat.2 (Or.inl hj))⟩
      split
      · rename_i hc
        rw [Function.update_of_ne (fun hr => hne ⟨hc, hr.symm⟩)]
        exact ih hl
      · exact ih hl
    · rw [if_pos h.mine, h.inRow, Function.update_self]

theorem database_none {counted : τ → Bool} {log : Log τ ν} {row : Nat}
    (h : ∀ (j : Nat) (w : Write τ ν), log[j]? = some w → counted w.writer = true → w.row ≠ row) :
    database counted log row = none := by
  induction log using List.reverseRecOn with
  | nil => rfl
  | append_singleton log u ih =>
    have ih' := ih (fun j w hj => h j w (getElem?_concat.2 (Or.inl hj)))
    rw [database_concat]
    split
    · rename_i hc
      rw [Function.update_of_ne (h log.length u (getElem?_concat.2 (Or.inr ⟨rfl, rfl⟩)) hc).symm]
      exact ih'
    · exact ih'

end History
