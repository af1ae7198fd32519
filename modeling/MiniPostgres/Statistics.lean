import MiniPostgres.Plans
import MiniPostgres.Folding
import MiniPostgres.Lib.Tally
/-!
# Statistics — what ANALYZE makes of the values it reads

`maintenance/analyze.py` and the records of `catalog/statistics.py` with their checks.  A fraction is the exact quotient of two
counts; Python rounds it to a float.  `ColumnStatistics.ExactFor` says what exact statistics are, without the code: a value is
counted with its equals, the extrema are values that no value is beyond, and the bounds are quantiles of the values that are
not among the most common ones.
-/
namespace MiniPostgres

open Groups (same)
open Operators (scalarLt)

/-! ## The records -/

structure ColumnStatistics where
  nullFraction     : ℚ
  distinctCount    : Nat
  minValue         : Scalar
  maxValue         : Scalar
  mostCommonValues : List (Scalar × ℚ)
  histogramBounds  : List Scalar

/-- The values a record of column statistics names. -/
def ColumnStatistics.values (s : ColumnStatistics) : Values :=
  (s.minValue :: s.maxValue :: (s.mostCommonValues.map Prod.fst ++ s.histogramBounds)).filter (fun v => v ≠ .null)

/-- `ColumnStatistics.__post_init__`. -/
def ColumnStatistics.check (s : ColumnStatistics) : Result ColumnStatistics :=
  if ¬(0 ≤ s.nullFraction ∧ s.nullFraction ≤ 1) then
    raise .catalogError "statistics fraction must be between zero and one"
  else if (∃ p ∈ s.mostCommonValues, p.2 ≤ 0 ∨ 1 < p.2) ∨ (s.mostCommonValues.map Prod.snd).sum > 1 + 1 / 10 ^ 12 then
    raise .catalogError "MCV frequencies must total no more than one"
  else if 1 < (s.values.map inferType).dedup.length then
    raise .catalogError "statistics values have incompatible types"
  else if ¬(s.minValue = .null ↔ s.maxValue = .null) then
    raise .catalogError "statistics extrema must both be present or absent"
  else if s.minValue ≠ .null ∧ s.maxValue ≠ .null ∧ scalarLt s.maxValue s.minValue = true then
    raise .catalogError "statistics extrema are not ordered"
  else if ∃ p ∈ s.histogramBounds.zip s.histogramBounds.tail, scalarLt p.2 p.1 = true then
    raise .catalogError "statistics histogram is not ordered"
  else .ok s

structure TableStatistics where
  tableId   : Nat
  rowCount  : Nat
  pageCount : Nat
  columns   : List (Nat × ColumnStatistics)
  stale     : Bool := false

/-- `TableStatistics.__post_init__`; the counts are naturals. -/
def TableStatistics.check (s : TableStatistics) : Result TableStatistics :=
  if s.tableId = 0 then raise .catalogError "statistics table ID must be positive" else .ok s

/-! ## The collector -/

/-- `sequence[index]`. -/
def subscript {α : Type} (sequence : List α) (index : Nat) : Result α :=
  match sequence[index]? with
  | some a => .ok a
  | none   => raise .indexError "tuple index out of range"

/-- `sorted`, which compares with `<` and is stable. -/
def sortedValues (values : Values) : Values := values.insertionSort (fun a b => scalarLt b a = false)

/-- The cut points of a sorted list; `sort` and the empty list are the caller's. -/
def equiDepthBounds (values : Values) (bucketCount : Nat) : Result Values :=
  if bucketCount = 0 then raise .valueError "bucket_count must be positive"
  else
    let ordered := sortedValues values
    if ordered.length ≤ 1 then .ok ordered
    else
      let buckets := min bucketCount (ordered.length - 1)
      (List.range (buckets + 1)).mapM (fun index => subscript ordered (index * (ordered.length - 1) / buckets))

/-- `Counter(values).items()`: the first of each group of equal values, and the size of the group. -/
def counter (values : Values) : List (Scalar × Nat) :=
  (values.foldl (fun groups v => Groups.put (same Scalar.canon) v groups) []).map (fun g => (g.1, g.2.length))

/-- Bytes compare as numbers. -/
def Key.below (a b : Key) : Prop := a.map UInt8.toNat < b.map UInt8.toNat

instance (a b : Key) : Decidable (a.below b) := inferInstanceAs (Decidable (_ < _))

/-- `<` on two keys `(-count, codec.encode((value,)))`. -/
def rankBelow (a b : (Scalar × Nat) × Key) : Prop := b.1.2 < a.1.2 ∨ (a.1.2 = b.1.2 ∧ a.2.below b.2)

instance (a b : (Scalar × Nat) × Key) : Decidable (rankBelow a b) := inferInstanceAs (Decidable (_ ∨ _))

/-- The counts, most first; a value the key codec refuses raises. -/
def ranked (dataType : DataType) (counts : List (Scalar × Nat)) : Result (List (Scalar × Nat)) := do
  let keyed ← counts.mapM (fun item => do let key ← KeyCodec.encode [dataType] [item.1]; .ok (item, key))
  .ok ((keyed.insertionSort (fun a b => ¬rankBelow b a)).map Prod.fst)

def mcvLimit : Nat := 10
def histogramBuckets : Nat := 10

/-- The body of the loop over the columns. -/
def analyzeColumn (dataType : DataType) (values : Values) : Result ColumnStatistics :=
  let nonNull := values.filter (fun v => v ≠ .null)
  let nullFraction : ℚ := if values.length ≠ 0 then ((values.length - nonNull.length : Nat) : ℚ) / values.length else 0
  if nonNull = [] then ColumnStatistics.check ⟨nullFraction, 0, .null, .null, [], []⟩
  else do
    let counts := counter nonNull
    let ranks ← ranked dataType counts
    let common := ranks.take mcvLimit
    let histogramValues := nonNull.filter (fun v => ¬∃ p ∈ common, same Scalar.canon p.1 v = true)
    let ordered := sortedValues nonNull
    let bounds ← equiDepthBounds histogramValues histogramBuckets
    ColumnStatistics.check ⟨nullFraction, counts.length, ordered.headD .null, ordered.getLastD .null,
      common.map (fun p => (p.1, (p.2 : ℚ) / values.length)), bounds⟩

def analyzeTable (tableId : Nat) (columns : List Column) (rows : List Values) (pageCount : Nat) : Result TableStatistics := do
  let statistics ← columns.zipIdx.mapM (fun column => do
    let values ← rows.mapM (fun row => subscript row column.2)
    let s ← analyzeColumn column.1.dataType values
    .ok (column.2, s))
  TableStatistics.check ⟨tableId, rows.length, pageCount, statistics, false⟩

/-! ## Exact statistics -/

/-- How many of the values equal `v`. -/
def occurrences (values : Values) (v : Scalar) : Nat := values.countP (same Scalar.canon v)

/-- `m` is one of the values, no null, and no other is beyond it; without values that are not null it is null. -/
def Extremum (beyond : Scalar → Scalar → Bool) (values : Values) (m : Scalar) : Prop :=
  (m = .null ∧ ∀ v ∈ values, v = .null) ∨
    (m ∈ values ∧ m ≠ .null ∧ ∀ v ∈ values, v ≠ .null → beyond v m = false)

/-- **Exact statistics** of a column with these values. -/
structure ColumnStatistics.ExactFor (s : ColumnStatistics) (values : Values) : Prop where
  nullFraction  : s.nullFraction = (values.count .null : ℚ) / values.length
  distinctCount : s.distinctCount = (((values.filter (fun v => v ≠ .null)).map Scalar.canon).dedup).length
  minimum       : Extremum scalarLt values s.minValue
  maximum       : Extremum (fun v m => scalarLt m v) values s.maxValue
  commonSize    : s.mostCommonValues.length = min mcvLimit s.distinctCount
  commonApart   : (s.mostCommonValues.map (fun p => p.1.canon)).Nodup
  frequencies   : ∀ p ∈ s.mostCommonValues, p.1 ∈ values ∧ p.1 ≠ .null ∧
    p.2 = (occurrences values p.1 : ℚ) / values.length
  commonOrder   : s.mostCommonValues.Pairwise (fun p q => q.2 ≤ p.2)
  mostCommon    : ∀ p ∈ s.mostCommonValues, ∀ v ∈ values, v ≠ .null →
    (∀ q ∈ s.mostCommonValues, same Scalar.canon q.1 v = false) → occurrences values v ≤ occurrences values p.1
  histogram     : ∃ ordered : Values,
    ordered.Perm (values.filter (fun v => v ≠ .null ∧ ∀ p ∈ s.mostCommonValues, same Scalar.canon p.1 v = false)) ∧
    ordered.Pairwise (fun a b => scalarLt b a = false) ∧ List.QuantilesOf histogramBuckets ordered s.histogramBounds

/-- Exact statistics of a table with these rows. -/
structure TableStatistics.ExactFor (s : TableStatistics) (columns : List Column) (rows : List Values) : Prop where
  rowCount  : s.rowCount = rows.length
  columnIds : s.columns.map Prod.fst = List.range columns.length
  exact     : ∀ c ∈ s.columns, c.2.ExactFor (rows.map (fun row => row.getD c.1 .null))

/-! ## The order of the values of one type -/

theorem scalarLt_asymm {a b : Scalar} (h : scalarLt a b = true) : scalarLt b a = false := by
  cases a <;> cases b <;> simp_all [scalarLt, floatLt]
  · omega
  · omega
  · exact le_of_lt h

/-- The key codec of one column accepts the value. -/
def Keyable (d : DataType) (v : Scalar) : Prop := ∃ key, KeyCodec.encode [d] [v] = .ok key

theorem keyCodec_single (d : DataType) (v : Scalar) :
    KeyCodec.encode [d] [v] = (do let bytes ← encodeComponent d v; .ok (bytes ++ [])) := rfl

theorem Keyable.component {d : DataType} {v : Scalar} (h : Keyable d v) : ∃ bytes, encodeComponent d v = .ok bytes := by
  obtain ⟨key, hk⟩ := h
  rw [keyCodec_single] at hk
  obtain ⟨bytes, hb, -⟩ := bind_eq_ok.1 hk
  exact ⟨bytes, hb⟩

/-- **What the codec accepts** is a value of the column's type that is no NaN. -/
theorem Keyable.shape {d : DataType} {v : Scalar} (h : Keyable d v) : inferType v = some d ∧ v.isNanValue = false := by
  obtain ⟨bytes, hb⟩ := h.component
  cases v with
  | null => exact absurd hb raise_ne_ok
  | int n => cases d <;> first | exact ⟨rfl, rfl⟩ | exact absurd hb raise_ne_ok
  | float b =>
    cases d <;> try exact absurd hb raise_ne_ok
    simp only [encodeComponent] at hb
    split at hb
    · exact absurd hb raise_ne_ok
    · rename_i hn
      exact ⟨rfl, by simpa [Scalar.isNanValue] using hn⟩
  | bool b => cases d <;> first | exact ⟨rfl, rfl⟩ | exact absurd hb raise_ne_ok
  | text s => cases d <;> first | exact ⟨rfl, rfl⟩ | exact absurd hb raise_ne_ok

theorem Keyable.ne_null {d : DataType} {v : Scalar} (h : Keyable d v) : v ≠ .null := by
  rintro rfl
  exact absurd h.shape.1 (by simp [inferType])

theorem floatLt_eq_false {a b : BitVec 64} (ha : isNan a = false) (hb : isNan b = false) :
    floatLt b a = false ↔ floatPlace a ≤ floatPlace b := by
  simp [floatLt, ha, hb]

theorem inferType_int64 {v : Scalar} (h : inferType v = some .int64) : ∃ n, v = .int n := by
  cases v <;> first | exact ⟨_, rfl⟩ | cases h

theorem inferType_float64 {v : Scalar} (h : inferType v = some .float64) : ∃ b, v = .float b := by
  cases v <;> first | exact ⟨_, rfl⟩ | cases h

theorem inferType_boolean {v : Scalar} (h : inferType v = some .boolean) : ∃ b, v = .bool b := by
  cases v <;> first | exact ⟨_, rfl⟩ | cases h

theorem inferType_text {v : Scalar} (h : inferType v = some .text) : ∃ t, v = .text t := by
  cases v <;> first | exact ⟨_, rfl⟩ | cases h

theorem scalarLe_trans {d : DataType} {a b c : Scalar} (ha : Keyable d a) (hb : Keyable d b) (hc : Keyable d c)
    (hab : scalarLt b a = false) (hbc : scalarLt c b = false) : scalarLt c a = false := by
  obtain ⟨ta, na⟩ := ha.shape
  obtain ⟨tb, nb⟩ := hb.shape
  obtain ⟨tc, nc⟩ := hc.shape
  cases d with
  | int64 =>
    obtain ⟨x, rfl⟩ := inferType_int64 ta
    obtain ⟨y, rfl⟩ := inferType_int64 tb
    obtain ⟨z, rfl⟩ := inferType_int64 tc
    simp only [scalarLt, decide_eq_false_iff_not] at hab hbc ⊢
    omega
  | float64 =>
    obtain ⟨x, rfl⟩ := inferType_float64 ta
    obtain ⟨y, rfl⟩ := inferType_float64 tb
    obtain ⟨z, rfl⟩ := inferType_float64 tc
    exact (floatLt_eq_false na nc).2 (le_trans ((floatLt_eq_false na nb).1 hab) ((floatLt_eq_false nb nc).1 hbc))
  | boolean =>
    obtain ⟨x, rfl⟩ := inferType_boolean ta
    obtain ⟨y, rfl⟩ := inferType_boolean tb
    obtain ⟨z, rfl⟩ := inferType_boolean tc
    cases x <;> cases y <;> cases z <;> simp_all [scalarLt]
  | text =>
    obtain ⟨x, rfl⟩ := inferType_text ta
    obtain ⟨y, rfl⟩ := inferType_text tb
    obtain ⟨z, rfl⟩ := inferType_text tc
    simp only [scalarLt, decide_eq_false_iff_not, not_lt] at hab hbc ⊢
    exact le_trans hab hbc

/-! ## Sorting and quantiles -/

theorem sortedValues_perm (values : Values) : (sortedValues values).Perm values := List.perm_insertionSort _ _

/-- **Values of one type come out in order.** -/
theorem sortedValues_pairwise {d : DataType} {values : Values} (h : ∀ v ∈ values, Keyable d v) :
    (sortedValues values).Pairwise (fun a b => scalarLt b a = false) := by
  refine List.pairwise_insertionSort_of (P := Keyable d) (fun a b _ _ => ?_) (fun a b c => scalarLe_trans) values h
  cases hba : scalarLt b a with
  | false => exact .inl rfl
  | true => exact .inr (scalarLt_asymm hba)

theorem mapM_returns {α β : Type} {f : α → Result β} : ∀ (l : List α), (∀ a ∈ l, ∃ b, f a = .ok b) →
    ∃ bs, l.mapM f = .ok bs ∧ List.Forall₂ (fun a b => f a = .ok b) l bs
  | [], _ => ⟨[], rfl, .nil⟩
  | a :: l, h => by
    obtain ⟨b, hb⟩ := h a List.mem_cons_self
    obtain ⟨bs, hbs, hall⟩ := mapM_returns l (fun x hx => h x (List.mem_cons_of_mem _ hx))
    refine ⟨b :: bs, ?_, .cons hb hall⟩
    rw [List.mapM_cons, hb, hbs]
    rfl

theorem mapM_returned {α β : Type} {f : α → Result β} : ∀ {l : List α} {bs : List β}, l.mapM f = .ok bs →
    List.Forall₂ (fun a b => f a = .ok b) l bs
  | [], _, h => by cases h; exact .nil
  | a :: l, bs, h => by
    rw [List.mapM_cons] at h
    obtain ⟨b, hb, h⟩ := bind_eq_ok.1 h
    obtain ⟨bs', hbs, he⟩ := bind_eq_ok.1 h
    cases he
    exact .cons hb (mapM_returned hbs)

theorem mapM_returned_mem {α β : Type} {f : α → Result β} {l : List α} {bs : List β} (h : l.mapM f = .ok bs) :
    ∀ a ∈ l, ∃ b, f a = .ok b := by
  intro a ha
  obtain ⟨i, hi, rfl⟩ := List.mem_iff_getElem.1 ha
  have hall := mapM_returned h
  exact ⟨_, hall.get hi (hall.length_eq ▸ hi)⟩

theorem subscript_eq_ok {α : Type} {l : List α} {i : Nat} {a : α} : subscript l i = .ok a ↔ l[i]? = some a := by
  unfold subscript
  split
  · rename_i x hx
    rw [hx, Except.ok.injEq, Option.some.injEq]
  · rename_i hx
    rw [hx]
    exact ⟨fun h => absurd h raise_ne_ok, fun h => by cases h⟩

/-- **The bounds are the quantiles of the sorted values.** -/
theorem equiDepthBounds_ok (values : Values) {bucketCount : Nat} (hb : bucketCount ≠ 0) :
    ∃ bounds, equiDepthBounds values bucketCount = .ok bounds ∧ List.QuantilesOf bucketCount (sortedValues values) bounds := by
  unfold equiDepthBounds
  rw [if_neg hb]
  by_cases h1 : (sortedValues values).length ≤ 1
  · refine ⟨sortedValues values, if_pos h1, by omega, fun i hi => ?_⟩
    have hi0 : i = 0 := by omega
    rw [hi0, Nat.zero_mul, Nat.zero_div]
  · generalize hl : sortedValues values = ordered at h1 ⊢
    simp only [if_neg h1]
    have hin : ∀ index ∈ List.range (min bucketCount (ordered.length - 1) + 1),
        ∃ v, subscript ordered (index * (ordered.length - 1) / min bucketCount (ordered.length - 1)) = .ok v := by
      intro index hi
      have hi := List.mem_range.1 hi
      have hle : index * (ordered.length - 1) / min bucketCount (ordered.length - 1) ≤ ordered.length - 1 :=
        (Nat.div_le_div_right (Nat.mul_le_mul_right _ (Nat.le_of_lt_succ hi))).trans
          (Nat.mul_div_cancel_left _ (by omega)).le
      exact ⟨_, subscript_eq_ok.2 (List.getElem?_eq_getElem (by omega))⟩
    obtain ⟨bounds, hbounds, hall⟩ := mapM_returns _ hin
    have hlen : bounds.length = min bucketCount (ordered.length - 1) + 1 := by
      rw [← hall.length_eq, List.length_range]
    refine ⟨bounds, hbounds, by omega, fun i hi => ?_⟩
    have hget := List.Forall₂.get hall (by rw [List.length_range]; omega) hi
    rw [subscript_eq_ok, List.get_eq_getElem, List.getElem_range] at hget
    rw [List.getElem?_eq_getElem hi, show bounds.length - 1 = min bucketCount (ordered.length - 1) by omega, hget,
      List.get_eq_getElem]

theorem QuantilesOf.adjacent {buckets : Nat} {ordered bounds : Values} (h : List.QuantilesOf buckets ordered bounds)
    (hs : ordered.Pairwise (fun a b => scalarLt b a = false)) : ∀ p ∈ bounds.zip bounds.tail, scalarLt p.2 p.1 = false := by
  intro p hp
  obtain ⟨i, hi, rfl⟩ := List.mem_iff_getElem.1 hp
  rw [List.length_zip, List.length_tail] at hi
  have h0 := h.2 i (by omega)
  have h1 := h.2 (i + 1) (by omega)
  rw [List.getElem?_eq_getElem (by omega)] at h0 h1
  obtain ⟨hj, hj'⟩ := List.getElem?_eq_some_iff.1 h0.symm
  obtain ⟨hk, hk'⟩ := List.getElem?_eq_some_iff.1 h1.symm
  rw [List.getElem_zip, List.getElem_tail]
  have hle : i * (ordered.length - 1) / (bounds.length - 1) ≤ (i + 1) * (ordered.length - 1) / (bounds.length - 1) :=
    Nat.div_le_div_right (Nat.mul_le_mul_right _ (Nat.le_succ i))
  simp only [← hj', ← hk']
  rcases Nat.eq_or_lt_of_le hle with heq | hlt
  · simp only [heq]
    cases hv : scalarLt _ _ with
    | false => rfl
    | true => exact absurd (scalarLt_asymm hv) (by rw [hv]; simp)
  · exact List.pairwise_iff_getElem.1 hs _ _ hj hk hlt

theorem QuantilesOf.mem {α : Type} {buckets : Nat} {ordered bounds : List α} (h : List.QuantilesOf buckets ordered bounds) :
    ∀ v ∈ bounds, v ∈ ordered := by
  intro v hv
  obtain ⟨i, hi, rfl⟩ := List.mem_iff_getElem.1 hv
  have h0 := h.2 i hi
  rw [List.getElem?_eq_getElem hi] at h0
  exact List.mem_of_getElem? h0.symm

/-! ## Counting -/

theorem counter_eq (values : Values) :
    counter values = (Groups.firstGroups (same Scalar.canon) values).map (fun g => (g.1, g.2.length)) := by
  unfold counter
  rw [Groups.foldl_put]

theorem mem_counter {values : Values} {p : Scalar × Nat} (h : p ∈ counter values) :
    p.1 ∈ values ∧ p.2 = occurrences values p.1 := by
  rw [counter_eq] at h
  obtain ⟨g, hg, rfl⟩ := List.mem_map.1 h
  obtain ⟨hmem, hgroup⟩ := Groups.mem_firstGroups_same Scalar.canon values.length values le_rfl g hg
  refine ⟨hmem, ?_⟩
  simp only [occurrences, List.countP_eq_length_filter]
  rw [hgroup]

theorem exists_counter {values : Values} {v : Scalar} (h : v ∈ values) : ∃ p ∈ counter values, p.1.canon = v.canon := by
  obtain ⟨g, hg, hgv⟩ := Groups.exists_firstGroup Scalar.canon values.length values le_rfl v h
  rw [counter_eq]
  exact ⟨_, List.mem_map.2 ⟨g, hg, rfl⟩, hgv⟩

theorem counter_apart (values : Values) : ((counter values).map (fun p => p.1.canon)).Nodup := by
  rw [counter_eq, List.map_map]
  exact Groups.nodup_firstGroups Scalar.canon values.length values le_rfl

theorem sum_counter (values : Values) : ((counter values).map Prod.snd).sum = values.length := by
  rw [counter_eq, List.map_map]
  exact Groups.sum_firstGroups (same Scalar.canon) values.length values le_rfl (fun a => decide_eq_true rfl)

theorem length_counter (values : Values) : (counter values).length = ((values.map Scalar.canon).dedup).length := by
  rw [counter_eq, List.length_map, Groups.length_firstGroups]

/-! ## Ranking -/

/-- **The counts are ranked** when the codec accepts every counted value: all of them are there, most first. -/
theorem ranked_ok {d : DataType} {counts : List (Scalar × Nat)} (h : ∀ p ∈ counts, Keyable d p.1) :
    ∃ ranks, ranked d counts = .ok ranks ∧ ranks.Perm counts ∧ ranks.Pairwise (fun p q => q.2 ≤ p.2) := by
  have hkey : ∀ p ∈ counts, ∃ b : (Scalar × Nat) × Key,
      (do let key ← KeyCodec.encode [d] [p.1]; Except.ok (p, key) : Result ((Scalar × Nat) × Key)) = .ok b := by
    intro p hp
    obtain ⟨key, hk⟩ := h p hp
    exact ⟨(p, key), by rw [hk]; rfl⟩
  obtain ⟨keyed, hkeyed, hall⟩ := mapM_returns counts hkey
  have hfst : keyed.map Prod.fst = counts := by
    refine (List.forall₂_eq_eq_eq ▸ List.forall₂_map_left_iff.2 (hall.flip.imp (fun b p hb => ?_)) : _)
    obtain ⟨key, -, he⟩ := bind_eq_ok.1 hb
    cases he
    rfl
  have hperm := List.perm_insertionSort (fun a b => ¬rankBelow b a) keyed
  have hsorted : (keyed.insertionSort (fun a b => ¬rankBelow b a)).Pairwise (fun a b => ¬rankBelow b a) := by
    refine List.pairwise_insertionSort_of (P := fun _ => True) (fun a b _ _ => ?_) (fun a b c _ _ _ hab hbc => ?_) keyed
      (fun _ _ => trivial)
    · by_cases hba : rankBelow b a
      · refine .inr (fun hab => ?_)
        rcases hba with hlt | ⟨heq, hlt⟩ <;> rcases hab with hlt' | ⟨heq', hlt'⟩
        · omega
        · omega
        · omega
        · exact lt_asymm hlt hlt'
      · exact .inl hba
    · rintro (hlt | ⟨heq, hlt⟩)
      · refine hab (.inl ?_)
        by_contra hge
        exact hbc (.inl (by omega))
      · rcases Nat.lt_trichotomy a.1.2 b.1.2 with h1 | h1 | h1
        · exact hab (.inl h1)
        · rcases lt_trichotomy (b.2.map UInt8.toNat) (a.2.map UInt8.toNat) with h2 | h2 | h2
          · exact hab (.inr ⟨h1.symm, h2⟩)
          · exact hbc (.inr ⟨by omega, by unfold Key.below; rw [h2]; exact hlt⟩)
          · exact hbc (.inr ⟨by omega, lt_trans hlt h2⟩)
        · exact hbc (.inl (by omega))
  refine ⟨_, by unfold ranked; rw [hkeyed]; rfl, hfst ▸ hperm.map _, ?_⟩
  rw [List.pairwise_map]
  exact hsorted.imp (fun {p q} hpq => Nat.le_of_not_lt (fun hlt => hpq (.inl hlt)))

theorem ranked_keyable {d : DataType} {counts ranks : List (Scalar × Nat)} (h : ranked d counts = .ok ranks) :
    ∀ p ∈ counts, Keyable d p.1 := by
  obtain ⟨keyed, hkeyed, -⟩ := bind_eq_ok.1 h
  intro p hp
  obtain ⟨b, hb⟩ := mapM_returned_mem hkeyed p hp
  obtain ⟨key, hkey, -⟩ := bind_eq_ok.1 hb
  exact ⟨key, hkey⟩

/-! ## One column -/

/-- **The checks of a record** that is in order. -/
theorem ColumnStatistics.check_ok {d : DataType} {s : ColumnStatistics} (hnull : 0 ≤ s.nullFraction ∧ s.nullFraction ≤ 1)
    (hfreq : ∀ p ∈ s.mostCommonValues, 0 < p.2 ∧ p.2 ≤ 1) (hsum : (s.mostCommonValues.map Prod.snd).sum ≤ 1)
    (htypes : ∀ v ∈ s.values, inferType v = some d) (hboth : s.minValue = .null ↔ s.maxValue = .null)
    (hextrema : scalarLt s.maxValue s.minValue = false)
    (hbounds : ∀ p ∈ s.histogramBounds.zip s.histogramBounds.tail, scalarLt p.2 p.1 = false) : s.check = .ok s := by
  unfold ColumnStatistics.check
  have hone : (s.values.map inferType).dedup.length ≤ 1 := by
    have hsub : (s.values.map inferType).dedup ⊆ [some d] := by
      intro t ht
      obtain ⟨v, hv, rfl⟩ := List.mem_map.1 (List.mem_dedup.1 ht)
      rw [htypes v hv]
      exact List.mem_singleton.2 rfl
    exact ((List.nodup_dedup _).subperm hsub).length_le
  rw [if_neg (not_not.2 hnull), if_neg, if_neg (Nat.not_lt.2 hone), if_neg (not_not.2 hboth), if_neg, if_neg]
  · rintro ⟨p, hp, hlt⟩
    rw [hbounds p hp] at hlt
    cases hlt
  · rintro ⟨-, -, hlt⟩
    rw [hextrema] at hlt
    cases hlt
  · rintro (⟨p, hp, hle | hlt⟩ | hlt)
    · exact absurd (hfreq p hp).1 (not_lt.2 hle)
    · exact absurd (hfreq p hp).2 (not_le.2 hlt)
    · have hsmall : (1 : ℚ) < 1 + 1 / 10 ^ 12 := by norm_num
      exact absurd (hsum.trans_lt hsmall) (not_lt.2 hlt.le)

theorem length_eq_count_null (values : Values) :
    values.length = values.count .null + (values.filter (fun v => v ≠ .null)).length := by
  induction values with
  | nil => rfl
  | cons v vs ih =>
    by_cases hv : v = .null
    · subst hv
      rw [List.count_cons_self, List.length_cons, ih, List.filter_cons_of_neg (by simp)]
      omega
    · rw [List.count_cons_of_ne hv, List.length_cons, ih, List.filter_cons_of_pos (by simpa using hv), List.length_cons]
      omega

theorem occurrences_nonNull {values : Values} {v : Scalar} (hv : v ≠ .null) :
    occurrences (values.filter (fun v => v ≠ .null)) v = occurrences values v := by
  unfold occurrences
  rw [List.countP_filter]
  refine List.countP_congr (fun w _ => ?_)
  by_cases hw : w = .null
  · subst hw
    have : same Scalar.canon v .null = false := by
      simp only [same, decide_eq_false_iff_not]
      exact fun h => hv (Scalar.canon_eq_null.1 h)
    simp [this]
  · simp [hw]

theorem Extremum.of_sorted {values ordered : Values} (hperm : ordered.Perm (values.filter (fun v => v ≠ .null)))
    (hs : ordered.Pairwise (fun a b => scalarLt b a = false)) (hne : ordered ≠ []) :
    Extremum scalarLt values (ordered.headD .null) ∧ Extremum (fun v m => scalarLt m v) values (ordered.getLastD .null) := by
  have hirr : ∀ v, scalarLt v v = false := fun v => by
    cases h : scalarLt v v with
    | false => rfl
    | true => rw [← h]; exact scalarLt_asymm h
  have hmem : ∀ v ∈ ordered, v ∈ values ∧ v ≠ .null := fun v hv => by
    simpa using List.mem_filter.1 (hperm.mem_iff.1 hv)
  have hin : ∀ v ∈ values, v ≠ .null → v ∈ ordered := fun v hv hn =>
    hperm.mem_iff.2 (List.mem_filter.2 ⟨hv, by simpa using hn⟩)
  constructor
  · cases ordered with
    | nil => exact absurd rfl hne
    | cons a l =>
      refine .inr ⟨(hmem a List.mem_cons_self).1, (hmem a List.mem_cons_self).2, fun v hv hn => ?_⟩
      rcases List.mem_cons.1 (hin v hv hn) with rfl | hl
      · exact hirr v
      · exact List.rel_of_pairwise_cons hs hl
  · rw [List.getLastD_eq_getLast?, List.getLast?_eq_some_getLast hne, Option.getD_some]
    have hlast := List.getLast_mem hne
    refine .inr ⟨(hmem _ hlast).1, (hmem _ hlast).2, fun v hv hn => ?_⟩
    have hsplit := List.dropLast_append_getLast hne
    have hv' := hin v hv hn
    rw [← hsplit] at hv' hs
    rcases List.mem_append.1 hv' with hd | hd
    · exact (List.pairwise_append.1 hs).2.2 v hd _ (List.mem_singleton.2 rfl)
    · rw [List.mem_singleton.1 hd]
      exact hirr _

theorem Extremum.ne_null {beyond : Scalar → Scalar → Bool} {values : Values} {m v : Scalar} (h : Extremum beyond values m)
    (hv : v ∈ values) (hn : v ≠ .null) : m ∈ values ∧ m ≠ .null ∧ ∀ w ∈ values, w ≠ .null → beyond w m = false :=
  h.resolve_left (fun hnull => hn (hnull.2 v hv))

theorem nullFraction_eq (values : Values) :
    (if values.length ≠ 0 then
      ((values.length - (values.filter (fun v => v ≠ .null)).length : Nat) : ℚ) / values.length else 0) =
      (values.count .null : ℚ) / values.length := by
  have hlen := length_eq_count_null values
  by_cases h0 : values.length = 0
  · rw [if_neg (not_not.2 h0), h0, Nat.cast_zero, div_zero]
  · rw [if_pos h0, show values.length - (values.filter (fun v => v ≠ .null)).length = values.count .null by omega]

theorem nullFraction_bounds (values : Values) :
    0 ≤ (values.count .null : ℚ) / values.length ∧ (values.count .null : ℚ) / values.length ≤ 1 := by
  refine ⟨by positivity, div_le_one_of_le₀ ?_ (by positivity)⟩
  exact_mod_cast List.count_le_length

theorem sum_map_div (n : Nat) : ∀ l : List (Scalar × Nat),
    ((l.map (fun p => (p.1, (p.2 : ℚ) / n))).map Prod.snd).sum = ((l.map Prod.snd).sum : ℚ) / n
  | [] => by simp
  | p :: l => by
    have ih := sum_map_div n l
    simp only [List.map_cons, List.sum_cons, Nat.cast_add, add_div] at ih ⊢
    rw [ih]

/-- **The ranked counts of the values that are not null**, and what the most common of them say. -/
structure Common (values : Values) (ranks common : List (Scalar × Nat)) : Prop where
  first   : common = ranks.take mcvLimit
  perm    : ranks.Perm (counter (values.filter (fun v => v ≠ .null)))
  ordered : ranks.Pairwise (fun p q => q.2 ≤ p.2)

namespace Common

variable {values : Values} {ranks common : List (Scalar × Nat)}

theorem counted (h : Common values ranks common) {p : Scalar × Nat} (hp : p ∈ ranks) :
    p.1 ∈ values ∧ p.1 ≠ .null ∧ p.2 = occurrences values p.1 := by
  obtain ⟨hmem, hcount⟩ := mem_counter (h.perm.mem_iff.1 hp)
  obtain ⟨hv, hn⟩ : p.1 ∈ values ∧ p.1 ≠ .null := by simpa using List.mem_filter.1 hmem
  exact ⟨hv, hn, hcount.trans (occurrences_nonNull hn)⟩

theorem mem_ranks (h : Common values ranks common) {p : Scalar × Nat} (hp : p ∈ common) : p ∈ ranks :=
  List.mem_of_mem_take (h.first ▸ hp)

theorem length (h : Common values ranks common) :
    common.length = min mcvLimit (((values.filter (fun v => v ≠ .null)).map Scalar.canon).dedup).length := by
  rw [h.first, List.length_take, h.perm.length_eq, length_counter]

theorem apart (h : Common values ranks common) : (common.map (fun p => p.1.canon)).Nodup := by
  have hranks : (ranks.map (fun p => p.1.canon)).Nodup := (h.perm.map _).nodup_iff.2 (counter_apart _)
  rw [h.first]
  exact hranks.sublist ((List.take_sublist _ _).map _)

theorem sum_le (h : Common values ranks common) : (common.map Prod.snd).sum ≤ values.length := by
  have hall : (ranks.map Prod.snd).sum = (values.filter (fun v => v ≠ .null)).length := by
    rw [(h.perm.map Prod.snd).sum_eq, sum_counter]
  have hsplit : (ranks.map Prod.snd).sum = (common.map Prod.snd).sum + ((ranks.drop mcvLimit).map Prod.snd).sum := by
    rw [h.first, ← List.sum_append, ← List.map_append, List.take_append_drop]
  have hfilter := List.length_filter_le (fun v => decide (v ≠ .null)) values
  omega

/-- **A value that is not among the most common ones occurs no more often than they do.** -/
theorem most (h : Common values ranks common) {p : Scalar × Nat} (hp : p ∈ common) {v : Scalar} (hv : v ∈ values)
    (hn : v ≠ .null) (hout : ∀ q ∈ common, same Scalar.canon q.1 v = false) :
    occurrences values v ≤ occurrences values p.1 := by
  have hvn : v ∈ values.filter (fun v => v ≠ .null) := List.mem_filter.2 ⟨hv, by simpa using hn⟩
  obtain ⟨q, hq, hqv⟩ := exists_counter hvn
  have hqr := h.perm.mem_iff.2 hq
  have hqout : q ∉ common := fun hqc => by
    have := hout q hqc
    simp [same, hqv] at this
  have hrest : q ∈ ranks.drop mcvLimit := by
    rw [← List.take_append_drop mcvLimit ranks, ← h.first] at hqr
    exact (List.mem_append.1 hqr).resolve_left hqout
  have hle : q.2 ≤ p.2 := by
    have hpair := h.ordered
    rw [← List.take_append_drop mcvLimit ranks, ← h.first] at hpair
    exact (List.pairwise_append.1 hpair).2.2 p hp q hrest
  have hsame : occurrences values q.1 = occurrences values v := by
    unfold occurrences same
    rw [hqv]
  rw [← hsame, ← (h.counted (h.perm.mem_iff.2 hq)).2.2, ← (h.counted (h.mem_ranks hp)).2.2]
  exact hle

theorem frequency (h : Common values ranks common) {p : Scalar × Nat} (hp : p ∈ common) :
    0 < (p.2 : ℚ) / values.length ∧ (p.2 : ℚ) / values.length ≤ 1 := by
  obtain ⟨hv, -, hcount⟩ := h.counted (h.mem_ranks hp)
  have hpos : 0 < p.2 := by
    rw [hcount]
    exact List.countP_pos_iff.2 ⟨p.1, hv, decide_eq_true rfl⟩
  have hle : p.2 ≤ values.length := by
    rw [hcount]
    exact List.countP_le_length
  have hlen : 0 < values.length := hpos.trans_le hle
  refine ⟨by positivity, div_le_one_of_le₀ ?_ (by positivity)⟩
  exact_mod_cast hle

end Common

theorem exactFor_nulls {values : Values} (h : ∀ v ∈ values, v = .null) :
    ColumnStatistics.ExactFor ⟨(values.count .null : ℚ) / values.length, 0, .null, .null, [], []⟩ values where
  nullFraction := rfl
  distinctCount := by rw [List.filter_eq_nil_iff.2 (fun v hv hn => by simp [h v hv] at hn)]; rfl
  minimum := .inl ⟨rfl, h⟩
  maximum := .inl ⟨rfl, h⟩
  commonSize := rfl
  commonApart := List.nodup_nil
  frequencies := fun p hp => (List.not_mem_nil hp).elim
  commonOrder := List.Pairwise.nil
  mostCommon := fun p hp => (List.not_mem_nil hp).elim
  histogram := by
    refine ⟨[], ?_, List.Pairwise.nil, rfl, fun i hi => absurd hi (Nat.not_lt_zero i)⟩
    rw [List.filter_eq_nil_iff.2 (fun v hv hn => by simp [h v hv] at hn)]

section Collected

variable {values : Values} {ranks common : List (Scalar × Nat)} {ordered rest bounds : Values}

/-- The record that the collector builds of its counts. -/
def collected (values : Values) (common : List (Scalar × Nat)) (ordered bounds : Values) : ColumnStatistics :=
  ⟨(values.count .null : ℚ) / values.length, (counter (values.filter (fun v => v ≠ .null))).length, ordered.headD .null,
    ordered.getLastD .null, common.map (fun p => (p.1, (p.2 : ℚ) / values.length)), bounds⟩

/-- The values of the histogram. -/
def uncommon (values : Values) (common : List (Scalar × Nat)) : Values :=
  (values.filter (fun v => v ≠ .null)).filter (fun v => ¬∃ p ∈ common, same Scalar.canon p.1 v = true)

theorem mem_uncommon {v : Scalar} (h : v ∈ uncommon values common) : v ∈ values ∧ v ≠ .null := by
  simpa using List.mem_filter.1 (List.mem_filter.1 h).1

/-- **The record is exact.** -/
theorem Common.exactFor (h : Common values ranks common) (hmin : Extremum scalarLt values (ordered.headD .null))
    (hmax : Extremum (fun v m => scalarLt m v) values (ordered.getLastD .null)) (hperm : rest.Perm (uncommon values common))
    (hs : rest.Pairwise (fun a b => scalarLt b a = false)) (hq : List.QuantilesOf histogramBuckets rest bounds) :
    (collected values common ordered bounds).ExactFor values where
  nullFraction := rfl
  distinctCount := length_counter _
  minimum := hmin
  maximum := hmax
  commonSize := by
    simp only [collected, List.length_map]
    rw [h.length, length_counter]
  commonApart := by
    simp only [collected, List.map_map]
    exact h.apart
  frequencies := by
    intro q hq
    obtain ⟨p, hp, rfl⟩ := List.mem_map.1 hq
    obtain ⟨hpv, hpn, hcount⟩ := h.counted (h.mem_ranks hp)
    exact ⟨hpv, hpn, by rw [hcount]⟩
  commonOrder := by
    simp only [collected, List.pairwise_map]
    have hsub : common.Sublist ranks := h.first ▸ List.take_sublist _ _
    refine (h.ordered.sublist hsub).imp (fun {p q} hpq => ?_)
    exact div_le_div_of_nonneg_right (by exact_mod_cast hpq) (by positivity)
  mostCommon := by
    intro q hq w hw hwn hout
    obtain ⟨p, hp, rfl⟩ := List.mem_map.1 hq
    exact h.most hp hw hwn (fun r hr => hout (r.1, _) (List.mem_map.2 ⟨r, hr, rfl⟩))
  histogram := by
    refine ⟨rest, hperm.trans (List.Perm.of_eq ?_), hs, hq⟩
    rw [uncommon, List.filter_filter]
    refine List.filter_congr (fun w _ => ?_)
    rw [← Bool.decide_and]
    refine decide_eq_decide.2 (and_comm.trans (and_congr_right (fun _ => ?_)))
    simp only [collected, List.mem_map, not_exists, not_and, Bool.not_eq_true, forall_exists_index, and_imp,
      forall_apply_eq_imp_iff₂]

/-- **The record passes the checks.** -/
theorem Common.check {d : DataType} (h : Common values ranks common) (hd : ∀ v ∈ values, v ≠ .null → inferType v = some d)
    (hmin : Extremum scalarLt values (ordered.headD .null))
    (hmax : Extremum (fun v m => scalarLt m v) values (ordered.getLastD .null))
    (hne : ∃ v ∈ values, v ≠ .null) (hperm : rest.Perm (uncommon values common))
    (hs : rest.Pairwise (fun a b => scalarLt b a = false)) (hq : List.QuantilesOf histogramBuckets rest bounds) :
    (collected values common ordered bounds).check = .ok (collected values common ordered bounds) := by
  obtain ⟨v, hv, hvn⟩ := hne
  obtain ⟨hminv, hminn, hminle⟩ := hmin.ne_null hv hvn
  obtain ⟨hmaxv, hmaxn, -⟩ := hmax.ne_null hv hvn
  apply ColumnStatistics.check_ok (d := d)
  · exact nullFraction_bounds values
  · intro q hq
    obtain ⟨p, hp, rfl⟩ := List.mem_map.1 hq
    exact h.frequency hp
  · simp only [collected]
    rw [sum_map_div]
    exact div_le_one_of_le₀ (by exact_mod_cast h.sum_le) (by positivity)
  · intro w hw
    have hw := (List.mem_filter.1 hw).1
    rcases List.mem_cons.1 hw with rfl | hw
    · exact hd _ hminv hminn
    · rcases List.mem_cons.1 hw with rfl | hw
      · exact hd _ hmaxv hmaxn
      · rcases List.mem_append.1 hw with hw | hw
        · simp only [collected, List.map_map] at hw
          obtain ⟨p, hp, rfl⟩ := List.mem_map.1 hw
          obtain ⟨hpv, hpn, -⟩ := h.counted (h.mem_ranks hp)
          exact hd _ hpv hpn
        · obtain ⟨hwv, hwn⟩ := mem_uncommon (hperm.mem_iff.1 (QuantilesOf.mem hq w hw))
          exact hd w hwv hwn
  · exact ⟨fun he => absurd he hminn, fun he => absurd he hmaxn⟩
  · exact hminle _ hmaxv hmaxn
  · exact QuantilesOf.adjacent hq hs

end Collected

/-- **The collector is exact** on a column whose values the key codec accepts. -/
theorem analyzeColumn_exact {d : DataType} {values : Values} (h : ∀ v ∈ values, v ≠ .null → Keyable d v) :
    ∃ s, analyzeColumn d values = .ok s ∧ s.ExactFor values := by
  unfold analyzeColumn
  simp only [nullFraction_eq]
  by_cases hnone : values.filter (fun v => v ≠ .null) = []
  · rw [if_pos hnone]
    have hcheck := ColumnStatistics.check_ok (d := d) (s := ⟨(values.count .null : ℚ) / values.length, 0, .null, .null, [], []⟩)
      (nullFraction_bounds values) (fun p hp => (List.not_mem_nil hp).elim) (by norm_num)
      (fun v hv => by simp [ColumnStatistics.values] at hv) Iff.rfl rfl (fun p hp => (List.not_mem_nil hp).elim)
    exact ⟨_, hcheck, exactFor_nulls (fun v hv => by simpa using List.filter_eq_nil_iff.1 hnone v hv)⟩
  · rw [if_neg hnone]
    have hkey : ∀ v ∈ values.filter (fun v => v ≠ .null), Keyable d v := fun v hv =>
      h v (List.mem_filter.1 hv).1 (by simpa using (List.mem_filter.1 hv).2)
    obtain ⟨ranks, hranks, hperm, hsorted⟩ := ranked_ok (fun p hp => hkey p.1 (mem_counter hp).1)
    have hc : Common values ranks (ranks.take mcvLimit) := ⟨rfl, hperm, hsorted⟩
    have hbuckets : histogramBuckets ≠ 0 := by decide
    obtain ⟨bounds, hbounds, hq⟩ := equiDepthBounds_ok (uncommon values (ranks.take mcvLimit)) hbuckets
    have hrest := sortedValues_pairwise (fun v (hv : v ∈ uncommon values (ranks.take mcvLimit)) =>
      h v (mem_uncommon hv).1 (mem_uncommon hv).2)
    have hne : sortedValues (values.filter (fun v => v ≠ .null)) ≠ [] := fun he =>
      hnone (List.eq_nil_of_length_eq_zero (by rw [← (sortedValues_perm _).length_eq, he]; rfl))
    obtain ⟨hmin, hmax⟩ := Extremum.of_sorted (sortedValues_perm _) (sortedValues_pairwise hkey) hne
    obtain ⟨v, hv⟩ := List.exists_mem_of_ne_nil _ hnone
    have hsome : ∃ v ∈ values, v ≠ .null := ⟨v, by simpa using List.mem_filter.1 hv⟩
    unfold uncommon at hbounds
    simp only [hranks, hbounds, bind, Except.bind]
    exact ⟨_, hc.check (fun v hv hn => (h v hv hn).shape.1) hmin hmax hsome (sortedValues_perm _) hrest hq,
      hc.exactFor hmin hmax (sortedValues_perm _) hrest hq⟩

/-- **A NaN stops the collector.** -/
theorem analyzeColumn_keyable {d : DataType} {values : Values} {s : ColumnStatistics} (h : analyzeColumn d values = .ok s) :
    ∀ v ∈ values, v.isNanValue = false := by
  intro v hv
  by_cases hn : v = .null
  · rw [hn]
    rfl
  · have hmem : v ∈ values.filter (fun v => v ≠ .null) := List.mem_filter.2 ⟨hv, by simpa using hn⟩
    unfold analyzeColumn at h
    simp only [if_neg (List.ne_nil_of_mem hmem)] at h
    obtain ⟨ranks, hranks, -⟩ := bind_eq_ok.1 h
    obtain ⟨p, hp, hpv⟩ := exists_counter hmem
    have hshape := (ranked_keyable hranks p hp).shape.2
    rw [← Scalar.isNanValue_canon, hpv, Scalar.isNanValue_canon] at hshape
    exact hshape

end MiniPostgres
