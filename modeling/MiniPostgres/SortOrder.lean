import MiniPostgres.RowLists
import MiniPostgres.Numbers
import MiniPostgres.Lib.Comparators
/-!
# SortOrder — ORDER BY sorts

`SortExecutor` and `_compare_order_values` of `executor/operators.py`, with Python's `<` on scalars of every type: numbers
compare by their exact values, texts by code points, and other pairs raise.  On rows whose order values can be compared, the
comparator is a total preorder: for each item, a linear order of values, turned around or not, with the nulls set apart; then one
item after the other.
-/
namespace MiniPostgres

open Comparators (TotalPreorderOn threeWay threeWay_neg setApart thenBy sortBy sortBy_ok notBehind Stable)

/-! ## Python's `<` -/

def numberValue : Scalar → Option (WithBot (WithTop ℚ))
  | .int n      => some ((n : ℚ) : WithTop ℚ)
  | .bool b     => some ((if b then 1 else 0 : ℚ) : WithTop ℚ)
  | .float bits => some (floatValue bits)
  | _           => none

def pythonType : Scalar → String
  | .null    => "NoneType"
  | .int _   => "int"
  | .float _ => "float"
  | .bool _  => "bool"
  | .text _  => "str"

/-- `left < right`; with a NaN it is false. -/
def lessThan (left right : Scalar) : Result Bool :=
  match left, right with
  | .text a, .text b => .ok (decide (a < b))
  | l, r             =>
    match numberValue l, numberValue r with
    | some a, some b => .ok (!l.isNanValue && !r.isNanValue && decide (a < b))
    | _, _           => raise .typeError ("'<' not supported between instances of '" ++ pythonType l ++
      "' and '" ++ pythonType r ++ "'")

/-! ## The executor -/

/-- Where NULL goes: as NULLS says, else behind for ASC and in front for DESC. -/
def nullsFirst (direction : Direction) (nulls : Option Nulls) : Bool :=
  match nulls with
  | some n => decide (n = .first)
  | none   => decide (direction = .desc)

def compareOrderValues (left right : Scalar) (direction : Direction) (nulls : Option Nulls) : Result Int :=
  if left = .null ∨ right = .null then
    if left = .null ∧ right = .null then .ok 0
    else if left = .null then .ok (if nullsFirst direction nulls then -1 else 1)
    else .ok (if nullsFirst direction nulls then 1 else -1)
  else do
    let less ← lessThan left right
    let greater ← if less then .ok false else lessThan right left
    let comparison : Int := if less then -1 else if greater then 1 else 0
    .ok (if direction = .desc then -comparison else comparison)

variable (A : FloatArith)

/-- `_compare`: the first item that tells the rows apart. -/
def compareRows : List BoundOrderItem → ExecutionRow → ExecutionRow → Result Int
  | [], _, _                   => .ok 0
  | item :: items, left, right => do
    let v ← evaluate A item.expression left
    let w ← evaluate A item.expression right
    let comparison ← compareOrderValues v w item.direction item.nulls
    if comparison ≠ 0 then .ok comparison else compareRows items left right

/-- The rows that `next` gives after `_open`: `list.sort` asks `cmp_to_key` whether one row is before another.  The query plans of
`Plans.lean` are given this sort as `sortRows`; `sortRows_eq_sortExecutor` below makes the two one. -/
def sortExecutor (orderBy : List BoundOrderItem) (rows : List ExecutionRow) : Result (List ExecutionRow) :=
  sortBy (compareRows A orderBy) rows

/-! ## What ORDER BY says -/

/-- **The value goes before the other** under the item: a null by its placement, other values by the direction. -/
def ValueBefore (item : BoundOrderItem) (v w : Scalar) : Prop :=
  if v = .null then w ≠ .null ∧ nullsFirst item.direction item.nulls = true
  else if w = .null then nullsFirst item.direction item.nulls = false
  else if item.direction = .desc then lessThan w v = .ok true
  else lessThan v w = .ok true

/-- Two nulls, or two values neither of which is less. -/
def ValueTied (v w : Scalar) : Prop :=
  (v = .null ∧ w = .null) ∨ (v ≠ .null ∧ w ≠ .null ∧ lessThan v w = .ok false ∧ lessThan w v = .ok false)

/-- **The row goes before the other** at the first item that does not tie. -/
def RowBefore : List BoundOrderItem → ExecutionRow → ExecutionRow → Prop
  | [], _, _                   => False
  | item :: items, left, right => ∃ v w, evaluate A item.expression left = .ok v ∧ evaluate A item.expression right = .ok w ∧
    (ValueBefore item v w ∨ (ValueTied v w ∧ RowBefore items left right))

variable {A} {orderBy : List BoundOrderItem} {rows : List ExecutionRow}

/-- The order expressions evaluate, and their values are NULL or can be compared with each other. -/
structure Orderable (A : FloatArith) (orderBy : List BoundOrderItem) (rows : List ExecutionRow) : Prop where
  evaluates  : ∀ item ∈ orderBy, ∀ row ∈ rows, ∃ v, evaluate A item.expression row = .ok v ∧ v.isNanValue = false
  comparable : ∀ item ∈ orderBy, ∀ left ∈ rows, ∀ right ∈ rows, ∀ v w, evaluate A item.expression left = .ok v →
    evaluate A item.expression right = .ok w → v ≠ .null → w ≠ .null → ∃ b, lessThan v w = .ok b

/-! ## Values -/

/-- The place of a value among the values it can be compared with. -/
def valuePlace : Scalar → List Char ⊕ₗ WithBot (WithTop ℚ)
  | .text s => toLex (.inl s)
  | v       => toLex (.inr ((numberValue v).getD ⊥))

/-- **Where `<` returns, it compares places.** -/
theorem lessThan_eq {v w : Scalar} {b : Bool} (hv : v.isNanValue = false) (hw : w.isNanValue = false) (h : lessThan v w = .ok b) :
    b = decide (valuePlace v < valuePlace w) := by
  have hnumbers : ∀ {x y : WithBot (WithTop ℚ)}, numberValue v = some x → numberValue w = some y →
      valuePlace v = toLex (.inr x) → valuePlace w = toLex (.inr y) →
      (.ok (!v.isNanValue && !w.isNanValue && decide (x < y)) : Result Bool) = .ok b →
        b = decide (valuePlace v < valuePlace w) := by
    intro x y _ _ hpv hpw he
    cases he
    rw [hv, hw, hpv, hpw]
    simp only [Bool.not_false, Bool.true_and]
    exact decide_eq_decide.2 Sum.Lex.inr_lt_inr_iff.symm
  unfold lessThan at h
  cases v <;> cases w
  case text.text a b' =>
    cases h
    exact decide_eq_decide.2 Sum.Lex.inl_lt_inl_iff.symm
  all_goals first
    | exact hnumbers rfl rfl rfl rfl h
    | exact absurd h raise_ne_ok

/-- The comparison of two values that are not null. -/
def directed (direction : Direction) (v w : Scalar) : Int :=
  if direction = .desc then -threeWay (valuePlace v) (valuePlace w) else threeWay (valuePlace v) (valuePlace w)

def isNull (v : Scalar) : Bool := decide (v = .null)

/-- The comparison of two values under an item. -/
def itemOrder (item : BoundOrderItem) : Scalar → Scalar → Int :=
  setApart isNull (nullsFirst item.direction item.nulls) (directed item.direction)

theorem itemOrder_nulls (item : BoundOrderItem) : itemOrder item .null .null = 0 := rfl

theorem itemOrder_null_left (item : BoundOrderItem) {w : Scalar} (hw : w ≠ .null) :
    itemOrder item .null w = if nullsFirst item.direction item.nulls then -1 else 1 := by
  simp [itemOrder, setApart, isNull, hw]

theorem itemOrder_null_right (item : BoundOrderItem) {v : Scalar} (hv : v ≠ .null) :
    itemOrder item v .null = if nullsFirst item.direction item.nulls then 1 else -1 := by
  simp [itemOrder, setApart, isNull, hv]

theorem itemOrder_values (item : BoundOrderItem) {v w : Scalar} (hv : v ≠ .null) (hw : w ≠ .null) :
    itemOrder item v w = directed item.direction v w := by
  simp [itemOrder, setApart, isNull, hv, hw]

theorem totalPreorderOn_directed (P : Scalar → Prop) (direction : Direction) : TotalPreorderOn P (directed direction) := by
  have h : TotalPreorderOn P (fun v w => threeWay (valuePlace v) (valuePlace w)) :=
    (Comparators.totalPreorderOn_threeWay (fun _ => True)).comap valuePlace (fun _ _ => trivial)
  cases direction with
  | asc => exact h
  | desc => exact h.neg

theorem totalPreorderOn_itemOrder (P : Scalar → Prop) (item : BoundOrderItem) : TotalPreorderOn P (itemOrder item) :=
  (totalPreorderOn_directed _ item.direction).setApart _

/-- Two values that the executor compares without an error. -/
def Comparable (v w : Scalar) : Prop :=
  v.isNanValue = false ∧ w.isNanValue = false ∧ (v ≠ .null → w ≠ .null → (∃ b, lessThan v w = .ok b) ∧ ∃ b, lessThan w v = .ok b)

theorem Comparable.less {v w : Scalar} (h : Comparable v w) (hv : v ≠ .null) (hw : w ≠ .null) :
    lessThan v w = .ok (decide (valuePlace v < valuePlace w)) ∧ lessThan w v = .ok (decide (valuePlace w < valuePlace v)) := by
  obtain ⟨⟨b, hb⟩, b', hb'⟩ := h.2.2 hv hw
  rw [hb, hb', lessThan_eq h.1 h.2.1 hb, lessThan_eq h.2.1 h.1 hb']
  exact ⟨rfl, rfl⟩

/-- **`_compare_order_values` gives the item's order.** -/
theorem compareOrderValues_eq {v w : Scalar} (h : Comparable v w) (item : BoundOrderItem) :
    compareOrderValues v w item.direction item.nulls = .ok (itemOrder item v w) := by
  unfold compareOrderValues
  by_cases hv : v = .null
  · subst hv
    rw [if_pos (.inl rfl)]
    by_cases hw : w = .null
    · rw [if_pos ⟨rfl, hw⟩, hw, itemOrder_nulls]
    · rw [if_neg (fun hb => hw hb.2), if_pos rfl, itemOrder_null_left item hw]
  · by_cases hw : w = .null
    · subst hw
      rw [if_pos (.inr rfl), if_neg (fun hb => hv hb.1), if_neg hv, itemOrder_null_right item hv]
    · obtain ⟨hvw, hwv⟩ := h.less hv hw
      rw [if_neg (fun hb => hb.elim hv hw), itemOrder_values item hv hw, hvw]
      unfold directed threeWay
      by_cases hlt : valuePlace v < valuePlace w
      · simp only [bind, Except.bind, hlt, decide_true, if_true]
      · simp only [bind, Except.bind, hlt, decide_false, Bool.false_eq_true, if_false, hwv, decide_eq_true_eq]

/-- **It is negative exactly when the first value goes before the second.** -/
theorem itemOrder_neg_iff {v w : Scalar} (h : Comparable v w) (item : BoundOrderItem) :
    itemOrder item v w < 0 ↔ ValueBefore item v w := by
  unfold ValueBefore
  by_cases hv : v = .null
  · subst hv
    rw [if_pos rfl]
    by_cases hw : w = .null
    · rw [hw, itemOrder_nulls]
      exact ⟨fun hn => absurd hn (by decide), fun hb => absurd rfl hb.1⟩
    · rw [itemOrder_null_left item hw]
      cases nullsFirst item.direction item.nulls
      · exact ⟨fun hn => absurd hn (by decide), fun hb => nomatch hb.2⟩
      · exact ⟨fun _ => ⟨hw, rfl⟩, fun _ => by decide⟩
  · rw [if_neg hv]
    by_cases hw : w = .null
    · subst hw
      rw [if_pos rfl, itemOrder_null_right item hv]
      cases nullsFirst item.direction item.nulls
      · exact ⟨fun _ => rfl, fun _ => by decide⟩
      · exact ⟨fun hn => absurd hn (by decide), fun hb => nomatch hb⟩
    · obtain ⟨hvw, hwv⟩ := h.less hv hw
      rw [if_neg hw, itemOrder_values item hv hw, hvw, hwv]
      unfold directed
      by_cases hd : item.direction = .desc
      · rw [if_pos hd, if_pos hd, ← Comparators.threeWay_swap, threeWay_neg, Except.ok.injEq, decide_eq_true_eq]
      · rw [if_neg hd, if_neg hd, threeWay_neg, Except.ok.injEq, decide_eq_true_eq]

theorem itemOrder_zero_iff {v w : Scalar} (h : Comparable v w) (item : BoundOrderItem) :
    itemOrder item v w = 0 ↔ ValueTied v w := by
  unfold ValueTied
  by_cases hv : v = .null
  · subst hv
    by_cases hw : w = .null
    · subst hw
      exact ⟨fun _ => .inl ⟨rfl, rfl⟩, fun _ => rfl⟩
    · rw [itemOrder_null_left item hw]
      cases nullsFirst item.direction item.nulls <;> simp [hw]
  · by_cases hw : w = .null
    · subst hw
      rw [itemOrder_null_right item hv]
      cases nullsFirst item.direction item.nulls <;> simp [hv]
    · obtain ⟨hvw, hwv⟩ := h.less hv hw
      have hdirected : directed item.direction v w = 0 ↔ threeWay (valuePlace v) (valuePlace w) = 0 := by
        unfold directed
        split
        · exact neg_eq_zero
        · exact Iff.rfl
      rw [itemOrder_values item hv hw, hdirected, Comparators.threeWay_zero, hvw, hwv]
      simp [hv, hw]

/-! ## Rows -/

variable (A) in
def orderValue (e : BoundExpr) (row : ExecutionRow) : Scalar := (evaluate A e row).toOption.getD .null

variable (A) in
/-- The comparison of two rows. -/
def rowOrder : List BoundOrderItem → ExecutionRow → ExecutionRow → Int
  | []            => fun _ _ => 0
  | item :: items => thenBy (fun left right => itemOrder item (orderValue A item.expression left)
    (orderValue A item.expression right))
      (rowOrder items)

theorem rowOrder_cons (item : BoundOrderItem) (items : List BoundOrderItem) (left right : ExecutionRow) :
    rowOrder A (item :: items) left right =
      if itemOrder item (orderValue A item.expression left) (orderValue A item.expression right) ≠ 0 then
        itemOrder item (orderValue A item.expression left) (orderValue A item.expression right)
      else rowOrder A items left right := rfl

theorem totalPreorderOn_rowOrder (P : ExecutionRow → Prop) : ∀ items : List BoundOrderItem, TotalPreorderOn P (rowOrder A items)
  | []            => Comparators.totalPreorderOn_zero P
  | item :: items => ((totalPreorderOn_itemOrder (fun _ => True) item).comap (orderValue A item.expression)
    (fun _ _ => trivial)).thenBy
      (totalPreorderOn_rowOrder P items)

theorem Orderable.tail {item : BoundOrderItem} (h : Orderable A (item :: orderBy) rows) : Orderable A orderBy rows :=
  ⟨fun i hi => h.evaluates i (List.mem_cons_of_mem _ hi), fun i hi => h.comparable i (List.mem_cons_of_mem _ hi)⟩

theorem Orderable.head {item : BoundOrderItem} (h : Orderable A (item :: orderBy) rows)
    {left right : ExecutionRow} (hl : left ∈ rows)
    (hr : right ∈ rows) : evaluate A item.expression left = .ok (orderValue A item.expression left) ∧
      evaluate A item.expression right = .ok (orderValue A item.expression right) ∧
      Comparable (orderValue A item.expression left) (orderValue A item.expression right) := by
  obtain ⟨v, hv, hvn⟩ := h.evaluates item List.mem_cons_self left hl
  obtain ⟨w, hw, hwn⟩ := h.evaluates item List.mem_cons_self right hr
  have hv' : orderValue A item.expression left = v := by rw [orderValue, hv]; rfl
  have hw' : orderValue A item.expression right = w := by rw [orderValue, hw]; rfl
  rw [hv', hw']
  exact ⟨hv, hw, hvn, hwn, fun h1 h2 => ⟨h.comparable item List.mem_cons_self left hl right hr v w hv hw h1 h2,
    h.comparable item List.mem_cons_self right hr left hl w v hw hv h2 h1⟩⟩

/-- **`_compare` gives the order of the rows.** -/
theorem compareRows_eq : ∀ {items : List BoundOrderItem}, Orderable A items rows → ∀ left ∈ rows, ∀ right ∈ rows,
    compareRows A items left right = .ok (rowOrder A items left right)
  | [], _, _, _, _, _                           => rfl
  | item :: items, h, left, hl, right, hr => by
    obtain ⟨hv, hw, hc⟩ := h.head hl hr
    rw [compareRows, hv, hw]
    simp only [bind, Except.bind]
    rw [compareOrderValues_eq hc, compareRows_eq h.tail left hl right hr]
    rw [rowOrder_cons]
    simp only
    split <;> rfl

/-- **It is negative exactly when the first row goes before the second.** -/
theorem rowOrder_neg_iff : ∀ {items : List BoundOrderItem}, Orderable A items rows → ∀ left ∈ rows, ∀ right ∈ rows,
    (rowOrder A items left right < 0 ↔ RowBefore A items left right)
  | [], _, left, _, right, _ => ⟨fun h => absurd (show (0 : Int) < 0 from h) (lt_irrefl 0), nofun⟩
  | item :: items, h, left, hl, right, hr => by
    obtain ⟨hv, hw, hc⟩ := h.head hl hr
    have hneg := itemOrder_neg_iff hc item
    have hzero := itemOrder_zero_iff hc item
    have hrest := rowOrder_neg_iff h.tail left hl right hr
    rw [rowOrder_cons]
    unfold RowBefore
    constructor
    · intro hlt
      refine ⟨_, _, hv, hw, ?_⟩
      split at hlt
      · exact .inl (hneg.1 hlt)
      · rename_i htie
        exact .inr ⟨hzero.1 (not_not.1 htie), hrest.1 hlt⟩
    · rintro ⟨v, w, hv', hw', hor⟩
      cases hv.symm.trans hv'
      cases hw.symm.trans hw'
      rcases hor with hbefore | ⟨htie, hbefore⟩
      · have hlt := hneg.2 hbefore
        rw [if_pos (ne_of_lt hlt)]
        exact hlt
      · rw [if_neg (not_not.2 (hzero.2 htie))]
        exact hrest.2 hbefore

/-! ## The sort -/

/-- In order, with ties by position. -/
def Sorted (A : FloatArith) (orderBy : List BoundOrderItem) (tagged : List (ExecutionRow × Nat)) : Prop :=
  tagged.Pairwise (fun a b => ¬RowBefore A orderBy b.1 a.1 ∧ (RowBefore A orderBy a.1 b.1 ∨ a.2 < b.2))

theorem Orderable.stable_iff (h : Orderable A orderBy rows) {a b : ExecutionRow × Nat} (ha : a.1 ∈ rows) (hb : b.1 ∈ rows) :
    Stable (rowOrder A orderBy) a b ↔ ¬RowBefore A orderBy b.1 a.1 ∧ (RowBefore A orderBy a.1 b.1 ∨ a.2 < b.2) := by
  have hswap := (totalPreorderOn_rowOrder (A := A) (fun r => r ∈ rows) orderBy).swap ha hb
  rw [← rowOrder_neg_iff h a.1 ha b.1 hb, ← rowOrder_neg_iff h b.1 hb a.1 ha]
  unfold Stable
  omega

theorem mem_of_zipIdx {tagged : List (ExecutionRow × Nat)} (h : tagged.Perm rows.zipIdx) : ∀ p ∈ tagged, p.1 ∈ rows :=
  fun _ hp => List.fst_mem_of_mem_zipIdx (h.mem_iff.1 hp)

/-- **ORDER BY sorts.**  The comparator is a total preorder, the one that the items say; the sort returns the rows with their
positions permuted, none before one that goes before it, and ties in the order they came, and no other list is such. -/
theorem order_by_sorts (A : FloatArith) (orderBy : List BoundOrderItem) (rows : List ExecutionRow)
    (h : Orderable A orderBy rows) :
    ∃ order : ExecutionRow → ExecutionRow → Int,
      (∀ left ∈ rows, ∀ right ∈ rows, compareRows A orderBy left right = .ok (order left right)) ∧
      TotalPreorderOn (fun row => row ∈ rows) order ∧
      (∀ left ∈ rows, ∀ right ∈ rows, (order left right < 0 ↔ RowBefore A orderBy left right)) ∧
      ∃ tagged : List (ExecutionRow × Nat), sortExecutor A orderBy rows = .ok (tagged.map Prod.fst) ∧ tagged.Perm rows.zipIdx ∧
        Sorted A orderBy tagged ∧
        ∀ other : List (ExecutionRow × Nat), other.Perm rows.zipIdx → Sorted A orderBy other → other = tagged := by
  have hpre := totalPreorderOn_rowOrder (A := A) (fun r => r ∈ rows) orderBy
  refine ⟨rowOrder A orderBy, compareRows_eq h, hpre, rowOrder_neg_iff h, ?_⟩
  obtain ⟨tagged, hmap, hperm, hstable⟩ := Comparators.insertionSort_stable hpre (fun _ hr => hr)
  refine ⟨tagged, ?_, hperm, hstable.imp_of_mem (fun ha hb hs => ?_), fun other hother hsorted => ?_⟩
  · rw [hmap]
    exact sortBy_ok (compareRows_eq h)
  · exact (h.stable_iff (mem_of_zipIdx hperm _ ha) (mem_of_zipIdx hperm _ hb)).1 hs
  · refine Comparators.stable_unique hpre (fun _ hr => hr) hother hperm (hsorted.imp_of_mem (fun ha hb hs => ?_)) hstable
    exact (h.stable_iff (mem_of_zipIdx hother _ ha) (mem_of_zipIdx hother _ hb)).2 hs

def storedRow (slotId : Nat) (v : Scalar) : ExecutionRow := ⟨[(⟨1, 0⟩, v)], [(1, ⟨0, slotId⟩)], []⟩

/-- `ORDER BY a`. -/
def byFirstColumn : List BoundOrderItem := [⟨.column ⟨1, 0⟩ ['a'] .int64 true, .asc, none⟩]

def storedRows : List ExecutionRow := [storedRow 0 .null, storedRow 1 (.int 7), storedRow 2 (.int 3), storedRow 3 (.int 7)]

theorem storedRows_orderable : Orderable FloatArith.unused byFirstColumn storedRows := by
  have hvalue : ∀ row ∈ storedRows, ∃ v, evaluate FloatArith.unused (.column ⟨1, 0⟩ ['a'] .int64 true) row = .ok v ∧
      v.isNanValue = false ∧ (v = .null ∨ ∃ n, v = .int n) := by
    intro row hrow
    simp only [storedRows, List.mem_cons, List.not_mem_nil, or_false] at hrow
    rcases hrow with rfl | rfl | rfl | rfl
    · exact ⟨.null, rfl, rfl, .inl rfl⟩
    · exact ⟨.int 7, rfl, rfl, .inr ⟨7, rfl⟩⟩
    · exact ⟨.int 3, rfl, rfl, .inr ⟨3, rfl⟩⟩
    · exact ⟨.int 7, rfl, rfl, .inr ⟨7, rfl⟩⟩
  refine ⟨fun item hi row hrow => ?_, fun item hi left hl right hr v w hv hw hvn hwn => ?_⟩
  · rw [List.mem_singleton.1 hi]
    obtain ⟨v, hv, hn, -⟩ := hvalue row hrow
    exact ⟨v, hv, hn⟩
  · rw [List.mem_singleton.1 hi] at hv hw
    obtain ⟨v', hv', -, hor⟩ := hvalue left hl
    obtain ⟨w', hw', -, hor'⟩ := hvalue right hr
    cases hv.symm.trans hv'
    cases hw.symm.trans hw'
    obtain ⟨n, rfl⟩ := hor.resolve_left hvn
    obtain ⟨m, rfl⟩ := hor'.resolve_left hwn
    exact ⟨_, rfl⟩

/-- The NULL goes behind, and the two rows of 7 stay as they stood. -/
theorem order_by_sorts_ties :
    sortExecutor FloatArith.unused byFirstColumn storedRows =
      .ok [storedRow 2 (.int 3), storedRow 1 (.int 7), storedRow 3 (.int 7), storedRow 0 .null] ∧
    ∃ tagged : List (ExecutionRow × Nat),
      tagged.map Prod.fst = [storedRow 2 (.int 3), storedRow 1 (.int 7), storedRow 3 (.int 7), storedRow 0 .null] ∧
      tagged.Perm storedRows.zipIdx ∧ Sorted FloatArith.unused byFirstColumn tagged := by
  have hrun : sortExecutor FloatArith.unused byFirstColumn storedRows =
      .ok [storedRow 2 (.int 3), storedRow 1 (.int 7), storedRow 3 (.int 7), storedRow 0 .null] := rfl
  obtain ⟨order, -, -, -, tagged, hsort, hperm, hsorted, -⟩ := order_by_sorts _ _ _ storedRows_orderable
  exact ⟨hrun, tagged, Except.ok.inj (hsort.symm.trans hrun), hperm, hsorted⟩

/-! ## The sort of the other modules -/

/-- The values of each item have one type. -/
def OneType (A : FloatArith) (orderBy : List BoundOrderItem) (rows : List ExecutionRow) : Prop :=
  ∀ item ∈ orderBy, ∃ d, ∀ row ∈ rows, ∀ v, evaluate A item.expression row = .ok v → v ≠ .null → inferType v = some d

open Operators (scalarLt orderAfter rowAfter insertRow sortRows)

theorem scalarLt_eq {v w : Scalar} {d : DataType} (hv : inferType v = some d) (hw : inferType w = some d)
    (hvn : v.isNanValue = false) (hwn : w.isNanValue = false) : scalarLt v w = decide (valuePlace v < valuePlace w) := by
  have hnumbers : ∀ {x y : WithBot (WithTop ℚ)} {p : Prop} [Decidable p], (x < y ↔ p) →
      decide p = decide ((toLex (Sum.inr x) : List Char ⊕ₗ WithBot (WithTop ℚ)) < toLex (Sum.inr y)) :=
    fun h => decide_eq_decide.2 (h.symm.trans Sum.Lex.inr_lt_inr_iff.symm)
  have hcast : ∀ {x y : ℚ}, ((x : WithTop ℚ) : WithBot (WithTop ℚ)) < ((y : WithTop ℚ) : WithBot (WithTop ℚ)) ↔ x < y :=
    fun {x y} => by rw [WithBot.coe_lt_coe, WithTop.coe_lt_coe]
  have htype : inferType v = inferType w := hv.trans hw.symm
  cases v <;> cases w <;> cases htype
  case null.null => cases hv
  case int.int a b => exact hnumbers (hcast.trans Int.cast_lt)
  case float.float a b =>
    have ha : isNan a = false := hvn
    have hb : isNan b = false := hwn
    have hlt : scalarLt (.float a) (.float b) = decide (floatPlace a < floatPlace b) := by simp [scalarLt, floatLt, ha, hb]
    rw [hlt]
    exact hnumbers (floatValue_lt_iff ha hb)
  case bool.bool a b =>
    have hlt : scalarLt (.bool a) (.bool b) = decide (a = false ∧ b = true) := by cases a <;> cases b <;> rfl
    rw [hlt]
    refine hnumbers (hcast.trans ?_)
    cases a <;> cases b <;> simp
  case text.text a b => exact decide_eq_decide.2 Sum.Lex.inl_lt_inl_iff.symm

theorem orderAfter_eq {item : BoundOrderItem} {v w : Scalar} {d : DataType} (h : Comparable v w)
    (hv : v ≠ .null → inferType v = some d) (hw : w ≠ .null → inferType w = some d) :
    orderAfter item.direction item.nulls v w = if itemOrder item v w ≠
      0 then some (decide (0 < itemOrder item v w)) else none := by
  by_cases hvn : v = .null
  · subst hvn
    by_cases hwn : w = .null
    · subst hwn
      rfl
    · have ha : orderAfter item.direction item.nulls .null w = some (!nullsFirst item.direction item.nulls) := by
        cases w <;> first | exact absurd rfl hwn | rfl
      rw [ha, itemOrder_null_left item hwn]
      cases nullsFirst item.direction item.nulls <;> rfl
  · by_cases hwn : w = .null
    · subst hwn
      have ha : orderAfter item.direction item.nulls v .null = some (nullsFirst item.direction item.nulls) := by
        cases v <;> first | exact absurd rfl hvn | rfl
      rw [ha, itemOrder_null_right item hvn]
      cases nullsFirst item.direction item.nulls <;> rfl
    · have ha : orderAfter item.direction item.nulls v w = if scalarLt v w then some (decide (item.direction = .desc))
          else if scalarLt w v then some (decide (item.direction = .asc)) else none := by
        cases v <;> cases w <;> first | exact absurd rfl hvn | exact absurd rfl hwn | rfl
      rw [ha, itemOrder_values item hvn hwn, scalarLt_eq (hv hvn) (hw hwn) h.1 h.2.1, scalarLt_eq (hw hwn) (hv hvn) h.2.1 h.1]
      unfold directed threeWay
      by_cases hlt : valuePlace v < valuePlace w
      · cases item.direction <;> simp [hlt]
      · by_cases hgt : valuePlace w < valuePlace v
        · cases item.direction <;> simp [hlt, hgt]
        · cases item.direction <;> simp [hlt, hgt]

theorem rowAfter_eq :
    ∀ {items : List BoundOrderItem}, Orderable A items rows → OneType A items rows → ∀ left ∈ rows, ∀ right ∈ rows,
    rowAfter A items left right = .ok (decide (0 < rowOrder A items left right))
  | [], _, _, _, _, _, _                            => rfl
  | item :: items, h, ht, left, hl, right, hr => by
    obtain ⟨hv, hw, hc⟩ := h.head hl hr
    obtain ⟨d, hd⟩ := ht item List.mem_cons_self
    rw [rowAfter, hv, hw, rowOrder_cons]
    simp only [bind, Except.bind]
    rw [orderAfter_eq hc (hd left hl _ hv) (hd right hr _ hw)]
    by_cases htie : itemOrder item (orderValue A item.expression left) (orderValue A item.expression right) = 0
    · rw [if_neg (not_not.2 htie), if_neg (not_not.2 htie)]
      exact rowAfter_eq h.tail (fun i hi => ht i (List.mem_cons_of_mem _ hi)) left hl right hr
    · rw [if_pos htie, if_pos htie]

theorem insertRow_eq_insertBy (h : Orderable A orderBy rows) (ht : OneType A orderBy rows)
    {row : ExecutionRow} (hrow : row ∈ rows) :
    ∀ {sorted : List ExecutionRow}, (∀ r ∈ sorted, r ∈ rows) →
      insertRow A orderBy row sorted = Comparators.insertBy (compareRows A orderBy) row sorted
  | [], _          => rfl
  | r :: rest, hin => by
    have hr := hin r List.mem_cons_self
    have hswap := (totalPreorderOn_rowOrder (A := A) (fun r => r ∈ rows) orderBy).swap hr hrow
    rw [insertRow, Comparators.insertBy, rowAfter_eq h ht row hrow r hr, compareRows_eq h r hr row hrow,
      insertRow_eq_insertBy h ht hrow (fun r hr => hin r (List.mem_cons_of_mem _ hr))]
    simp only [bind, Except.bind, decide_eq_true_eq]
    by_cases hlt : rowOrder A orderBy r row < 0
    · rw [if_pos hlt, if_pos (by omega)]
    · rw [if_neg hlt, if_neg (by omega)]

/-- **Where the values of an item have one type**, the sort of the query plans is this one. -/
theorem sortRows_eq_sortExecutor (h : Orderable A orderBy rows) (ht : OneType A orderBy rows) :
    sortRows A orderBy rows = sortExecutor A orderBy rows := by
  have hall : ∀ {sub : List ExecutionRow}, (∀ r ∈ sub, r ∈ rows) →
      sortRows A orderBy sub = sortBy (compareRows A orderBy) sub := by
    intro sub
    induction sub with
    | nil => exact fun _ => rfl
    | cons row rest ih =>
      intro hin
      have hrest : ∀ r ∈ rest, r ∈ rows := fun r hr => hin r (List.mem_cons_of_mem _ hr)
      have hsorted : sortBy (compareRows A orderBy) rest = .ok (rest.insertionSort (notBehind (rowOrder A orderBy))) :=
        sortBy_ok (fun l hl r hr => compareRows_eq h l (hrest l hl) r (hrest r hr))
      rw [sortRows, sortBy, ih hrest, hsorted]
      exact insertRow_eq_insertBy h ht (hin row List.mem_cons_self) (fun r hr => hrest r ((List.mem_insertionSort _).1 hr))
  exact hall (fun _ hr => hr)

end MiniPostgres
