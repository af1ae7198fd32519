import MiniPostgres.Binder
/-!
# Typing — bound expressions keep their types

The binder decides types, casts and nullability; `evaluate` trusts them.  Every expression that the binder makes is well typed
(`bindExpression_wellTyped`), and a well-typed expression without aggregates gives, on a row that fits its schemas, a value of
its type or raises for its numbers only (`evaluate_typed`).
-/
namespace MiniPostgres

/-! ## Values of a type -/

def InRange (v : Scalar) : Prop := ∀ n, v = .int n → int64Min ≤ n ∧ n ≤ int64Max

/-- A value of a type; NULL only where the flag allows it. -/
def Scalar.Conforms (v : Scalar) (dataType : Option DataType) (nullable : Bool) : Prop :=
  (v = .null ∧ nullable = true) ∨ (v ≠ .null ∧ inferType v = dataType ∧ InRange v)

def DataType.Numeric (d : DataType) : Prop := d = .int64 ∨ d = .float64

/-- The cells of a row are those that the schemas of the scope declare. -/
def Fits (scope : List ScopeEntry) (row : ExecutionRow) : Prop :=
  ∀ entry ∈ scope, ∀ i c, entry.table.schema.columns[i]? = some c →
    ∃ v, row.cells.lookup ⟨entry.table.tableId, i⟩ = some v ∧ validateScalar v c.dataType c.nullable = .ok v

theorem validateInt64_eq_ok {n m : Int} : validateInt64 n = .ok m ↔ m = n ∧ int64Min ≤ n ∧ n ≤ int64Max := by
  unfold validateInt64
  split
  · refine iff_of_false raise_ne_ok ?_
    rintro ⟨-, hl, hu⟩
    omega
  · rename_i hn
    rw [Except.ok.injEq]
    exact ⟨fun h => ⟨h.symm, by omega, by omega⟩, fun h => h.1.symm⟩

theorem validateInt64_error {n : Int} {e : Error} (h : validateInt64 n = .error e) : e.kind = .numericOverflow := by
  unfold validateInt64 at h
  split at h
  · cases h; rfl
  · cases h

theorem conforms_of_validateScalar {v : Scalar} {d : DataType} {n : Bool} (h : validateScalar v d n = .ok v) :
    v.Conforms (some d) n := by
  unfold validateScalar at h
  cases hv : inferType v with
  | none =>
    rw [hv] at h
    simp only at h
    split at h
    · rename_i hn
      exact Or.inl ⟨(Except.ok.inj h).symm, hn⟩
    · exact absurd h raise_ne_ok
  | some actual =>
    rw [hv] at h
    simp only at h
    split at h
    · exact absurd h raise_ne_ok
    · rename_i ha
      refine Or.inr ⟨fun he => ?_, by rw [hv, not_not.1 ha], fun k hk => ?_⟩
      · rw [he] at hv; cases hv
      · subst hk
        obtain ⟨m, hm, -⟩ := bind_eq_ok.1 h
        exact (validateInt64_eq_ok.1 hm).2

namespace Scalar

variable {v : Scalar} {n : Bool}

theorem conforms_none (h : v.Conforms none n) : v = .null := by
  rcases h with ⟨h, -⟩ | ⟨hne, ht, -⟩
  · exact h
  · cases v <;> first | rfl | cases ht

theorem conforms_int (h : v.Conforms (some .int64) n) :
    (v = .null ∧ n = true) ∨ ∃ k, v = .int k ∧ int64Min ≤ k ∧ k ≤ int64Max := by
  rcases h with h | ⟨-, ht, hr⟩
  · exact Or.inl h
  · cases v with
    | int k => exact Or.inr ⟨k, rfl, hr k rfl⟩
    | _ => cases ht

theorem conforms_float (h : v.Conforms (some .float64) n) : (v = .null ∧ n = true) ∨ ∃ bits, v = .float bits := by
  rcases h with h | ⟨-, ht, -⟩
  · exact Or.inl h
  · cases v with
    | float bits => exact Or.inr ⟨bits, rfl⟩
    | _ => cases ht

theorem conforms_boolean (h : v.Conforms (some .boolean) n) : (v = .null ∧ n = true) ∨ ∃ b, v = .bool b := by
  rcases h with h | ⟨-, ht, -⟩
  · exact Or.inl h
  · cases v with
    | bool b => exact Or.inr ⟨b, rfl⟩
    | _ => cases ht

theorem conforms_text (h : v.Conforms (some .text) n) : (v = .null ∧ n = true) ∨ ∃ s, v = .text s := by
  rcases h with h | ⟨-, ht, -⟩
  · exact Or.inl h
  · cases v with
    | text s => exact Or.inr ⟨s, rfl⟩
    | _ => cases ht

theorem null_conforms {d : Option DataType} (h : n = true) : Scalar.null.Conforms d n := Or.inl ⟨rfl, h⟩

theorem bool_conforms (b : Bool) : (Scalar.bool b).Conforms (some .boolean) n :=
  Or.inr ⟨by simp, rfl, fun k hk => by cases hk⟩

theorem float_conforms (bits : BitVec 64) : (Scalar.float bits).Conforms (some .float64) n :=
  Or.inr ⟨by simp, rfl, fun k hk => by cases hk⟩

theorem int_conforms {k : Int} (h : int64Min ≤ k ∧ k ≤ int64Max) : (Scalar.int k).Conforms (some .int64) n :=
  Or.inr ⟨by simp, rfl, fun k' hk => by cases hk; exact h⟩

end Scalar

/-! ## Well-typed expressions -/

/-- The types that the binder gives a binary operator. -/
def OperandTypes (p : BinaryOperator) (left right : Option DataType) (d : DataType) : Prop :=
  match p with
  | .and | .or                => left = some .boolean ∧ right = some .boolean ∧ d = .boolean
  | .add | .sub | .mul | .div => left = some d ∧ right = some d ∧ d.Numeric
  | _                         => left = right ∧ d = .boolean

def WellTyped (scope : List ScopeEntry) : BoundExpr → Prop
  | .literal v d n    => n = decide (v = .null) ∧ (v ≠ .null → inferType v = d) ∧ InRange v
  | .column b _ d n   => ∃ entry ∈ scope, entry.table.tableId = b.tableId ∧
      ∃ c, entry.table.schema.columns[b.columnId]? = some c ∧ c.dataType = d ∧ c.nullable = n
  | .cast o d n       => d = .float64 ∧ o.dataType = some .int64 ∧ n = o.nullable ∧ WellTyped scope o
  | .unary p o d n    => o.dataType = some d ∧ (if p = .not then d = .boolean else d.Numeric) ∧ n = o.nullable ∧ WellTyped scope o
  | .binary l p r d n => OperandTypes p l.dataType r.dataType d ∧ n = (l.nullable || r.nullable) ∧
      WellTyped scope l ∧ WellTyped scope r
  | .isNull o _       => WellTyped scope o
  | .function _ a _ _ => WellTyped scope a
  | .countStar        => True

namespace Binder

variable {K : Casing} {scope : List ScopeEntry}

theorem requireNumeric_ok {e : BoundExpr} (h : requireNumeric e = .ok ()) : ∃ d, e.dataType = some d ∧ d.Numeric := by
  unfold requireNumeric at h
  split at h
  · rename_i hd
    rcases hd with hd | hd
    · exact ⟨_, hd, Or.inl rfl⟩
    · exact ⟨_, hd, Or.inr rfl⟩
  · exact absurd h raise_ne_ok

theorem coerce_wellTyped {e e' : BoundExpr} {target : DataType} (hw : WellTyped scope e) (h : coerce e target = .ok e') :
    WellTyped scope e' ∧ e'.dataType = some target := by
  unfold coerce at h
  split at h
  · split at h
    · cases h
      exact ⟨⟨rfl, fun hn => absurd rfl hn, fun k hk => by cases hk⟩, rfl⟩
    · exact absurd h raise_ne_ok
  · rename_i d hd
    split at h
    · rename_i hdt
      cases h
      exact ⟨hw, by rw [hd, hdt]⟩
    · split at h
      · rename_i hdt
        cases h
        exact ⟨⟨hdt.2, by rw [hd, hdt.1], rfl, hw⟩, rfl⟩
      · exact absurd h raise_ne_ok

theorem numericPair_wellTyped {l r l' r' : BoundExpr} {d : DataType} (hl : WellTyped scope l) (hr : WellTyped scope r)
    (h : numericPair l r = .ok (l', r', d)) :
    WellTyped scope l' ∧ WellTyped scope r' ∧ l'.dataType = some d ∧ r'.dataType = some d ∧ d.Numeric := by
  obtain ⟨⟨⟩, hnl, h⟩ := bind_eq_ok.1 h
  obtain ⟨⟨⟩, hnr, h⟩ := bind_eq_ok.1 h
  split at h
  · obtain ⟨l₁, hl₁, h⟩ := bind_eq_ok.1 h
    obtain ⟨r₁, hr₁, h⟩ := bind_eq_ok.1 h
    cases h
    obtain ⟨hwl, htl⟩ := coerce_wellTyped hl hl₁
    obtain ⟨hwr, htr⟩ := coerce_wellTyped hr hr₁
    exact ⟨hwl, hwr, htl, htr, Or.inr rfl⟩
  · rename_i hf
    cases h
    rw [not_or] at hf
    have hint : ∀ e : BoundExpr, requireNumeric e = .ok () → e.dataType ≠ some .float64 → e.dataType = some .int64 := by
      intro e he hne
      obtain ⟨d, hd, rfl | rfl⟩ := requireNumeric_ok he
      · exact hd
      · exact absurd hd hne
    exact ⟨hl, hr, hint l hnl hf.1, hint r hnr hf.2, Or.inl rfl⟩

theorem comparablePair_wellTyped {l r l' r' : BoundExpr} (hl : WellTyped scope l) (hr : WellTyped scope r)
    (h : comparablePair l r = .ok (l', r')) : WellTyped scope l' ∧ WellTyped scope r' ∧ l'.dataType = r'.dataType := by
  unfold comparablePair at h
  split at h
  · rename_i hdl hdr
    cases h
    exact ⟨hl, hr, by rw [hdl, hdr]⟩
  · rename_i d hdl hdr
    obtain ⟨l₁, hl₁, h⟩ := bind_eq_ok.1 h
    cases h
    obtain ⟨hw, ht⟩ := coerce_wellTyped hl hl₁
    exact ⟨hw, hr, by rw [ht, hdr]⟩
  · rename_i d hdl hdr
    obtain ⟨r₁, hr₁, h⟩ := bind_eq_ok.1 h
    cases h
    obtain ⟨hw, ht⟩ := coerce_wellTyped hr hr₁
    exact ⟨hl, hw, by rw [ht, hdl]⟩
  · rename_i d e hdl hdr
    split at h
    · rename_i hde
      cases h
      exact ⟨hl, hr, by rw [hdl, hdr, hde]⟩
    · split at h
      · obtain ⟨⟨l₁, r₁, d₁⟩, hp, h⟩ := bind_eq_ok.1 h
        cases h
        obtain ⟨hwl, hwr, htl, htr, -⟩ := numericPair_wellTyped hl hr hp
        exact ⟨hwl, hwr, by rw [htl, htr]⟩
      · exact absurd h raise_ne_ok

theorem bindLiteral_wellTyped {v : Scalar} {b : BoundExpr} (h : bindLiteral v = .ok b) : WellTyped scope b := by
  unfold bindLiteral at h
  split at h
  · obtain ⟨m, hm, h⟩ := bind_eq_ok.1 h
    cases h
    obtain ⟨rfl, hr⟩ := validateInt64_eq_ok.1 hm
    exact ⟨by simp, fun _ => rfl, fun k hk => by cases hk; exact hr⟩
  · rename_i hni
    cases h
    exact ⟨rfl, fun _ => rfl, fun k hk => absurd hk (hni k)⟩

theorem bindUnary_wellTyped {p : UnaryOperator} {o b : BoundExpr} (ho : WellTyped scope o) (h : bindUnary p o = .ok b) :
    WellTyped scope b := by
  cases p with
  | not =>
    simp only [bindUnary] at h
    split at h
    · rename_i hd
      cases h
      exact ⟨hd, rfl, rfl, ho⟩
    · exact absurd h raise_ne_ok
  | plus | minus =>
    simp only [bindUnary] at h
    obtain ⟨⟨⟩, hn, h⟩ := bind_eq_ok.1 h
    obtain ⟨d, hd, hnum⟩ := requireNumeric_ok hn
    rw [hd] at h
    cases h
    exact ⟨hd, hnum, rfl, ho⟩

theorem bindBinary_wellTyped {l r b : BoundExpr} {p : BinaryOperator} (hl : WellTyped scope l) (hr : WellTyped scope r)
    (h : bindBinary l p r = .ok b) : WellTyped scope b := by
  cases p with
  | and | or =>
    simp only [bindBinary] at h
    split at h
    · rename_i hd
      cases h
      exact ⟨⟨hd.1, hd.2, rfl⟩, rfl, hl, hr⟩
    · exact absurd h raise_ne_ok
  | add | sub | mul | div =>
    simp only [bindBinary] at h
    obtain ⟨⟨l₁, r₁, d⟩, hp, h⟩ := bind_eq_ok.1 h
    cases h
    obtain ⟨hwl, hwr, htl, htr, hnum⟩ := numericPair_wellTyped hl hr hp
    exact ⟨⟨htl, htr, hnum⟩, rfl, hwl, hwr⟩
  | eq | ne | lt | le | gt | ge =>
    simp only [bindBinary] at h
    obtain ⟨⟨l₁, r₁⟩, hp, h⟩ := bind_eq_ok.1 h
    cases h
    obtain ⟨hwl, hwr, ht⟩ := comparablePair_wellTyped hl hr hp
    exact ⟨⟨ht, rfl⟩, rfl, hwl, hwr⟩

theorem findColumn_getElem? {schema : Schema} {name : Name} {c : Nat × Column} (h : findColumn K schema name = some c) :
    schema.columns[c.1]? = some c.2 := by
  unfold findColumn at h
  obtain ⟨p, hp, rfl⟩ := Option.map_eq_some_iff.1 h
  exact List.mem_zipIdx_iff_getElem?.1 (List.mem_of_find?_eq_some hp)

theorem mem_entriesFor {table : Option Name} {entries : List ScopeEntry} (h : entriesFor K scope table = .ok entries) :
    ∀ entry ∈ entries, entry ∈ scope := by
  cases table with
  | none => cases h; exact fun _ he => he
  | some table =>
    simp only [entriesFor] at h
    split at h
    · exact absurd h raise_ne_ok
    · rename_i hf
      cases h
      exact fun entry he => (List.mem_filter.1 (hf ▸ he)).1

theorem resolveColumn_wellTyped {name : Name} {table : Option Name} {b : BoundExpr}
    (h : resolveColumn K scope name table = .ok b) : WellTyped scope b := by
  obtain ⟨entries, he, h⟩ := bind_eq_ok.1 h
  split at h
  · exact absurd h raise_ne_ok
  · rename_i t c hm
    cases h
    have hmem := List.mem_filterMap.1 (hm ▸ List.mem_singleton_self (t, c))
    obtain ⟨entry, hin, hc⟩ := hmem
    obtain ⟨c', hc', heq⟩ := Option.map_eq_some_iff.1 hc
    cases heq
    exact ⟨entry, mem_entriesFor he entry hin, rfl, c.2, findColumn_getElem? hc', rfl, rfl⟩
  · exact absurd h raise_ne_ok

theorem bindAggregate_wellTyped {f : AggregateName} {a b : BoundExpr} (ha : WellTyped scope a)
    (h : bindAggregate f a = .ok b) : WellTyped scope b := by
  cases f with
  | count => cases h; exact ha
  | sum | avg | min | max =>
    simp only [bindAggregate] at h
    obtain ⟨-, -, h⟩ := bind_eq_ok.1 h
    split at h
    · exact absurd h raise_ne_ok
    · cases h; exact ha

/-- **What the binder accepts is well typed**, by recursion on the syntax. -/
theorem bindExpression_wellTyped {context : String} : ∀ {e : Expr} {allow inside : Bool} {b : BoundExpr},
    bindExpression K scope context allow inside e = .ok b → WellTyped scope b
  | .literal v, _, _, _, h => bindLiteral_wellTyped (by simpa only [bindExpression] using h)
  | .columnRef name table, _, _, _, h => resolveColumn_wellTyped (by simpa only [bindExpression] using h)
  | .star _, _, _, _, h => by
    simp only [bindExpression] at h
    exact absurd h raise_ne_ok
  | .unary p e, _, _, _, h => by
    simp only [bindExpression] at h
    obtain ⟨o, ho, h⟩ := bind_eq_ok.1 h
    exact bindUnary_wellTyped (bindExpression_wellTyped ho) h
  | .binary l p r, _, _, _, h => by
    simp only [bindExpression] at h
    obtain ⟨l', hl, h⟩ := bind_eq_ok.1 h
    obtain ⟨r', hr, h⟩ := bind_eq_ok.1 h
    exact bindBinary_wellTyped (bindExpression_wellTyped hl) (bindExpression_wellTyped hr) h
  | .isNull e g, _, _, _, h => by
    simp only [bindExpression] at h
    obtain ⟨o, ho, h⟩ := bind_eq_ok.1 h
    cases h
    exact show WellTyped scope o from bindExpression_wellTyped ho
  | .function name [a], _, _, _, h => by
    simp only [bindExpression] at h
    obtain ⟨f, -, h⟩ := bind_eq_ok.1 h
    split at h
    · split at h
      · cases h; trivial
      · exact absurd h raise_ne_ok
    · obtain ⟨argument, ha, h⟩ := bind_eq_ok.1 h
      exact bindAggregate_wellTyped (bindExpression_wellTyped ha) h
  | .function name [], _, _, _, h => by
    simp only [bindExpression] at h
    obtain ⟨f, -, h⟩ := bind_eq_ok.1 h
    exact absurd h raise_ne_ok
  | .function name (_ :: _ :: _), _, _, _, h => by
    simp only [bindExpression] at h
    obtain ⟨f, -, h⟩ := bind_eq_ok.1 h
    exact absurd h raise_ne_ok

end Binder

/-! ## Evaluation -/

/-- The exact integer of an INT64 expression: unbounded arithmetic, a quotient cut towards zero. -/
def exactInt (row : ExecutionRow) : BoundExpr → Option Int
  | .literal (.int n) _ _  => some n
  | .column b _ _ _        =>
    match row.cells.lookup b with
    | some (.int n) => some n
    | _             => none
  | .unary .plus o _ _     => exactInt row o
  | .unary .minus o _ _    => (exactInt row o).map (fun n => -n)
  | .binary l .add r _ _   => (exactInt row l).bind (fun a => (exactInt row r).map (fun b => a + b))
  | .binary l .sub r _ _   => (exactInt row l).bind (fun a => (exactInt row r).map (fun b => a - b))
  | .binary l .mul r _ _   => (exactInt row l).bind (fun a => (exactInt row r).map (fun b => a * b))
  | .binary l .div r _ _   =>
    (exactInt row l).bind (fun a => (exactInt row r).bind (fun b => if b = 0 then none else some (a.tdiv b)))
  | _                      => none

/-- `NumericOverflow`, or the division by zero. -/
def ArithmeticError (e : Error) : Prop := e.kind = .numericOverflow ∨ e = ⟨.typeMismatch, "division by zero"⟩

/-- A result that is a value of its type, or an error of the arithmetic. -/
structure Typed (r : Result Scalar) (dataType : Option DataType) (nullable : Bool) : Prop where
  value : ∀ v, r = .ok v → v.Conforms dataType nullable
  error : ∀ e, r = .error e → ArithmeticError e

namespace Typed

variable {d : Option DataType} {n : Bool}

theorem ok {v : Scalar} (h : v.Conforms d n) : Typed (.ok v) d n :=
  ⟨fun w hw => by cases hw; exact h, fun e he => by cases he⟩

theorem bind {r : Result Scalar} {f : Scalar → Result Scalar} {d' : Option DataType} {n' : Bool} (h : Typed r d n)
    (hf : ∀ v, r = .ok v → v.Conforms d n → Typed (f v) d' n') : Typed (r >>= f) d' n' := by
  cases r with
  | error e =>
    refine ⟨fun v hv => ?_, fun e' he => h.error e' he⟩
    cases hv
  | ok v => exact hf v rfl (h.value v rfl)

end Typed

section Operations

variable {A : FloatArith} {n m : Bool} {v w : Scalar}

theorem castValue_typed (h : v.Conforms (some .int64) n) : Typed (castValue A .float64 v) (some .float64) n := by
  rcases Scalar.conforms_int h with ⟨rfl, hn⟩ | ⟨k, rfl, -⟩
  · exact .ok (Scalar.null_conforms hn)
  · exact .ok (Scalar.float_conforms _)

theorem ofSqlBool_conforms {b : Option Bool} (h : b = none → n = true) : (Scalar.ofSqlBool b).Conforms (some .boolean) n := by
  cases b with
  | none => exact Scalar.null_conforms (h rfl)
  | some b => exact Scalar.bool_conforms b

theorem requireSqlBool_conforms (h : v.Conforms (some .boolean) n) :
    ∃ b, requireSqlBool v = .ok b ∧ (b = none → n = true) := by
  rcases Scalar.conforms_boolean h with ⟨rfl, hn⟩ | ⟨b, rfl⟩
  · exact ⟨none, rfl, fun _ => hn⟩
  · exact ⟨some b, rfl, fun hb => by cases hb⟩

theorem unaryValue_typed {p : UnaryOperator} {d : DataType} (h : v.Conforms (some d) n)
    (hp : if p = .not then d = .boolean else d.Numeric) : Typed (unaryValue p d v) (some d) n := by
  cases p with
  | not =>
    have hd : d = .boolean := hp
    subst hd
    obtain ⟨b, hb, hn⟩ := requireSqlBool_conforms h
    simp only [unaryValue, sqlNot, hb]
    exact .ok (ofSqlBool_conforms (fun hb' => hn (Option.map_eq_none_iff.1 hb')))
  | plus => exact .ok h
  | minus =>
    have hd : d.Numeric := hp
    rcases hd with rfl | rfl
    · rcases Scalar.conforms_int h with ⟨rfl, hn⟩ | ⟨k, rfl, -⟩
      · exact .ok (Scalar.null_conforms hn)
      · simp only [unaryValue, if_true]
        refine ⟨fun u hu => ?_, fun e he => ?_⟩
        · obtain ⟨k', hk, hu⟩ := bind_eq_ok.1 hu
          cases hu
          obtain ⟨rfl, hr⟩ := validateInt64_eq_ok.1 hk
          exact Scalar.int_conforms hr
        · cases hk : validateInt64 (-k) with
          | ok k' => rw [hk] at he; cases he
          | error e' => rw [hk] at he; cases he; exact Or.inl (validateInt64_error hk)
    · rcases Scalar.conforms_float h with ⟨rfl, hn⟩ | ⟨bits, rfl⟩
      · exact .ok (Scalar.null_conforms hn)
      · exact .ok (Scalar.float_conforms _)

theorem logic_typed (hv : v.Conforms (some .boolean) n) (hw : w.Conforms (some .boolean) m) :
    Typed (sqlAnd v w) (some .boolean) (n || m) ∧ Typed (sqlOr v w) (some .boolean) (n || m) := by
  obtain ⟨b, hb, hn⟩ := requireSqlBool_conforms hv
  obtain ⟨c, hc, hm⟩ := requireSqlBool_conforms hw
  have hnull : (b = none ∨ c = none) → (n || m) = true := fun h => by
    rcases h with h | h
    · rw [hn h]; rfl
    · rw [hm h, Bool.or_true]
  simp only [sqlAnd, sqlOr, hb, hc]
  constructor
  · refine .ok (ofSqlBool_conforms (fun h => hnull ?_))
    split at h
    · cases h
    · split at h
      · assumption
      · cases h
  · refine .ok (ofSqlBool_conforms (fun h => hnull ?_))
    split at h
    · cases h
    · split at h
      · assumption
      · cases h

/-- The comparison operators. -/
def BinaryOperator.Compares (p : BinaryOperator) : Prop := p = .eq ∨ p = .ne ∨ p = .lt ∨ p = .le ∨ p = .gt ∨ p = .ge

theorem compareBy_typed {p : BinaryOperator} (hp : p.Compares) (e lt le gt ge : Bool) :
    Typed (compareBy p e lt le gt ge) (some .boolean) n := by
  rcases hp with rfl | rfl | rfl | rfl | rfl | rfl <;> exact .ok (Scalar.bool_conforms _)

theorem compareValues_typed {p : BinaryOperator} (hp : p.Compares) {d : Option DataType} (hv : v.Conforms d n)
    (hw : w.Conforms d m) : Typed (compareValues A p v w) (some .boolean) (n || m) := by
  have hvn : v = .null → n = true := by
    rintro rfl
    rcases hv with ⟨-, h⟩ | ⟨h, -⟩
    · exact h
    · exact absurd rfl h
  have hwn : w = .null → m = true := by
    rintro rfl
    rcases hw with ⟨-, h⟩ | ⟨h, -⟩
    · exact h
    · exact absurd rfl h
  by_cases hv0 : v = .null
  · subst hv0
    have he : compareValues A p .null w = .ok .null := by unfold compareValues; rfl
    rw [he]
    exact .ok (Scalar.null_conforms (by rw [hvn rfl]; rfl))
  · by_cases hw0 : w = .null
    · subst hw0
      have he : compareValues A p v .null = .ok .null := by unfold compareValues; cases v <;> rfl
      rw [he]
      exact .ok (Scalar.null_conforms (by rw [hwn rfl, Bool.or_true]))
    · -- both values are of the one type
      cases d with
      | none => exact absurd (Scalar.conforms_none hv) hv0
      | some d =>
        cases d with
        | int64 =>
          obtain ⟨a, rfl, ha⟩ := (Scalar.conforms_int hv).resolve_left (fun h => hv0 h.1)
          obtain ⟨b, rfl, hb⟩ := (Scalar.conforms_int hw).resolve_left (fun h => hw0 h.1)
          simp only [compareValues, validateInt64_eq_ok.2 ⟨rfl, ha⟩, validateInt64_eq_ok.2 ⟨rfl, hb⟩]
          exact compareBy_typed hp _ _ _ _ _
        | float64 =>
          obtain ⟨a, rfl⟩ := (Scalar.conforms_float hv).resolve_left (fun h => hv0 h.1)
          obtain ⟨b, rfl⟩ := (Scalar.conforms_float hw).resolve_left (fun h => hw0 h.1)
          exact compareBy_typed hp _ _ _ _ _
        | boolean =>
          obtain ⟨a, rfl⟩ := (Scalar.conforms_boolean hv).resolve_left (fun h => hv0 h.1)
          obtain ⟨b, rfl⟩ := (Scalar.conforms_boolean hw).resolve_left (fun h => hw0 h.1)
          exact compareBy_typed hp _ _ _ _ _
        | text =>
          obtain ⟨a, rfl⟩ := (Scalar.conforms_text hv).resolve_left (fun h => hv0 h.1)
          obtain ⟨b, rfl⟩ := (Scalar.conforms_text hw).resolve_left (fun h => hw0 h.1)
          exact compareBy_typed hp _ _ _ _ _

theorem intArith_div (a b : Int) : intArith .div a b = a.tdiv b := by
  unfold intArith
  have hneg : ∀ i : Nat, ¬ (i : Int) < 0 := fun i => by omega
  obtain ⟨i, rfl | rfl⟩ := a.eq_nat_or_neg
  · obtain ⟨j, rfl | rfl⟩ := b.eq_nat_or_neg
    · rw [if_neg (by simp [hneg]), Int.natAbs_natCast, Int.natAbs_natCast, ← Int.ofNat_tdiv]
    · rw [Int.tdiv_neg, ← Int.ofNat_tdiv, Int.natAbs_natCast, Int.natAbs_neg, Int.natAbs_natCast]
      rcases Nat.eq_zero_or_pos j with rfl | hj
      · simp
      · rw [if_pos (by simp [hj])]
  · obtain ⟨j, rfl | rfl⟩ := b.eq_nat_or_neg
    · rw [Int.neg_tdiv, ← Int.ofNat_tdiv, Int.natAbs_natCast, Int.natAbs_neg, Int.natAbs_natCast]
      rcases Nat.eq_zero_or_pos i with rfl | hi
      · simp
      · rw [if_pos (by simp [hi])]
    · rw [Int.neg_tdiv, Int.tdiv_neg, neg_neg, ← Int.ofNat_tdiv, Int.natAbs_neg, Int.natAbs_neg, Int.natAbs_natCast,
        Int.natAbs_natCast]
      rcases Nat.eq_zero_or_pos i with rfl | hi
      · simp
      · rcases Nat.eq_zero_or_pos j with rfl | hj
        · simp
        · rw [if_neg (by simp [hi, hj])]

/-- **Arithmetic on operands of one numeric type**: a value of that type, or an arithmetic error. -/
theorem arithValue_typed {p : BinaryOperator} {d : DataType} (hd : d.Numeric)
    (hv : v.Conforms (some d) n) (hw : w.Conforms (some d) m) : Typed (arithValue A p d v w) (some d) (n || m) := by
  have hvn : v = .null → n = true := by
    rintro rfl
    rcases hv with ⟨-, h⟩ | ⟨h, -⟩
    · exact h
    · exact absurd rfl h
  have hwn : w = .null → m = true := by
    rintro rfl
    rcases hw with ⟨-, h⟩ | ⟨h, -⟩
    · exact h
    · exact absurd rfl h
  unfold arithValue
  split
  · rename_i h0
    refine .ok (Scalar.null_conforms ?_)
    rcases h0 with h | h
    · rw [hvn h]; rfl
    · rw [hwn h, Bool.or_true]
  · rename_i h0
    rw [not_or] at h0
    split
    · exact ⟨fun u hu => absurd hu raise_ne_ok, fun e he => by cases he; exact Or.inr rfl⟩
    · rcases hd with rfl | rfl
      · obtain ⟨a, rfl, -⟩ := (Scalar.conforms_int hv).resolve_left (fun h => h0.1 h.1)
        obtain ⟨b, rfl, -⟩ := (Scalar.conforms_int hw).resolve_left (fun h => h0.2 h.1)
        simp only [if_true]
        refine ⟨fun u hu => ?_, fun e he => ?_⟩
        · obtain ⟨k, hk, hu⟩ := bind_eq_ok.1 hu
          cases hu
          obtain ⟨rfl, hr⟩ := validateInt64_eq_ok.1 hk
          exact Scalar.int_conforms hr
        · cases hk : validateInt64 (intArith p a b) with
          | ok k => rw [hk] at he; cases he
          | error e' => rw [hk] at he; cases he; exact Or.inl (validateInt64_error hk)
      · obtain ⟨a, rfl⟩ := (Scalar.conforms_float hv).resolve_left (fun h => h0.1 h.1)
        obtain ⟨b, rfl⟩ := (Scalar.conforms_float hw).resolve_left (fun h => h0.2 h.1)
        rw [if_neg (by decide)]
        exact .ok (Scalar.float_conforms _)

theorem binaryValue_typed {p : BinaryOperator} {l r : Option DataType} {d : DataType} (ht : OperandTypes p l r d)
    (hv : v.Conforms l n) (hw : w.Conforms r m) : Typed (binaryValue A p d v w) (some d) (n || m) := by
  cases p with
  | and | or =>
    obtain ⟨rfl, rfl, rfl⟩ := ht
    first | exact (logic_typed hv hw).1 | exact (logic_typed hv hw).2
  | add | sub | mul | div =>
    obtain ⟨rfl, rfl, hd⟩ := ht
    exact arithValue_typed hd hv hw
  | eq | ne | lt | le | gt | ge =>
    obtain ⟨rfl, rfl⟩ := ht
    exact compareValues_typed (by simp [BinaryOperator.Compares]) hv hw

/-- Of the branches of unary minus, only the integer one gives an integer. -/
theorem unaryValue_minus_int {d : DataType} {v : Scalar} {k : Int} (h : unaryValue .minus d v = .ok (.int k)) :
    ∃ m, v = .int m ∧ k = -m := by
  cases v with
  | int m =>
    simp only [unaryValue] at h
    split at h
    · obtain ⟨k', hk, h⟩ := bind_eq_ok.1 h
      cases h
      exact ⟨m, rfl, (validateInt64_eq_ok.1 hk).1⟩
    · exact absurd h raise_ne_ok
  | float bits =>
    simp only [unaryValue] at h
    split at h
    · exact absurd h raise_ne_ok
    · cases h
  | null => cases h
  | bool _ | text _ => exact absurd h raise_ne_ok

/-- Of the branches of the arithmetic, only the integer one gives an integer. -/
theorem arithValue_int {p : BinaryOperator} {d : DataType} {v w : Scalar} {k : Int}
    (h : arithValue A p d v w = .ok (.int k)) :
    ∃ a b, v = .int a ∧ w = .int b ∧ k = intArith p a b ∧ ¬ (p = .div ∧ b = 0) := by
  unfold arithValue at h
  split at h
  · cases h
  · split at h
    · exact absurd h raise_ne_ok
    · rename_i hz
      split at h
      · cases v with
        | int a =>
          cases w with
          | int b =>
            obtain ⟨k', hk, h⟩ := bind_eq_ok.1 h
            cases h
            exact ⟨a, b, rfl, rfl, (validateInt64_eq_ok.1 hk).1, fun hb => hz ⟨hb.1, by simp [Scalar.isZero, hb.2]⟩⟩
          | _ => exact absurd h raise_ne_ok
        | _ => exact absurd h raise_ne_ok
      · split at h
        · cases h
        · exact absurd h raise_ne_ok

end Operations

section Evaluate

variable {A : FloatArith} {scope : List ScopeEntry} {row : ExecutionRow}

open Binder (containsAggregate)

/-- **A well-typed expression without aggregates has a value of its type, or raises an arithmetic error.** -/
theorem evaluate_typed (hp : row.computed = []) (hf : Fits scope row) : ∀ {e : BoundExpr}, WellTyped scope e →
    containsAggregate e = false → Typed (evaluate A e row) e.dataType e.nullable := by
  have hfound := ExecutionRow.found_of_plain hp
  intro e
  induction e with
  | literal v d n =>
    intro hw _
    obtain ⟨rfl, ht, hr⟩ := hw
    simp only [evaluate, hfound]
    by_cases hv : v = .null
    · exact .ok (Or.inl ⟨hv, by simp [BoundExpr.nullable, hv]⟩)
    · exact .ok (Or.inr ⟨hv, ht hv, hr⟩)
  | column b m d n =>
    intro hw _
    obtain ⟨entry, hin, htab, c, hc, rfl, rfl⟩ := hw
    obtain ⟨v, hv, hval⟩ := hf entry hin b.columnId c hc
    rw [show (⟨entry.table.tableId, b.columnId⟩ : ColumnBinding) = b by rw [htab]] at hv
    simp only [evaluate, hfound, hv]
    exact .ok (conforms_of_validateScalar hval)
  | cast o d n ih =>
    intro hw ha
    obtain ⟨rfl, hd, rfl, hwo⟩ := hw
    simp only [evaluate, hfound]
    exact (ih hwo ha).bind (fun v _ hv => castValue_typed (hd ▸ hv))
  | unary p o d n ih =>
    intro hw ha
    obtain ⟨hd, hpd, rfl, hwo⟩ := hw
    simp only [evaluate, hfound]
    exact (ih hwo ha).bind (fun v _ hv => unaryValue_typed (hd ▸ hv) hpd)
  | binary l p r d n ihl ihr =>
    intro hw ha
    obtain ⟨ht, rfl, hwl, hwr⟩ := hw
    simp only [containsAggregate, Bool.or_eq_false_iff] at ha
    simp only [evaluate, hfound]
    exact (ihl hwl ha.1).bind (fun v _ hv => (ihr hwr ha.2).bind (fun w _ hw => binaryValue_typed ht hv hw))
  | isNull o g ih =>
    intro hw ha
    simp only [evaluate, hfound]
    exact (ih hw ha).bind (fun v _ hv => .ok (Scalar.bool_conforms _))
  | function f a d n => exact fun _ ha => by cases ha
  | countStar => exact fun _ ha => by cases ha

/-- **An integer result is the exact integer**: of each operator, only the integer branch gives one. -/
theorem evaluate_exact (hp : row.computed = []) (hf : Fits scope row) : ∀ {e : BoundExpr}, WellTyped scope e →
    containsAggregate e = false → ∀ {k : Int}, evaluate A e row = .ok (.int k) → exactInt row e = some k := by
  have hfound := ExecutionRow.found_of_plain hp
  intro e
  induction e with
  | literal v d n =>
    intro _ _ k h
    simp only [evaluate, hfound] at h
    cases h
    rfl
  | column b m d n =>
    intro _ _ k h
    simp only [evaluate, hfound] at h
    simp only [exactInt]
    split at h
    · rename_i w hw
      cases h
      rw [hw]
    · exact absurd h raise_ne_ok
  | cast o d n ih =>
    intro hw ha k h
    have ht := (evaluate_typed hp hf hw ha).value _ h
    rw [BoundExpr.dataType, hw.1] at ht
    rcases Scalar.conforms_float ht with ⟨h0, -⟩ | ⟨bits, h0⟩ <;> cases h0
  | unary p o d n ih =>
    intro hw ha k h
    have ht := (evaluate_typed hp hf hw ha).value _ h
    obtain ⟨-, hpd, -, hwo⟩ := hw
    simp only [evaluate, hfound] at h
    obtain ⟨v, hv, h⟩ := bind_eq_ok.1 h
    cases p with
    | not =>
      rw [BoundExpr.dataType, show d = .boolean from hpd] at ht
      rcases Scalar.conforms_boolean ht with ⟨h0, -⟩ | ⟨b, h0⟩ <;> cases h0
    | plus =>
      cases h
      exact ih hwo ha hv
    | minus =>
      obtain ⟨m, rfl, rfl⟩ := unaryValue_minus_int h
      simp only [exactInt, ih hwo ha hv, Option.map_some]
  | binary l p r d n ihl ihr =>
    intro hw ha k h
    have ht := (evaluate_typed hp hf hw ha).value _ h
    obtain ⟨hop, -, hwl, hwr⟩ := hw
    simp only [containsAggregate, Bool.or_eq_false_iff] at ha
    simp only [evaluate, hfound] at h
    obtain ⟨v, hv, h⟩ := bind_eq_ok.1 h
    obtain ⟨w, hw, h⟩ := bind_eq_ok.1 h
    have hbool : d = .boolean → exactInt row (.binary l p r d n) = some k := by
      rintro rfl
      rcases Scalar.conforms_boolean ht with ⟨h0, -⟩ | ⟨b, h0⟩ <;> cases h0
    cases p with
    | and | or => exact hbool hop.2.2
    | eq | ne | lt | le | gt | ge => exact hbool hop.2
    | add | sub | mul =>
      obtain ⟨a, b, rfl, rfl, rfl, -⟩ := arithValue_int h
      simp only [exactInt, ihl hwl ha.1 hv, ihr hwr ha.2 hw, Option.bind_some, Option.map_some, intArith]
    | div =>
      obtain ⟨a, b, rfl, rfl, rfl, hb⟩ := arithValue_int h
      simp only [exactInt, ihl hwl ha.1 hv, ihr hwr ha.2 hw, Option.bind_some, intArith_div]
      rw [if_neg (fun h0 => hb ⟨rfl, h0⟩)]
  | isNull o g => 
    intro hw ha k h
    have ht := (evaluate_typed hp hf (e := .isNull o g) hw ha).value _ h
    rcases Scalar.conforms_boolean ht with ⟨h0, -⟩ | ⟨b, h0⟩ <;> cases h0
  | function f a d n => exact fun _ ha => by cases ha
  | countStar => exact fun _ ha => by cases ha

/-- The row without its computed values. -/
def ExecutionRow.cellsOnly (row : ExecutionRow) : ExecutionRow := { row with computed := [] }

/-- Every computed value is the value of its expression on the cells. -/
def ExecutionRow.Truthful (A : FloatArith) (row : ExecutionRow) : Prop :=
  ∀ e v, row.found e = some v → evaluate A e row.cellsOnly = .ok v

theorem truthful_of_plain (h : row.computed = []) : row.Truthful A := by
  intro e v hv
  cases hv.symm.trans (ExecutionRow.found_of_plain h e)

theorem evaluate_found {e : BoundExpr} {w : Scalar} (h : row.found e = some w) : evaluate A e row = .ok w := by
  cases e <;> simp only [evaluate, h]

/-- **True computed values change nothing.** -/
theorem evaluate_cellsOnly (h : row.Truthful A) (e : BoundExpr) : evaluate A e row = evaluate A e row.cellsOnly := by
  cases hf : row.found e with
  | some w => rw [h e w hf, evaluate_found hf]
  | none =>
    have hn := @ExecutionRow.found_of_plain row.cellsOnly rfl e
    cases e with
    | literal v d n       => simp only [evaluate, hf, hn]
    | column b name d n   =>
      simp only [evaluate, hf, hn]
      rfl
    | cast o d n          => simp only [evaluate, hf, hn, evaluate_cellsOnly h o]
    | unary p o d n       => simp only [evaluate, hf, hn, evaluate_cellsOnly h o]
    | binary l p r d n    => simp only [evaluate, hf, hn, evaluate_cellsOnly h l, evaluate_cellsOnly h r]
    | isNull o g          => simp only [evaluate, hf, hn, evaluate_cellsOnly h o]
    | function f a d n    => simp only [evaluate, hf, hn]
    | countStar           => simp only [evaluate, hf, hn]

theorem exactInt_cellsOnly (row : ExecutionRow) (e : BoundExpr) : exactInt row.cellsOnly e = exactInt row e := by
  fun_induction exactInt row e <;> simp_all [exactInt, ExecutionRow.cellsOnly]

/-- **Expression type soundness.** -/
theorem bound_expression_sound {K : Casing} {context : String} {allow inside : Bool} {e : Expr} {b : BoundExpr}
    (hb : Binder.bindExpression K scope context allow inside e = .ok b) (ha : containsAggregate b = false)
    (hp : row.Truthful A) (hf : Fits scope row) :
    (∀ v, evaluate A b row = .ok v →
      ((v = .null ∧ b.nullable = true) ∨ (v ≠ .null ∧ inferType v = b.dataType)) ∧
        ∀ n, v = .int n → int64Min ≤ n ∧ n ≤ int64Max ∧ exactInt row b = some n) ∧
      ∀ err, evaluate A b row = .error err → ArithmeticError err := by
  have hw := Binder.bindExpression_wellTyped hb
  have hcells : Fits scope row.cellsOnly := hf
  have hplain : row.cellsOnly.computed = [] := rfl
  rw [evaluate_cellsOnly hp b]
  have ht := evaluate_typed (A := A) hplain hcells hw ha
  refine ⟨fun v hv => ?_, ht.error⟩
  have hc := ht.value v hv
  refine ⟨hc.imp_right (fun h => ⟨h.1, h.2.1⟩), fun n hn => ?_⟩
  subst hn
  obtain ⟨-, -, hr⟩ := hc.resolve_left (fun h => by cases h.1)
  rw [← exactInt_cellsOnly row b]
  exact ⟨(hr n rfl).1, (hr n rfl).2, evaluate_exact hplain hcells hw ha hv⟩

end Evaluate

/-- An arithmetic for inputs without floats. -/
def FloatArith.unused : FloatArith where
  add _ _ := 0#64
  sub _ _ := 0#64
  mul _ _ := 0#64
  div _ _ := 0#64
  ofInt _ := 0#64
  sum _   := 0#64

/-- The tables of the Unicode names, on ASCII. -/
def Casing.ascii : Casing := ⟨List.map Char.toLower, List.map Char.toUpper⟩

/-- A scope of one table with one column, `a INT NOT NULL`. -/
def oneColumn : List ScopeEntry := [⟨⟨1, ⟨[⟨['a'], .int64, false⟩]⟩⟩, [['t']]⟩]

/-- `a` where `a` is -7, with the column's value computed before. -/
def computedRow : ExecutionRow := ⟨[(⟨1, 0⟩, .int (-7))], [], [(.expr (.column ⟨1, 0⟩ ['a'] .int64 false), .int (-7))]⟩

theorem canon_eq_column {e : BoundExpr} {b : ColumnBinding} {name : List Char} {d : DataType} {n : Bool}
    (h : e.canon = .column b name d n) : e = .column b name d n := by
  cases e <;> first | exact h | cases h

theorem computedRow_truthful : computedRow.Truthful .unused := by
  intro e v h
  unfold ExecutionRow.found computedRow at h
  split at h
  · by_cases he : ComputedKey.expr e.canon = .expr (.column ⟨1, 0⟩ ['a'] .int64 false)
    · rw [canon_eq_column (ComputedKey.expr.inj he)] at h ⊢
      obtain rfl : Scalar.int (-7) = v := Option.some.inj h
      rfl
    · rw [List.lookup_cons, beq_eq_false_iff_ne.2 he] at h
      cases h
  · cases h
/-- `a / 2` on this row: the value is an INT64, in range, and the exact quotient. -/
theorem bound_expression_sound_quotient :
    (∀ v, evaluate .unused (.binary (.column ⟨1, 0⟩ ['a'] .int64 false) .div (.literal (.int 2) (some .int64) false) .int64 false)
        computedRow = .ok v →
      ((v = .null ∧ false = true) ∨ (v ≠ .null ∧ inferType v = some .int64)) ∧
        ∀ n, v = .int n → int64Min ≤ n ∧ n ≤ int64Max ∧ exactInt computedRow
          (.binary (.column ⟨1, 0⟩ ['a'] .int64 false) .div (.literal (.int 2) (some .int64) false) .int64 false) = some n) ∧
      ∀ err, evaluate .unused (.binary (.column ⟨1, 0⟩ ['a'] .int64 false) .div (.literal (.int 2) (some .int64) false)
        .int64 false) computedRow = .error err → ArithmeticError err :=
  @bound_expression_sound .unused oneColumn _ .ascii "WHERE" false false
    (.binary (.columnRef ['A'] none) .div (.literal (.int 2))) _ (by decide) rfl computedRow_truthful
    (by
      intro entry he i c hc
      rw [oneColumn, List.mem_singleton] at he
      subst he
      cases i with
      | zero => cases hc; exact ⟨.int (-7), rfl, by decide⟩
      | succ i => cases hc)

end MiniPostgres
