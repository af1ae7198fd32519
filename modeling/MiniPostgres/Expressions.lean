import MiniPostgres.Index
/-!
# Expressions — bound expressions and their evaluation

`sql/bound.py`, `row.py`, `executor/expressions.py` and the three-valued operations of `types.py`.  The arithmetic of Python
floats is a parameter (`FloatArith`); their order is read off the bit patterns.  A literal of the lexer is finite, so a NaN
literal comes from constant folding and is an object of its own, which no lookup finds again.
-/
namespace MiniPostgres

/-! ## Floats -/

def negativeZero : BitVec 64 := 0x8000000000000000#64

/-- One pattern for the two zeros, which `==` does not tell apart. -/
def floatCanon (bits : BitVec 64) : BitVec 64 := if bits = negativeZero then 0#64 else bits

/-- The place of a pattern in the order of the floats; both zeros have the place 0. -/
def floatPlace (bits : BitVec 64) : Int :=
  if 2 ^ 63 ≤ bits.toNat then -((bits.toNat : Int) - 2 ^ 63) else bits.toNat

def floatEq (a b : BitVec 64) : Bool := !isNan a && !isNan b && decide (floatPlace a = floatPlace b)
def floatLt (a b : BitVec 64) : Bool := !isNan a && !isNan b && decide (floatPlace a < floatPlace b)
def floatLe (a b : BitVec 64) : Bool := !isNan a && !isNan b && decide (floatPlace a ≤ floatPlace b)

def floatNeg (bits : BitVec 64) : BitVec 64 := bits ^^^ negativeZero

/-- Python's float arithmetic. -/
structure FloatArith where
  add   : BitVec 64 → BitVec 64 → BitVec 64
  sub   : BitVec 64 → BitVec 64 → BitVec 64
  mul   : BitVec 64 → BitVec 64 → BitVec 64
  div   : BitVec 64 → BitVec 64 → BitVec 64
  ofInt : Int → BitVec 64
  sum   : List (BitVec 64) → BitVec 64

/-! ## Scalars -/

/-- Two values that Python's `==` does not tell apart have the same form. -/
def Scalar.canon : Scalar → Scalar
  | .float bits => .float (floatCanon bits)
  | v           => v

def Scalar.isNanValue : Scalar → Bool
  | .float bits => isNan bits
  | _           => false

inductive UnaryOperator
  | not | plus | minus
  deriving DecidableEq, Repr

inductive BinaryOperator
  | and | or | eq | ne | lt | le | gt | ge | add | sub | mul | div
  deriving DecidableEq, Repr

inductive AggregateName
  | count | sum | avg | min | max
  deriving DecidableEq, Repr

def AggregateName.value : AggregateName → String
  | .count => "COUNT"
  | .sum   => "SUM"
  | .avg   => "AVG"
  | .min   => "MIN"
  | .max   => "MAX"

structure ColumnBinding where
  tableId  : Nat
  columnId : Nat
  deriving DecidableEq, Repr

/-- The bound expressions.  A function has one argument or is `COUNT(*)`; `IS NULL` is a non-null BOOLEAN. -/
inductive BoundExpr
  | literal (value : Scalar) (dataType : Option DataType) (nullable : Bool)
  | column (binding : ColumnBinding) (name : List Char) (dataType : DataType) (nullable : Bool)
  | cast (operand : BoundExpr) (dataType : DataType) (nullable : Bool)
  | unary (operator : UnaryOperator) (operand : BoundExpr) (dataType : DataType) (nullable : Bool)
  | binary (left : BoundExpr) (operator : BinaryOperator) (right : BoundExpr) (dataType : DataType) (nullable : Bool)
  | isNull (operand : BoundExpr) (negated : Bool)
  | function (name : AggregateName) (argument : BoundExpr) (dataType : DataType) (nullable : Bool)
  | countStar
  deriving DecidableEq, Repr

namespace BoundExpr

def dataType : BoundExpr → Option DataType
  | literal _ d _     => d
  | column _ _ d _    => some d
  | cast _ d _        => some d
  | unary _ _ d _     => some d
  | binary _ _ _ d _  => some d
  | isNull _ _        => some .boolean
  | function _ _ d _  => some d
  | countStar         => some .int64

def nullable : BoundExpr → Bool
  | literal _ _ n     => n
  | column _ _ _ n    => n
  | cast _ _ n        => n
  | unary _ _ _ n     => n
  | binary _ _ _ _ n  => n
  | isNull _ _        => false
  | function _ _ _ n  => n
  | countStar         => false

/-- The form of an expression as a key: equal expressions have equal forms. -/
def canon : BoundExpr → BoundExpr
  | literal v d n     => literal v.canon d n
  | cast o d n        => cast o.canon d n
  | unary p o d n     => unary p o.canon d n
  | binary l p r d n  => binary l.canon p r.canon d n
  | isNull o g        => isNull o.canon g
  | function f a d n  => function f a.canon d n
  | e                 => e

/-- An expression that holds a NaN literal is equal to no other object. -/
def nanFree : BoundExpr → Bool
  | literal v _ _     => !v.isNanValue
  | cast o _ _        => o.nanFree
  | unary _ o _ _     => o.nanFree
  | binary l _ r _ _  => l.nanFree && r.nanFree
  | isNull o _        => o.nanFree
  | function _ a _ _  => a.nanFree
  | _                 => true

def bindings : BoundExpr → List ColumnBinding
  | column b _ _ _    => [b]
  | cast o _ _        => o.bindings
  | unary _ o _ _     => o.bindings
  | isNull o _        => o.bindings
  | binary l _ r _ _  => l.bindings ++ r.bindings
  | function _ a _ _  => a.bindings
  | _                 => []

def isFunction : BoundExpr → Bool
  | function .. => true
  | countStar   => true
  | _           => false

/-- `_contains_binding`: a function is seen at the top of the expression only. -/
def containsBinding (e : BoundExpr) : Bool := !e.bindings.isEmpty || e.isFunction

end BoundExpr

/-! ## Rows -/

inductive ComputedKey
  | slot (index : Nat)
  | expr (expression : BoundExpr)
  deriving DecidableEq

/-- `ExecutionRow`; the newest entry of a key comes first. -/
structure ExecutionRow where
  cells    : List (ColumnBinding × Scalar)
  tids     : List (Nat × TID)
  computed : List (ComputedKey × Scalar)

namespace ExecutionRow

def empty : ExecutionRow := ⟨[], [], []⟩

/-- `row.computed[key]`, when the key is there. -/
def found (row : ExecutionRow) (e : BoundExpr) : Option Scalar :=
  if e.nanFree then row.computed.lookup (.expr e.canon) else none

theorem found_of_plain {row : ExecutionRow} (h : row.computed = []) (e : BoundExpr) : row.found e = none := by
  unfold found
  rw [h]
  exact ite_self none

/-- `computed[expression] = value`. -/
def put (row : ExecutionRow) (e : BoundExpr) (v : Scalar) : ExecutionRow :=
  { row with computed := (.expr e.canon, v) :: row.computed }

def putSlot (row : ExecutionRow) (index : Nat) (v : Scalar) : ExecutionRow :=
  { row with computed := (.slot index, v) :: row.computed }

/-- The values of two rows under common keys overlap. -/
def overlaps {α β : Type} [DecidableEq α] (a b : List (α × β)) : Bool := a.any (fun x => b.any (fun y => decide (x.1 = y.1)))

def merge (a b : ExecutionRow) : Result ExecutionRow :=
  if overlaps a.cells b.cells then raise .valueError "overlapping column bindings"
  else if overlaps a.tids b.tids then raise .valueError "overlapping table TIDs"
  else if overlaps a.computed b.computed then raise .valueError "overlapping computed values"
  else .ok ⟨a.cells ++ b.cells, a.tids ++ b.tids, a.computed ++ b.computed⟩

end ExecutionRow

/-! ## Three-valued logic -/

def requireSqlBool : Scalar → Result (Option Bool)
  | .null   => .ok none
  | .bool b => .ok (some b)
  | _       => raise .typeMismatch "boolean operand required"

def Scalar.ofSqlBool : Option Bool → Scalar
  | none   => .null
  | some b => .bool b

def sqlNot (v : Scalar) : Result Scalar := do
  let b ← requireSqlBool v
  .ok (.ofSqlBool (b.map (!·)))

def sqlAnd (left right : Scalar) : Result Scalar := do
  let l ← requireSqlBool left
  let r ← requireSqlBool right
  .ok (.ofSqlBool (if l = some false ∨ r = some false then some false else if l = none ∨ r = none then none else some true))

def sqlOr (left right : Scalar) : Result Scalar := do
  let l ← requireSqlBool left
  let r ← requireSqlBool right
  .ok (.ofSqlBool (if l = some true ∨ r = some true then some true else if l = none ∨ r = none then none else some false))

/-- The outcome of a comparison operator on values with an equality and an order. -/
def compareBy (operator : BinaryOperator) (eq lt le gt ge : Bool) : Result Scalar :=
  match operator with
  | .eq => .ok (.bool eq)
  | .ne => .ok (.bool (!eq))
  | .lt => .ok (.bool lt)
  | .le => .ok (.bool le)
  | .gt => .ok (.bool gt)
  | .ge => .ok (.bool ge)
  | _   => raise .typeMismatch "unsupported comparison operator"

def Scalar.typeName (v : Scalar) : String := ((inferType v).map DataType.value).getD ""

def compareFloats (operator : BinaryOperator) (a b : BitVec 64) : Result Scalar :=
  compareBy operator (floatEq a b) (floatLt a b) (floatLe a b) (floatLt b a) (floatLe b a)

/-- `widen_numeric_pair` and the comparison of equal types. -/
def compareValues (A : FloatArith) (operator : BinaryOperator) (left right : Scalar) : Result Scalar :=
  match left, right with
  | .null, _ => .ok .null
  | _, .null => .ok .null
  | .int a, .int b => do
    let a ← validateInt64 a
    let b ← validateInt64 b
    compareBy operator (decide (a = b)) (decide (a < b)) (decide (a ≤ b)) (decide (b < a)) (decide (b ≤ a))
  | .float a, .float b => compareFloats operator a b
  | .int a, .float b   => compareFloats operator (A.ofInt a) b
  | .float a, .int b   => compareFloats operator a (A.ofInt b)
  | .bool a, .bool b   =>
    compareBy operator (a == b) (!a && b) (!a || b) (!b && a) (!b || a)
  | .text a, .text b   =>
    compareBy operator (decide (a = b)) (decide (a < b)) (decide (a < b ∨ a = b)) (decide (b < a)) (decide (b < a ∨ b = a))
  | l, r => raise .typeMismatch ("cannot compare " ++ l.typeName ++ " with " ++ r.typeName)

/-! ## Evaluation -/

/-- `float(value)`; the binder casts integers only. -/
def castValue (A : FloatArith) (target : DataType) (v : Scalar) : Result Scalar :=
  match v with
  | .null => .ok .null
  | v =>
    if target ≠ .float64 then raise .typeMismatch ("unsupported cast target: " ++ target.value)
    else
      match v with
      | .int n      => .ok (.float (A.ofInt n))
      | .float bits => .ok (.float bits)
      | _           => raise .typeError "float() argument"

def unaryValue (operator : UnaryOperator) (dataType : DataType) (v : Scalar) : Result Scalar :=
  match operator with
  | .not => sqlNot v
  | .plus => .ok v
  | .minus =>
    match v with
    | .null => .ok .null
    | .int n => if dataType = .int64 then do let m ← validateInt64 (-n); .ok (.int m) else raise .typeError "bad operand"
    | .float bits => if dataType = .int64 then raise .typeMismatch "expected INT64" else .ok (.float (floatNeg bits))
    | _ => raise .typeError "bad operand type for unary -"

/-- The integer branch of `_binary`; a quotient is cut towards zero. -/
def intArith (operator : BinaryOperator) (a b : Int) : Int :=
  match operator with
  | .add => a + b
  | .sub => a - b
  | .mul => a * b
  | _    => if (decide (a < 0)) != (decide (b < 0)) then -((a.natAbs / b.natAbs : Nat) : Int) else
    ((a.natAbs / b.natAbs : Nat) : Int)

def floatArith (A : FloatArith) (operator : BinaryOperator) (a b : BitVec 64) : BitVec 64 :=
  match operator with
  | .add => A.add a b
  | .sub => A.sub a b
  | .mul => A.mul a b
  | _    => A.div a b

/-- `right == 0`. -/
def Scalar.isZero : Scalar → Bool
  | .int n      => n == 0
  | .float bits => floatEq bits 0#64
  | .bool b     => !b
  | _           => false

/-- The operand of a FLOAT64 operator; the binder has cast it. -/
def Scalar.toFloat (A : FloatArith) : Scalar → Option (BitVec 64)
  | .int n      => some (A.ofInt n)
  | .float bits => some bits
  | _           => none

def arithValue (A : FloatArith) (operator : BinaryOperator) (dataType : DataType) (left right : Scalar) : Result Scalar :=
  if left = .null ∨ right = .null then .ok .null
  else if operator = .div ∧ right.isZero then raise .typeMismatch "division by zero"
  else if dataType = .int64 then
    match left, right with
    | .int a, .int b => do
      let n ← validateInt64 (intArith operator a b)
      .ok (.int n)
    | _, _ => raise .typeMismatch "INT64 arithmetic produced a non-integer"
  else
    match left.toFloat A, right.toFloat A with
    | some a, some b => .ok (.float (floatArith A operator a b))
    | _, _           => raise .typeError "unsupported operand types"

def binaryValue (A : FloatArith) (operator : BinaryOperator) (dataType : DataType) (left right : Scalar) : Result Scalar :=
  match operator with
  | .and => sqlAnd left right
  | .or  => sqlOr left right
  | .eq | .ne | .lt | .le | .gt | .ge => compareValues A operator left right
  | _ => arithValue A operator dataType left right

def evaluate (A : FloatArith) : BoundExpr → ExecutionRow → Result Scalar
  | .literal v d n, row =>
    match row.found (.literal v d n) with
    | some w => .ok w
    | none   => .ok v
  | .column b name d n, row =>
    match row.found (.column b name d n) with
    | some w => .ok w
    | none   =>
      match row.cells.lookup b with
      | some w => .ok w
      | none   => raise .typeMismatch ("column is unavailable: " ++ String.ofList name)
  | .cast o d n, row =>
    match row.found (.cast o d n) with
    | some w => .ok w
    | none   => do
      let v ← evaluate A o row
      castValue A d v
  | .unary p o d n, row =>
    match row.found (.unary p o d n) with
    | some w => .ok w
    | none   => do
      let v ← evaluate A o row
      unaryValue p d v
  | .binary l p r d n, row =>
    match row.found (.binary l p r d n) with
    | some w => .ok w
    | none   => do
      let v ← evaluate A l row
      let w ← evaluate A r row
      binaryValue A p d v w
  | .isNull o g, row =>
    match row.found (.isNull o g) with
    | some w => .ok w
    | none   => do
      let v ← evaluate A o row
      .ok (.bool (decide (v = .null) != g))
  | .function f a d n, row =>
    match row.found (.function f a d n) with
    | some w => .ok w
    | none   => raise .typeMismatch ("aggregate value is unavailable: " ++ f.value)
  | .countStar, row =>
    match row.found .countStar with
    | some w => .ok w
    | none   => raise .typeMismatch "aggregate value is unavailable: COUNT"

/-- A literal is its value, unless the row has computed it. -/
example (A : FloatArith) {v : Scalar} {d : Option DataType} {n : Bool} {row : ExecutionRow}
    (h : row.found (.literal v d n) = none) :
    evaluate A (.literal v d n) row = .ok v := by simp only [evaluate, h]

/-! ## Folding -/

/-- The end of `fold_expression`: what reads nothing is evaluated. -/
def foldNode (A : FloatArith) (rewritten : BoundExpr) : Result BoundExpr :=
  if rewritten.containsBinding then .ok rewritten
  else do
    let value ← evaluate A rewritten .empty
    .ok (.literal value rewritten.dataType (decide (value = .null)))

def foldExpression (A : FloatArith) : BoundExpr → Result BoundExpr
  | .literal v d n     => .ok (.literal v d n)
  | .column b m d n    => .ok (.column b m d n)
  | .cast o d n        => do
    let o ← foldExpression A o
    foldNode A (.cast o d n)
  | .unary p o d n     => do
    let o ← foldExpression A o
    foldNode A (.unary p o d n)
  | .binary l p r d n  => do
    let l ← foldExpression A l
    let r ← foldExpression A r
    foldNode A (.binary l p r d n)
  | .isNull o g        => do
    let o ← foldExpression A o
    foldNode A (.isNull o g)
  | .function f a d n  => do
    let a ← foldExpression A a
    .ok (.function f a d n)
  | .countStar         => .ok .countStar

end MiniPostgres
