import Mathlib
/-!
# Types — scalars, columns and rows

The value domain of `types.py` and the row check of `catalog/model.py`.  A Python scalar is an `int`, a `float`, a
`bool`, a `str` or `None`; a `float` is kept as its 64-bit pattern and a `str` as its code points, so that equality of
scalars is decidable.  A call that raises returns `Except.error` with the exception's class and text.
-/
namespace MiniPostgres

/-- The exception classes of `errors.py` that a modelled function raises, and the built-in ones it uses. -/
inductive ErrorClass
  | typeMismatch | numericOverflow | constraintViolation | serializationConflict | transactionAborted
  | rowTooLarge | pageFull | corruptPage | corruptWal | catalogError | valueError | runtimeError | keyError | indexError
  | structError | osError | typeError | bindError | bufferPoolFull | databaseClosed | deadlockDetected | sqlSyntaxError
  deriving DecidableEq, Repr

/-- One raised exception. -/
structure Error where
  kind    : ErrorClass
  message : String
  deriving DecidableEq, Repr

/-- What a Python call that may raise gives back. -/
abbrev Result (α : Type) := Except Error α

def raise {α : Type} (kind : ErrorClass) (message : String) : Result α := .error ⟨kind, message⟩

/-- **A sequence of two calls returns exactly when both do.** -/
theorem bind_eq_ok {α β : Type} {x : Result α} {f : α → Result β} {b : β} :
    (x >>= f) = .ok b ↔ ∃ a, x = .ok a ∧ f a = .ok b := by
  cases x with
  | error e => simp [bind, Except.bind]
  | ok a => simp [bind, Except.bind]

theorem raise_ne_ok {α : Type} {k : ErrorClass} {m : String} {a : α} : raise k m ≠ .ok a := by
  unfold raise; intro h; cases h

inductive DataType
  | int64 | float64 | boolean | text
  deriving DecidableEq, Repr

def DataType.value : DataType → String
  | .int64   => "int64"
  | .float64 => "float64"
  | .boolean => "boolean"
  | .text    => "text"

inductive Scalar
  | null
  | int (n : Int)
  | float (bits : BitVec 64)
  | bool (b : Bool)
  | text (s : List Char)
  deriving DecidableEq, Repr

abbrev Values := List Scalar

def int64Min : Int := -(2 ^ 63)
def int64Max : Int := 2 ^ 63 - 1

def inferType : Scalar → Option DataType
  | .null    => none
  | .bool _  => some .boolean
  | .int _   => some .int64
  | .float _ => some .float64
  | .text _  => some .text

def validateInt64 (n : Int) : Result Int :=
  if n < int64Min ∨ int64Max < n then raise .numericOverflow ("INT64 value out of range: " ++ toString n)
  else .ok n

def validateScalar (value : Scalar) (dataType : DataType) (nullable : Bool) : Result Scalar :=
  match inferType value with
  | none => if nullable then .ok .null else raise .typeMismatch "NULL is not allowed"
  | some actual =>
    if actual ≠ dataType then
      raise .typeMismatch ("expected " ++ dataType.value ++ ", got " ++ actual.value)
    else
      match value with
      | .int n => do let m ← validateInt64 n; .ok (.int m)
      | v      => .ok v

/-- The UTF-8 bytes of a text. -/
def utf8 (s : List Char) : List UInt8 := s.flatMap String.utf8EncodeChar

/-- `Column` of `catalog/model.py`; a primary-key column is built non-null and unique. -/
structure Column where
  name     : List Char
  dataType : DataType
  nullable : Bool := true
  deriving DecidableEq, Repr

structure Schema where
  columns : List Column
  deriving DecidableEq, Repr

/-- The loop of `validate_row` over the zipped columns and values. -/
def validateColumns : List Column → Values → Result Values
  | c :: cs, v :: vs =>
    match validateScalar v c.dataType c.nullable with
    | .ok v' => do let vs' ← validateColumns cs vs; .ok (v' :: vs')
    | .error e =>
      if e.kind = .typeMismatch then
        raise .catalogError ("column " ++ String.ofList c.name ++ ": " ++ e.message)
      else .error e
  | _, _ => .ok []

def Schema.validateRow (schema : Schema) (values : Values) : Result Values :=
  if values.length ≠ schema.columns.length then
    raise .catalogError
      ("expected " ++ toString schema.columns.length ++ " values, received " ++ toString values.length)
  else validateColumns schema.columns values

theorem validateScalar_eq {value v : Scalar} {d : DataType} {nullable : Bool}
    (h : validateScalar value d nullable = .ok v) : v = value := by
  unfold validateScalar at h
  cases value with
  | null =>
    simp only [inferType] at h
    split at h
    · cases h; rfl
    · exact absurd h raise_ne_ok
  | int n =>
    simp only [inferType] at h
    split at h
    · exact absurd h raise_ne_ok
    · obtain ⟨m, hm, he⟩ := bind_eq_ok.1 h
      unfold validateInt64 at hm
      split at hm
      · exact absurd hm raise_ne_ok
      · cases hm; cases he; rfl
  | float _ | bool _ | text _ =>
    simp only [inferType] at h
    split at h
    · exact absurd h raise_ne_ok
    · cases h; rfl

theorem validateColumns_eq : ∀ (cs : List Column) (vs : Values) {ws : Values}, vs.length = cs.length →
    validateColumns cs vs = .ok ws → ws = vs
  | [], [], _, _, h => by cases h; rfl
  | c :: cs, v :: vs, ws, hl, h => by
    simp only [validateColumns] at h
    split at h
    · rename_i v' hv
      obtain ⟨vs', hvs, he⟩ := bind_eq_ok.1 h
      cases he
      rw [validateScalar_eq hv, validateColumns_eq cs vs (by simpa using hl) hvs]
    · split at h
      · exact absurd h raise_ne_ok
      · cases h

/-- **An accepted row is returned unchanged.** -/
theorem Schema.validateRow_eq {schema : Schema} {values ws : Values} (h : schema.validateRow values = .ok ws) :
    ws = values := by
  unfold Schema.validateRow at h
  split at h
  · exact absurd h raise_ne_ok
  · rename_i hl
    exact validateColumns_eq _ _ (not_not.1 hl) h

end MiniPostgres
