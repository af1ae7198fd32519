import MiniPostgres.Binder
import MiniPostgres.Lib.Text
/-!
# Lexer — tokens of a SQL text

`sql/tokens.py` and `sql/lexer.py`.  What the lexer takes of Python is a parameter (`Unicode`): the character tables behind
`str.isalpha`, `str.isspace`, `str.isdigit` and `str.isalnum`, `str.upper`, `repr`, the digits limit of `int`, and the double
nearest to a decimal numeral.  A source is a list of code points that are characters: the lone surrogates that a `str` may hold
are left out.
-/
namespace MiniPostgres

/-! ## Tokens -/

inductive TokenKind
  | ident | integer | float | string
  | create | table | index | unique | on | insert | into | values | select | update | set_ | delete
  | from_ | where_ | inner | join
  | as_ | group | by_ | order | asc | desc | nulls | first | last | limit | explain | analyze | vacuum
  | begin_ | commit | rollback
  | and_ | or_ | not_ | is_ | null | true_ | false_ | primary | key
  | int | integerType | bigint | floatType | boolean | text
  | comma | dot | semicolon | lparen | rparen | star | plus | minus | slash | eq | neq | lt | lte | gt | gte | eof
  deriving DecidableEq, Repr

def keywords : List (Name × TokenKind) :=
  [("ANALYZE".toList, .analyze), ("AND".toList, .and_), ("AS".toList, .as_), ("ASC".toList, .asc), ("BEGIN".toList, .begin_),
   ("BIGINT".toList, .bigint), ("BOOLEAN".toList, .boolean), ("BY".toList, .by_), ("COMMIT".toList, .commit),
   ("CREATE".toList, .create), ("DELETE".toList, .delete), ("DESC".toList, .desc), ("EXPLAIN".toList, .explain),
   ("FALSE".toList, .false_), ("FIRST".toList, .first), ("FLOAT".toList, .floatType), ("FROM".toList, .from_),
   ("GROUP".toList, .group), ("INDEX".toList, .index), ("INNER".toList, .inner), ("INSERT".toList, .insert), ("INT".toList, .int),
   ("INTEGER".toList, .integerType), ("INTO".toList, .into), ("IS".toList, .is_), ("JOIN".toList, .join), ("KEY".toList, .key),
   ("LAST".toList, .last), ("LIMIT".toList, .limit), ("NOT".toList, .not_), ("NULL".toList, .null), ("NULLS".toList, .nulls),
   ("ON".toList, .on), ("OR".toList, .or_), ("ORDER".toList, .order), ("PRIMARY".toList, .primary),
     ("ROLLBACK".toList, .rollback),
   ("SELECT".toList, .select), ("SET".toList, .set_), ("TABLE".toList, .table), ("TEXT".toList, .text), ("TRUE".toList, .true_),
   ("UNIQUE".toList, .unique), ("UPDATE".toList, .update), ("VACUUM".toList, .vacuum), ("VALUES".toList, .values),
   ("WHERE".toList, .where_)]

structure Token where
  kind   : TokenKind
  lexeme : List Char
  value  : Scalar
  line   : Nat
  column : Nat
  deriving DecidableEq

/-! ## Characters and numbers -/

/-- What the lexer takes of Python.  A decimal character has a digit's value; the other digits, such as superscripts, have
none. -/
structure Unicode extends Casing where
  isalpha      : Char → Bool
  isspace      : Char → Bool
  decimal      : Char → Option (Fin 10)
  otherDigit   : Char → Bool
  otherNumeric : Char → Bool
  repr         : Name → String
  /-- `sys.get_int_max_str_digits()`; 0 is no limit. -/
  intMaxStrDigits : Nat
  /-- The double nearest to a decimal numeral. -/
  nearest      : Name → BitVec 64

namespace Unicode

variable (u : Unicode)

def isdecimal (c : Char) : Bool := (u.decimal c).isSome
def isdigit (c : Char) : Bool := u.isdecimal c || u.otherDigit c
def isnumeric (c : Char) : Bool := u.isdigit c || u.otherNumeric c
def isalnum (c : Char) : Bool := u.isalpha c || u.isdecimal c || u.isdigit c || u.isnumeric c

/-- `int` of a text of digits.  The limit is on the decimal characters that it begins with. -/
def int (text : Name) : Result Nat :=
  let digits := Text.runLength u.isdecimal text
  if u.intMaxStrDigits ≠ 0 ∧ u.intMaxStrDigits < digits then
    raise .valueError ("Exceeds the limit (" ++ toString u.intMaxStrDigits ++
      " digits) for integer string conversion: value has " ++
      toString digits ++ " digits; use sys.set_int_max_str_digits() to increase the limit")
  else
    match text.mapM u.decimal with
    | some values => .ok (values.foldl (fun n d => 10 * n + d.val) 0)
    | none        => raise .valueError ("invalid literal for int() with base 10: " ++ u.repr text)

/-- `float` of digits, a point and digits. -/
def float (text : Name) : Result (BitVec 64) :=
  if text.all (fun c => u.isdecimal c || c == '.') then .ok (u.nearest text)
  else raise .valueError ("could not convert string to float: " ++ u.repr text)

end Unicode

def isfinite (bits : BitVec 64) : Bool := decide (bits.toNat / 2 ^ 52 % 2 ^ 11 ≠ 2 ^ 11 - 1)

/-! ## The scanner -/

namespace Lexer

/-- `_Lexer`: the source from its offset on, and the position there. -/
structure Scanner where
  rest   : List Char
  line   : Nat
  column : Nat

namespace Scanner

def peek (s : Scanner) (distance : Nat) : Option Char := s.rest[distance]?

def advance : Scanner → Scanner
  | ⟨[], line, column⟩        => ⟨[], line, column⟩
  | ⟨c :: rest, line, column⟩ => if c = '\n' then ⟨rest, line + 1, 1⟩ else ⟨rest, line, column + 1⟩

/-- `source[start : offset]`. -/
def slice (start s : Scanner) : List Char := start.rest.take (start.rest.length - s.rest.length)

def fail {α : Type} (s : Scanner) (message : String) (line column : Option Nat) : Result α :=
  raise .sqlSyntaxError ("line " ++ toString (line.getD s.line) ++ ", column " ++
    toString (column.getD s.column) ++ ": " ++ message)

end Scanner

open Scanner

/-- `while self._peek().…(): self._advance()`, over the rest of the source. -/
def advanceWhile (p : Char → Bool) : List Char → Scanner → Scanner
  | c :: text, s => if p c then advanceWhile p text s.advance else s
  | [], s        => s

variable (u : Unicode)

def identifier (s : Scanner) (line column : Nat) : Token × Scanner :=
  let next := advanceWhile (fun c => u.isalnum c || c == '_') s.rest s
  let lexeme := slice s next
  let kind := (keywords.lookup (u.upper lexeme)).getD .ident
  (⟨kind, lexeme, if kind = .ident then .text lexeme else .null, line, column⟩, next)

def number (s : Scanner) (line column : Nat) : Result (Token × Scanner) :=
  let whole := advanceWhile u.isdigit s.rest s
  if whole.peek 0 = some '.' ∧ (whole.peek 1).any u.isdigit then
    let next := advanceWhile u.isdigit whole.advance.rest whole.advance
    let lexeme := slice s next
    do
      let value ← u.float lexeme
      if isfinite value = false then fail next "floating-point literal is out of range" (some line) (some column)
      else .ok (⟨.float, lexeme, .float value, line, column⟩, next)
  else
    let lexeme := slice s whole
    do
      let value ← u.int lexeme
      .ok (⟨.integer, lexeme, .int value, line, column⟩, whole)

/-- The loop of `_string`, over the rest of the source. -/
def stringLoop (start : Scanner) (line column : Nat) : List Char → Scanner → List Char → Result (Token × Scanner)
  | [], s, _                    => fail s "unterminated string literal" (some line) (some column)
  | character :: text, s, decoded =>
    let s := s.advance
    if character = '\x00' then fail s "NUL is not allowed in SQL text" none none
    else if character ≠ '\'' then stringLoop start line column text s (decoded ++ [character])
    else
      match text with
      | '\'' :: text => stringLoop start line column text s.advance (decoded ++ ['\''])
      | _            => .ok (⟨.string, slice start s, .text decoded, line, column⟩, s)

def string (s : Scanner) (line column : Nat) : Result (Token × Scanner) :=
  stringLoop s line column s.advance.rest s.advance []

/-- The symbols of one character. -/
def single : Char → Option TokenKind
  | ',' => some .comma
  | '.' => some .dot
  | ';' => some .semicolon
  | '(' => some .lparen
  | ')' => some .rparen
  | '*' => some .star
  | '+' => some .plus
  | '-' => some .minus
  | '/' => some .slash
  | '=' => some .eq
  | _   => none

/-- `_symbol`, from the character that it advances over. -/
def symbol (s : Scanner) (character : Char) (line column : Nat) : Result (Token × Scanner) :=
  let next := s.advance
  let done (kind : TokenKind) (now : Scanner) : Result (Token × Scanner) := .ok (⟨kind, slice s now, .null, line, column⟩, now)
  match single character with
  | some kind => .ok (⟨kind, [character], .null, line, column⟩, next)
  | none      =>
    if character = '<' then
      if next.peek 0 = some '=' then done .lte next.advance
      else if next.peek 0 = some '>' then done .neq next.advance
      else done .lt next
    else if character = '>' then
      if next.peek 0 = some '=' then done .gte next.advance else done .gt next
    else if character = '!' ∧ next.peek 0 = some '=' then done .neq next.advance
    else fail next ("unexpected character " ++ u.repr [character]) (some line) (some column)

/-- The sub-scanner that a character calls for. -/
def token (s : Scanner) (character : Char) : Result (Token × Scanner) :=
  if u.isalpha character || character == '_' then .ok (identifier u s s.line s.column)
  else if u.isdigit character then number u s s.line s.column
  else if character = '\'' then string s s.line s.column
  else symbol u s character s.line s.column

/-! ## Pieces of a source -/

/-- The kinds of lexemes. -/
inductive PieceKind
  | word | integer | float | quoted | symbol
  deriving DecidableEq

/-- A run of digits, or two with a point between them. -/
def numeral (text : List Char) : PieceKind × Nat :=
  let whole := Text.runLength u.isdigit text
  if text[whole]? = some '.' ∧ (text[whole + 1]?).any u.isdigit then
    (.float, whole + 1 + Text.runLength u.isdigit (text.drop (whole + 1)))
  else (.integer, whole)

/-- The length of a quoted string after its first quote. -/
def quotedLength : List Char → Option Nat
  | []                   => none
  | '\'' :: '\'' :: text => (quotedLength text).map (· + 2)
  | c :: text            => if c = '\x00' then none else if c = '\'' then some 1 else (quotedLength text).map (· + 1)

def symbolLength (c : Char) (text : List Char) : Option Nat :=
  if (single c).isSome then some 1
  else if c = '<' then some (if text.head? = some '=' ∨ text.head? = some '>' then 2 else 1)
  else if c = '>' then some (if text.head? = some '=' then 2 else 1)
  else if c = '!' ∧ text.head? = some '=' then some 2
  else none

/-- The kind and the length of the lexeme that a text begins with, if there is one. -/
def piece : List Char → Option (PieceKind × Nat)
  | []        => none
  | c :: text =>
    if u.isalpha c || c == '_' then some (.word, Text.runLength (fun c => u.isalnum c || c == '_') (c :: text))
    else if u.isdigit c then some (numeral u (c :: text))
    else if c = '\'' then (quotedLength text).map (fun n => (.quoted, n + 1))
    else (symbolLength c text).map (fun n => (.symbol, n))

/-- Doubled quotes halved. -/
def halve : List Char → List Char
  | []                   => []
  | '\'' :: '\'' :: text => '\'' :: halve text
  | c :: text            => c :: halve text

def symbolKind (lexeme : List Char) : TokenKind :=
  if lexeme = ['<'] then .lt
  else if lexeme = ['<', '='] then .lte
  else if lexeme = ['<', '>'] ∨ lexeme = ['!', '='] then .neq
  else if lexeme = ['>'] then .gt
  else if lexeme = ['>', '='] then .gte
  else (lexeme.head?.bind single).getD .eof

/-- The number that decimal characters denote. -/
def denoted (lexeme : List Char) : Nat := Nat.ofDigits 10 ((lexeme.filterMap u.decimal).reverse.map Fin.val)

def reading (kind : PieceKind) (lexeme : List Char) : TokenKind × Scalar :=
  match kind with
  | .word    =>
    let kind := (keywords.lookup (u.upper lexeme)).getD .ident
    (kind, if kind = .ident then .text lexeme else .null)
  | .integer => (.integer, .int (denoted u lexeme))
  | .float   => (.float, .float (u.nearest lexeme))
  | .quoted  => (.string, .text (halve lexeme.tail.dropLast))
  | .symbol  => (symbolKind lexeme, .null)

/-- `int` and `float` accept the lexeme. -/
def Converts (kind : PieceKind) (lexeme : List Char) : Prop :=
  match kind with
  | .integer => (∀ c ∈ lexeme, u.isdecimal c = true) ∧ (u.intMaxStrDigits = 0 ∨ lexeme.length ≤ u.intMaxStrDigits)
  | .float   => ∀ c ∈ lexeme, u.isdecimal c = true ∨ c = '.'
  | _        => True

/-- A float literal is finite. -/
def InRange (kind : PieceKind) (lexeme : List Char) : Prop :=
  match kind with
  | .float => isfinite (u.nearest lexeme) = true
  | _      => True

/-! ## Moves of the scanner -/

namespace Scanner

/-- The scanner after so many characters. -/
def skip (n : Nat) (s : Scanner) : Scanner := advance^[n] s

@[simp] theorem advance_rest (s : Scanner) : s.advance.rest = s.rest.tail := by
  obtain ⟨_ | ⟨c, rest⟩, line, column⟩ := s
  · rfl
  · by_cases h : c = '\n'
    · simp only [advance, if_pos h, List.tail_cons]
    · simp only [advance, if_neg h, List.tail_cons]

@[simp] theorem skip_rest (n : Nat) (s : Scanner) : (s.skip n).rest = s.rest.drop n := by
  induction n with
  | zero => rfl
  | succ n ih =>
    unfold skip at ih ⊢
    rw [Function.iterate_succ_apply', advance_rest, ih, List.tail_drop]

theorem skip_one (s : Scanner) : s.skip 1 = s.advance := rfl

theorem skip_skip (m n : Nat) (s : Scanner) : (s.skip m).skip n = s.skip (m + n) := by
  unfold skip
  rw [Nat.add_comm, Function.iterate_add_apply]

theorem skip_succ (n : Nat) (s : Scanner) : s.advance.skip n = s.skip (n + 1) := by
  rw [← skip_one, skip_skip, Nat.add_comm]

theorem advance_skip (n : Nat) (s : Scanner) : (s.skip n).advance = s.skip (n + 1) := by
  rw [← skip_one, skip_skip]

theorem peek_skip (n d : Nat) (s : Scanner) : (s.skip n).peek d = s.rest[n + d]? := by
  unfold peek
  rw [skip_rest, List.getElem?_drop]

theorem slice_skip {n : Nat} {s : Scanner} (h : n ≤ s.rest.length) : slice s (s.skip n) = s.rest.take n := by
  unfold slice
  rw [skip_rest, List.length_drop]
  congr 1
  omega

end Scanner

theorem advanceWhile_eq (p : Char → Bool) : ∀ (text : List Char) (s : Scanner),
    advanceWhile p text s = s.skip (Text.runLength p text)
  | [], s => rfl
  | c :: text, s => by
    unfold advanceWhile Text.runLength
    by_cases h : p c = true
    · rw [if_pos h, List.takeWhile_cons_of_pos h, advanceWhile_eq p text, skip_succ]
      rfl
    · rw [if_neg h, List.takeWhile_cons_of_neg h]
      rfl

/-! ## What the sub-scanners read -/

variable {u}

theorem identifier_eq (s : Scanner) (line column : Nat) {n : Nat}
    (hn : n = Text.runLength (fun c => u.isalnum c || c == '_') s.rest) :
    identifier u s line column =
      (⟨(reading u .word (s.rest.take n)).1, s.rest.take n, (reading u .word (s.rest.take n)).2, line, column⟩, s.skip n) := by
  unfold identifier
  simp only []
  rw [advanceWhile_eq, slice_skip (Text.runLength_le _ _), ← hn]
  rfl

theorem mapM_decimal : ∀ {text : Name}, (∀ c ∈ text, u.isdecimal c = true) → text.mapM u.decimal = some (text.filterMap u.decimal)
  | [], _ => rfl
  | c :: text, h => by
    obtain ⟨d, hd⟩ := Option.isSome_iff_exists.1 (h c List.mem_cons_self)
    rw [List.mapM_cons, hd, mapM_decimal (fun e he => h e (List.mem_cons_of_mem _ he)), List.filterMap_cons_some hd]
    rfl

theorem mapM_decimal_none : ∀ {text : Name}, ¬(∀ c ∈ text, u.isdecimal c = true) → text.mapM u.decimal = none
  | [], h => absurd (fun _ hc => absurd hc List.not_mem_nil) h
  | c :: text, h => by
    rw [List.mapM_cons]
    cases hd : u.decimal c with
    | none => rfl
    | some d =>
      have ht : ¬∀ e ∈ text, u.isdecimal e = true := by
        intro ht
        apply h
        intro e he
        rcases List.mem_cons.1 he with rfl | he
        · unfold Unicode.isdecimal
          rw [hd]
          rfl
        · exact ht e he
      rw [mapM_decimal_none ht]
      rfl

theorem foldl_digits (digits : List (Fin 10)) :
    digits.foldl (fun n d => 10 * n + d.val) 0 = Nat.ofDigits 10 (digits.reverse.map Fin.val) := by
  rw [Nat.ofDigits_eq_foldr, List.foldr_map, List.foldr_reverse]
  congr 1
  funext n d
  rw [Nat.cast_id, Nat.add_comm]

theorem int_ok {text : Name} (h : Converts u .integer text) : u.int text = .ok (denoted u text) := by
  obtain ⟨hd, hlimit⟩ := h
  have hrun : Text.runLength u.isdecimal text = text.length := Text.runLength_all hd
  unfold Unicode.int
  simp only [hrun]
  rw [if_neg (by omega), mapM_decimal hd]
  simp only [foldl_digits]
  rfl

theorem int_error {text : Name} (h : ¬Converts u .integer text) : ∃ e, u.int text = .error e ∧ e.kind = .valueError := by
  unfold Unicode.int
  simp only
  by_cases hlimit : u.intMaxStrDigits ≠ 0 ∧ u.intMaxStrDigits < Text.runLength u.isdecimal text
  · rw [if_pos hlimit]
    exact ⟨_, rfl, rfl⟩
  · rw [if_neg hlimit]
    have hd : ¬∀ c ∈ text, u.isdecimal c = true := by
      intro hd
      have hrun : Text.runLength u.isdecimal text = text.length := Text.runLength_all hd
      rw [hrun] at hlimit
      exact h ⟨hd, by omega⟩
    rw [mapM_decimal_none hd]
    exact ⟨_, rfl, rfl⟩

theorem float_ok {text : Name} (h : Converts u .float text) : u.float text = .ok (u.nearest text) := by
  unfold Unicode.float
  rw [if_pos]
  simpa [Converts] using h

theorem float_error {text : Name} (h : ¬Converts u .float text) : ∃ e, u.float text = .error e ∧ e.kind = .valueError := by
  unfold Unicode.float
  rw [if_neg]
  · exact ⟨_, rfl, rfl⟩
  · simpa [Converts] using h

theorem numeral_le (text : List Char) : (numeral u text).2 ≤ text.length := by
  unfold numeral
  simp only []
  split
  · rename_i h
    have hlt := (List.getElem?_eq_some_iff.1 h.1).1
    have hrun := Text.runLength_le u.isdigit (text.drop (Text.runLength u.isdigit text + 1))
    rw [List.length_drop] at hrun
    omega
  · exact Text.runLength_le _ _

/-- **A numeral is a token**, or its conversion raises, or it is a float out of range. -/
theorem number_reads (s : Scanner) (line column : Nat) {k : PieceKind} {n : Nat} (hk : numeral u s.rest = (k, n)) :
    (Converts u k (s.rest.take n) → InRange u k (s.rest.take n) → number u s line column =
      .ok (⟨(reading u k (s.rest.take n)).1, s.rest.take n, (reading u k (s.rest.take n)).2, line, column⟩, s.skip n)) ∧
    (Converts u k (s.rest.take n) → ¬InRange u k (s.rest.take n) → ∃ e, number u s line column = .error e ∧
      e.kind = .sqlSyntaxError) ∧
    (¬Converts u k (s.rest.take n) → ∃ e, number u s line column = .error e ∧ e.kind = .valueError) := by
  have hle := numeral_le (u := u) s.rest
  rw [hk] at hle
  unfold numeral at hk
  unfold number
  simp only [advanceWhile_eq, peek_skip, Nat.add_zero] at hk ⊢
  by_cases hpoint :
    s.rest[Text.runLength u.isdigit s.rest]? = some '.' ∧ (s.rest[Text.runLength u.isdigit s.rest + 1]?).any u.isdigit
  · rw [if_pos hpoint] at hk ⊢
    obtain ⟨rfl, rfl⟩ := Prod.mk.inj hk
    simp only [advance_skip, skip_rest, skip_skip]
    rw [slice_skip hle]
    refine ⟨fun hc hr => ?_, fun hc hr => ?_, fun hc => ?_⟩
    · rw [float_ok hc]
      show (if isfinite _ = false then _ else _) = _
      rw [if_neg (by rw [show isfinite _ = true from hr]; exact Bool.noConfusion)]
      rfl
    · rw [float_ok hc]
      show ∃ e, (if isfinite _ = false then _ else _) = _ ∧ _
      rw [if_pos (Bool.eq_false_iff.2 hr)]
      exact ⟨_, rfl, rfl⟩
    · obtain ⟨e, he, hv⟩ := float_error hc
      rw [he]
      exact ⟨e, rfl, hv⟩
  · rw [if_neg hpoint] at hk ⊢
    obtain ⟨rfl, rfl⟩ := Prod.mk.inj hk
    rw [slice_skip hle]
    refine ⟨fun hc _ => ?_, fun _ hr => absurd trivial hr, fun hc => ?_⟩
    · rw [int_ok hc]
      rfl
    · obtain ⟨e, he, hv⟩ := int_error hc
      rw [he]
      exact ⟨e, rfl, hv⟩

theorem quotedLength_bounds (text : List Char) : ∀ {n : Nat}, quotedLength text = some n → 0 < n ∧ n ≤ text.length := by
  fun_induction quotedLength text with
  | case1 => exact fun h => by cases h
  | case2 text ih =>
    intro n h
    obtain ⟨m, hm, rfl⟩ := Option.map_eq_some_iff.1 h
    have := ih hm
    simp only [List.length_cons]
    omega
  | case3 => exact fun h => by cases h
  | case4 c text =>
    intro n h
    cases h
    simp only [List.length_cons]
    omega
  | case5 c text _ _ _ ih =>
    intro n h
    obtain ⟨m, hm, rfl⟩ := Option.map_eq_some_iff.1 h
    have := ih hm
    simp only [List.length_cons]
    omega

theorem halve_other {c : Char} (h : c ≠ '\'') (text : List Char) : halve (c :: text) = c :: halve text :=
  halve.eq_3 c text (fun _ hc => absurd hc h)

theorem next_of_drop {start : Scanner} {m : Nat} {c : Char} {text : List Char} (h : start.rest.drop m = c :: text) :
    m < start.rest.length ∧ start.rest.drop (m + 1) = text := by
  constructor
  · by_contra hm
    rw [List.drop_eq_nil_of_le (by omega)] at h
    cases h
  · rw [← List.drop_drop, h]
    rfl

/-- **The loop over a quoted string** reads up to its closing quote. -/
theorem stringLoop_reads (start : Scanner) (line column : Nat) (text : List Char) : ∀ (m : Nat) (decoded : List Char),
    start.rest.drop m = text →
    (∀ n, quotedLength text = some n → stringLoop start line column text (start.skip m) decoded =
      .ok (⟨.string, start.rest.take (m + n), .text (decoded ++ halve (text.take (n - 1))), line, column⟩, start.skip (m + n))) ∧
    (quotedLength text = none → ∃ e, stringLoop start line column text (start.skip m) decoded = .error e ∧
      e.kind = .sqlSyntaxError) := by
  fun_induction quotedLength text with
  | case1 =>
    intro m decoded _
    exact ⟨fun n h => (by cases h), fun _ => ⟨_, rfl, rfl⟩⟩
  | case2 text ih =>
    intro m decoded hm
    have hnext := next_of_drop (next_of_drop hm).2
    have hloop : stringLoop start line column ('\'' :: '\'' :: text) (start.skip m) decoded =
        stringLoop start line column text (start.skip (m + 2)) (decoded ++ ['\'']) := by
      rw [stringLoop, if_neg (by decide), if_neg (by decide), advance_skip, advance_skip]
    rw [hloop]
    obtain ⟨hok, hbad⟩ := ih (m + 2) (decoded ++ ['\'']) hnext.2
    refine ⟨fun n h => ?_, fun h => hbad (by simpa using h)⟩
    obtain ⟨k, hk, rfl⟩ := Option.map_eq_some_iff.1 h
    obtain ⟨j, rfl⟩ : ∃ j, k = j + 1 := ⟨k - 1, by have := quotedLength_bounds text hk; omega⟩
    rw [hok _ hk, show m + 2 + (j + 1) = m + (j + 1 + 2) by omega, show j + 1 + 2 - 1 = j + 1 + 1 from rfl, List.take_succ_cons,
      List.take_succ_cons, halve, List.append_assoc]
    rfl
  | case3 text _ =>
    intro m decoded _
    refine ⟨fun n h => (by cases h), fun _ => ?_⟩
    unfold stringLoop
    exact ⟨_, rfl, rfl⟩
  | case4 text hend _ =>
    intro m decoded hm
    refine ⟨fun n h => ?_, fun h => (by cases h)⟩
    cases h
    have hlt := (next_of_drop hm).1
    rw [stringLoop, if_neg (by decide), if_neg (by decide), advance_skip, slice_skip (by omega),
      Nat.sub_self, List.take_zero, halve,
      List.append_nil]
    exact fun rest => hend rest rfl
  | case5 c text _ hnul hquote ih =>
    intro m decoded hm
    have hnext := next_of_drop hm
    have hloop : stringLoop start line column (c :: text) (start.skip m) decoded =
        stringLoop start line column text (start.skip (m + 1)) (decoded ++ [c]) := by
      rw [stringLoop.eq_def]
      simp only []
      rw [if_neg hnul, if_pos hquote, advance_skip]
    rw [hloop]
    obtain ⟨hok, hbad⟩ := ih (m + 1) (decoded ++ [c]) hnext.2
    refine ⟨fun n h => ?_, fun h => hbad (by simpa using h)⟩
    obtain ⟨k, hk, rfl⟩ := Option.map_eq_some_iff.1 h
    obtain ⟨j, rfl⟩ : ∃ j, k = j + 1 := ⟨k - 1, by have := quotedLength_bounds text hk; omega⟩
    rw [hok _ hk, show m + 1 + (j + 1) = m + (j + 1 + 1) by omega, show j + 1 + 1 - 1 = j + 1 from rfl, List.take_succ_cons,
      halve_other hquote, List.append_assoc]
    rfl

theorem string_reads (s : Scanner) {c : Char} {text : List Char} (hs : s.rest = c :: text) (line column : Nat) :
    (∀ n, quotedLength text = some n → string s line column =
      .ok (⟨.string, s.rest.take (n + 1), .text (halve (s.rest.take (n + 1)).tail.dropLast), line, column⟩, s.skip (n + 1))) ∧
    (quotedLength text = none → ∃ e, string s line column = .error e ∧ e.kind = .sqlSyntaxError) := by
  have htail : s.advance.rest = text := by rw [advance_rest, hs, List.tail_cons]
  have hloop := stringLoop_reads s line column text 1 [] (by rw [hs, List.drop_one, List.tail_cons])
  unfold string
  rw [htail, ← skip_one]
  refine ⟨fun n h => ?_, hloop.2⟩
  have hn := (quotedLength_bounds text h).2
  rw [hloop.1 n h, Nat.add_comm 1 n, List.nil_append]
  congr 5
  rw [hs, List.take_succ_cons, List.tail_cons, List.dropLast_eq_take, List.length_take, Nat.min_eq_left hn, List.take_take,
    Nat.min_eq_left (Nat.sub_le n 1)]

theorem symbolKind_single {c : Char} {kind : TokenKind} (h : single c = some kind) : symbolKind [c] = kind := by
  have hne : c ≠ '<' ∧ c ≠ '>' := by
    constructor <;> rintro rfl <;> cases h
  unfold symbolKind
  rw [if_neg (by simpa using hne.1), if_neg (by simp), if_neg (by simp), if_neg (by simpa using hne.2), if_neg (by simp),
    List.head?_cons, Option.bind_some, h, Option.getD_some]

/-- **A symbol is a token**, of one or two characters. -/
theorem symbol_reads (s : Scanner) {c : Char} {text : List Char} (hs : s.rest = c :: text) (line column : Nat) :
    (∀ n, symbolLength c text = some n → 0 < n ∧ n ≤ s.rest.length ∧
      symbol u s c line column = .ok (⟨symbolKind (s.rest.take n), s.rest.take n, .null, line, column⟩, s.skip n)) ∧
    (symbolLength c text = none → ∃ e, symbol u s c line column = .error e ∧ e.kind = .sqlSyntaxError) := by
  have hpeek : s.advance.peek 0 = text.head? := by
    rw [← skip_one, peek_skip, hs]
    cases text <;> rfl
  have two : ∀ {d : Char} {kind : TokenKind}, text.head? = some d → symbolKind [c, d] = kind → 0 < 2 ∧ 2 ≤ s.rest.length ∧
      (.ok (⟨kind, slice s s.advance.advance, .null, line, column⟩, s.advance.advance) : Result (Token × Scanner)) =
        .ok (⟨symbolKind (s.rest.take 2), s.rest.take 2, .null, line, column⟩, s.skip 2) := by
    rintro d kind hd rfl
    obtain ⟨rest, rfl⟩ := List.head?_eq_some_iff.1 hd
    have hle : 2 ≤ s.rest.length := by rw [hs]; simp only [List.length_cons]; omega
    refine ⟨Nat.two_pos, hle, ?_⟩
    rw [show s.advance.advance = s.skip 2 from rfl, slice_skip hle, hs]
    rfl
  have one : ∀ {kind : TokenKind}, symbolKind [c] = kind → 0 < 1 ∧ 1 ≤ s.rest.length ∧
      (.ok (⟨kind, slice s s.advance, .null, line, column⟩, s.advance) : Result (Token × Scanner)) =
        .ok (⟨symbolKind (s.rest.take 1), s.rest.take 1, .null, line, column⟩, s.skip 1) := by
    rintro kind rfl
    have hle : 1 ≤ s.rest.length := by rw [hs]; simp only [List.length_cons]; omega
    refine ⟨Nat.one_pos, hle, ?_⟩
    rw [← skip_one, slice_skip hle, hs]
    rfl
  have hslice : slice s s.advance = [c] := by
    rw [← skip_one, slice_skip (by rw [hs]; simp only [List.length_cons]; omega), hs]
    rfl
  unfold symbol symbolLength
  simp only [hpeek]
  cases hsingle : single c with
  | some kind =>
    refine ⟨fun n h => ?_, fun h => by cases h⟩
    cases h
    have h := one (symbolKind_single hsingle)
    rwa [hslice] at h
  | none =>
    simp only [Option.isSome_none, Bool.false_eq_true, if_false]
    by_cases hlt : c = '<'
    · subst hlt
      simp only [if_true]
      by_cases heq : text.head? = some '='
      · rw [if_pos heq, if_pos (.inl heq)]
        refine ⟨fun n h => ?_, fun h => by cases h⟩
        cases h
        exact two heq rfl
      by_cases hne : text.head? = some '>'
      · rw [if_neg heq, if_pos hne, if_pos (.inr hne)]
        refine ⟨fun n h => ?_, fun h => by cases h⟩
        cases h
        exact two hne rfl
      · rw [if_neg heq, if_neg hne, if_neg (by rintro (h | h); exacts [heq h, hne h])]
        refine ⟨fun n h => ?_, fun h => by cases h⟩
        cases h
        exact one rfl
    by_cases hgt : c = '>'
    · subst hgt
      simp only [if_neg hlt, if_true]
      by_cases heq : text.head? = some '='
      · rw [if_pos heq, if_pos heq]
        refine ⟨fun n h => ?_, fun h => by cases h⟩
        cases h
        exact two heq rfl
      · rw [if_neg heq, if_neg heq]
        refine ⟨fun n h => ?_, fun h => by cases h⟩
        cases h
        exact one rfl
    · simp only [if_neg hlt, if_neg hgt]
      by_cases hbang : c = '!' ∧ text.head? = some '='
      · rw [if_pos hbang, if_pos hbang]
        refine ⟨fun n h => ?_, fun h => by cases h⟩
        cases h
        obtain ⟨rfl, heq⟩ := hbang
        exact two heq rfl
      · rw [if_neg hbang, if_neg hbang]
        exact ⟨fun n h => (by cases h), fun _ => ⟨_, rfl, rfl⟩⟩

/-- A token of the lexeme that the rest of the source begins with. -/
def Reads (s : Scanner) (k : PieceKind) (n : Nat) (r : Result (Token × Scanner)) : Prop :=
  (Converts u k (s.rest.take n) → InRange u k (s.rest.take n) →
    r = .ok (⟨(reading u k (s.rest.take n)).1, s.rest.take n, (reading u k (s.rest.take n)).2, s.line, s.column⟩, s.skip n)) ∧
  (Converts u k (s.rest.take n) → ¬InRange u k (s.rest.take n) → ∃ e, r = .error e ∧ e.kind = .sqlSyntaxError) ∧
  (¬Converts u k (s.rest.take n) → ∃ e, r = .error e ∧ e.kind = .valueError)

/-- **A sub-scanner reads the piece** that the rest of the source begins with, and raises `SqlSyntaxError` where none begins. -/
theorem token_reads (s : Scanner) {c : Char} {text : List Char} (hs : s.rest = c :: text) :
    (∀ k n, piece u s.rest = some (k, n) → 0 < n ∧ n ≤ s.rest.length ∧ Reads (u := u) s k n (token u s c)) ∧
    (piece u s.rest = none → ∃ e, token u s c = .error e ∧ e.kind = .sqlSyntaxError) := by
  unfold token
  rw [hs, piece]
  by_cases hword : (u.isalpha c || c == '_') = true
  · rw [if_pos hword, if_pos hword]
    refine ⟨fun k n h => ?_, fun h => by cases h⟩
    cases h
    rw [← hs]
    refine ⟨?_, Text.runLength_le _ _, fun _ _ => ?_, fun _ h => absurd trivial h, fun h => absurd trivial h⟩
    · rw [hs]
      apply Text.runLength_pos
      unfold Unicode.isalnum
      rw [Bool.or_eq_true] at hword ⊢
      exact hword.imp_left (fun h => by rw [h]; rfl)
    · rw [identifier_eq s s.line s.column rfl]
  by_cases hdigit : u.isdigit c = true
  · rw [if_neg hword, if_neg hword, if_pos hdigit, if_pos hdigit]
    refine ⟨fun k n h => ?_, fun h => by cases h⟩
    have hk : numeral u s.rest = (k, n) := by
      rw [hs]
      exact Option.some.inj h
    rw [← hs]
    have hle := numeral_le (u := u) s.rest
    rw [hk] at hle
    refine ⟨?_, hle, number_reads s s.line s.column hk⟩
    have hpos : 0 < Text.runLength u.isdigit s.rest := by
      rw [hs]
      exact Text.runLength_pos hdigit
    unfold numeral at hk
    simp only [] at hk
    split at hk <;> cases hk <;> omega
  by_cases hquote : c = '\''
  · rw [if_neg hword, if_neg hword, if_neg hdigit, if_neg hdigit, if_pos hquote, if_pos hquote]
    obtain ⟨hok, hbad⟩ := string_reads s hs s.line s.column
    refine ⟨fun k n h => ?_, fun h => hbad (Option.map_eq_none_iff.1 h)⟩
    obtain ⟨m, hm, heq⟩ := Option.map_eq_some_iff.1 h
    cases heq
    rw [← hs]
    refine ⟨Nat.succ_pos m, ?_, fun _ _ => hok m hm, fun _ h => absurd trivial h, fun h => absurd trivial h⟩
    rw [hs]
    exact Nat.succ_le_succ (quotedLength_bounds text hm).2
  · rw [if_neg hword, if_neg hword, if_neg hdigit, if_neg hdigit, if_neg hquote, if_neg hquote]
    obtain ⟨hok, hbad⟩ := symbol_reads (u := u) s hs s.line s.column
    refine ⟨fun k n h => ?_, fun h => hbad (Option.map_eq_none_iff.1 h)⟩
    obtain ⟨m, hm, heq⟩ := Option.map_eq_some_iff.1 h
    cases heq
    obtain ⟨hpos, hle, hread⟩ := hok _ hm
    rw [← hs]
    exact ⟨hpos, hle, fun _ _ => hread, fun _ h => absurd trivial h, fun h => absurd trivial h⟩

theorem token_moves {s next : Scanner} {c : Char} {text : List Char} (hs : s.rest = c :: text) {t : Token}
    (h : token u s c = .ok (t, next)) :
    ∃ k n, piece u s.rest = some (k, n) ∧ 0 < n ∧ n ≤ s.rest.length ∧ Converts u k (s.rest.take n) ∧ InRange u k (s.rest.take n) ∧
      t = ⟨(reading u k (s.rest.take n)).1, s.rest.take n, (reading u k (s.rest.take n)).2, s.line, s.column⟩ ∧
        next = s.skip n := by
  obtain ⟨hreads, hnone⟩ := token_reads (u := u) s hs
  cases hp : piece u s.rest with
  | none =>
    obtain ⟨e, he, -⟩ := hnone hp
    rw [he] at h
    cases h
  | some p =>
    obtain ⟨k, n⟩ := p
    obtain ⟨hpos, hle, hok, hrange, hvalue⟩ := hreads k n hp
    by_cases hc : Converts u k (s.rest.take n)
    · by_cases hr : InRange u k (s.rest.take n)
      · rw [hok hc hr] at h
        cases h
        exact ⟨k, n, rfl, hpos, hle, hc, hr, rfl, rfl⟩
      · obtain ⟨e, he, -⟩ := hrange hc hr
        rw [he] at h
        cases h
    · obtain ⟨e, he, -⟩ := hvalue hc
      rw [he] at h
      cases h

variable (u)

/-! ## The tokens of a source -/

/-- The loop of `scan`. -/
def scan (s : Scanner) : Result (List Token) :=
  match _hs : s.rest with
  | []     => .ok [⟨.eof, [], .null, s.line, s.column⟩]
  | c :: _ =>
    if c = '\x00' then fail s "NUL is not allowed in SQL text" none none
    else if u.isspace c then scan s.advance
    else
      match _ht : token u s c with
      | .error e      => .error e
      | .ok (t, next) => do
        let tokens ← scan next
        .ok (t :: tokens)
  termination_by s.rest.length
  decreasing_by
    · rw [advance_rest, _hs]
      exact Nat.lt_succ_self _
    · obtain ⟨k, n, -, hpos, hle, -, -, -, rfl⟩ := token_moves _hs _ht
      rw [skip_rest, List.length_drop]
      omega

end Lexer

def lex (u : Unicode) (source : List Char) : Result (List Token) := Lexer.scan u ⟨source, 1, 1⟩

end MiniPostgres
