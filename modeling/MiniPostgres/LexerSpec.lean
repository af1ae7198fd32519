import MiniPostgres.Lexer
/-!
# LexerSpec — a source is its lexemes and the blanks between them

What `lex` returns rebuilds the source, with the place and the value of every token; what it raises is `SqlSyntaxError`, unless
it comes to a numeral that `int` or `float` does not accept: `str.isdigit` holds of more characters than have a decimal value,
and `int` has a limit on digits.
-/
namespace MiniPostgres

open Lexer Lexer.Scanner Text

/-! ## What the tokens say -/

variable (u : Unicode)

/-- The value of a string is its lexeme without the outer quotes and with doubled quotes halved, and the value of an integer is
the number that its digits denote. -/
structure Token.Valued (t : Token) : Prop where
  string  : t.kind = .string → ∃ body, t.lexeme = '\'' :: (body ++ ['\'']) ∧ t.value = .text (halve body)
  integer : t.kind = .integer → ∃ digits, t.lexeme.mapM u.decimal = some digits ∧
    t.value = .int (Nat.ofDigits 10 (digits.reverse.map Fin.val) : Nat)

/-- Where a token stands, after this text. -/
def Token.At (t : Token) (before : List Char) : Prop := t.line = lineAfter '\n' before ∧ t.column = columnAfter '\n' before

/-- **The tokens of a text**, after the text before it: blanks and lexemes in turn, and the end last. -/
inductive Lexed : List Char → List Char → List Token → Prop
  | eof {before gap : List Char} {t : Token} : (∀ c ∈ gap, u.isspace c = true) → t.kind = .eof → t.lexeme = [] →
      t.At (before ++ gap) → Lexed before gap [t]
  | token {before gap rest : List Char} {t : Token} {tokens : List Token} : (∀ c ∈ gap, u.isspace c = true) → t.kind ≠ .eof →
      t.At (before ++ gap) → Lexed (before ++ gap ++ t.lexeme) rest tokens → Lexed before (gap ++ t.lexeme ++ rest) (t :: tokens)

/-- **Total and lossless**: an error is a syntax error, and the tokens rebuild the source. -/
def Lossless (source : List Char) (r : Result (List Token)) : Prop :=
  (∀ e, r = .error e → e.kind = .sqlSyntaxError) ∧
  ∀ tokens, r = .ok tokens → Lexed u [] source tokens ∧ ∀ t ∈ tokens, t.Valued u

/-! ## Which numerals are read -/

/-- The lexeme that a text begins with: none at a blank or a NUL. -/
def begins : List Char → Option (PieceKind × Nat)
  | []        => none
  | c :: text => if c = '\x00' ∨ u.isspace c = true then none else piece u (c :: text)

/-- Reading blanks and lexemes in turn comes to the rest of the text. -/
inductive ReadsTo : List Char → List Char → Prop
  | here (text : List Char) : ReadsTo text text
  | blank {c : Char} {text rest : List Char} : c ≠ '\x00' → u.isspace c = true → ReadsTo text rest → ReadsTo (c :: text) rest
  | lexeme {text rest : List Char} {k : PieceKind} {n : Nat} : begins u text = some (k, n) → Converts u k (text.take n) →
      InRange u k (text.take n) → ReadsTo (text.drop n) rest → ReadsTo text rest

/-- **Every numeral that is come to is accepted** by `int` or `float`. -/
def Convertible (source : List Char) : Prop :=
  ∀ {rest : List Char} {k : PieceKind} {n : Nat}, ReadsTo u source rest → begins u rest = some (k, n) → Converts u k (rest.take n)

variable {u}

theorem begins_blank {c : Char} (h : c = '\x00' ∨ u.isspace c = true) (text : List Char) : begins u (c :: text) = none := if_pos h

theorem begins_piece {c : Char} (hnul : c ≠ '\x00') (hspace : ¬u.isspace c = true) (text : List Char) :
    begins u (c :: text) = piece u (c :: text) := if_neg (not_or.2 ⟨hnul, hspace⟩)

theorem convertible_stuck {source : List Char} (hb : begins u source = none)
    (hs : ∀ c ∈ source.head?, c ≠ '\x00' → ¬u.isspace c = true) : Convertible u source := by
  intro rest k n hr hk
  cases hr with
  | here => rw [hb] at hk; cases hk
  | blank hnul hspace _ => exact absurd hspace (hs _ rfl hnul)
  | lexeme h _ _ _ => rw [hb] at h; cases h

theorem convertible_blank {c : Char} (hnul : c ≠ '\x00') (hspace : u.isspace c = true) {text : List Char} :
    Convertible u (c :: text) ↔ Convertible u text := by
  refine ⟨fun h rest k n hr hk => h (.blank hnul hspace hr) hk, fun h rest k n hr hk => ?_⟩
  have hnone := begins_blank (u := u) (.inr hspace) text
  cases hr with
  | here => rw [hnone] at hk; cases hk
  | blank _ _ hr => exact h hr hk
  | lexeme hb _ _ _ => rw [hnone] at hb; cases hb

theorem not_blank_of_begins {c : Char} {text : List Char} {k : PieceKind} {n : Nat} (h : begins u (c :: text) = some (k, n)) :
    ¬u.isspace c = true := by
  intro hs
  rw [begins_blank (.inr hs)] at h
  cases h

theorem convertible_lexeme {text : List Char} {k : PieceKind} {n : Nat} (hb : begins u text = some (k, n))
    (hc : Converts u k (text.take n)) (hr : InRange u k (text.take n)) : Convertible u text ↔ Convertible u (text.drop n) := by
  refine ⟨fun h rest k n hr' hk => h (.lexeme hb hc hr hr') hk, fun h rest k' n' hr' hk => ?_⟩
  cases hr' with
  | here =>
    rw [hb] at hk
    cases hk
    exact hc
  | blank _ hspace _ => exact absurd hspace (not_blank_of_begins hb)
  | lexeme hb' _ _ hr' =>
    rw [hb] at hb'
    cases hb'
    exact h hr' hk

theorem convertible_outOfRange {text : List Char} {k : PieceKind} {n : Nat} (hb : begins u text = some (k, n))
    (hc : Converts u k (text.take n)) (hr : ¬InRange u k (text.take n)) : Convertible u text := by
  intro rest k' n' hr' hk
  cases hr' with
  | here =>
    rw [hb] at hk
    cases hk
    exact hc
  | blank _ hspace _ => exact absurd hspace (not_blank_of_begins hb)
  | lexeme hb' _ hrange _ =>
    rw [hb] at hb'
    cases hb'
    exact absurd hrange hr

theorem not_convertible {text : List Char} {k : PieceKind} {n : Nat} (hb : begins u text = some (k, n))
    (hc : ¬Converts u k (text.take n)) : ¬Convertible u text := fun h => hc (h (.here text) hb)

/-! ## Kinds and values of pieces -/

theorem keywords_kind {name : Name} {kind : TokenKind} (h : keywords.lookup name = some kind) :
    kind ≠ .string ∧ kind ≠ .integer ∧ kind ≠ .eof := by
  have hall : ∀ p ∈ keywords, p.2 ≠ .string ∧ p.2 ≠ .integer ∧ p.2 ≠ .eof := by decide
  obtain ⟨l₁, l₂, hl, -⟩ := List.lookup_eq_some_iff.1 h
  exact hall (name, kind) (by rw [hl]; exact List.mem_append_right _ List.mem_cons_self)

theorem word_kind (lexeme : List Char) : (reading u .word lexeme).1 ≠ .string ∧ (reading u .word lexeme).1 ≠ .integer ∧
    (reading u .word lexeme).1 ≠ .eof := by
  unfold reading
  cases h : keywords.lookup (u.upper lexeme) with
  | none => exact ⟨nofun, nofun, nofun⟩
  | some kind => exact keywords_kind h

theorem single_kind {c : Char} {kind : TokenKind} (h : single c = some kind) :
    kind ≠ .string ∧ kind ≠ .integer ∧ kind ≠ .eof := by
  unfold single at h
  split at h <;> cases h <;> exact ⟨nofun, nofun, nofun⟩

theorem symbolKind_value (lexeme : List Char) : symbolKind lexeme ≠ .string ∧ symbolKind lexeme ≠ .integer := by
  unfold symbolKind
  split_ifs
  case neg =>
    cases h : lexeme.head?.bind single with
    | none => exact ⟨nofun, nofun⟩
    | some kind =>
      obtain ⟨c, -, hc⟩ := Option.bind_eq_some_iff.1 h
      exact ⟨(single_kind hc).1, (single_kind hc).2.1⟩
  all_goals exact ⟨nofun, nofun⟩

theorem symbol_kind {c : Char} {text : List Char} {n : Nat} (h : symbolLength c text = some n) :
    symbolKind ((c :: text).take n) ≠ .eof := by
  unfold symbolLength at h
  by_cases hsingle : (single c).isSome = true
  · rw [if_pos hsingle] at h
    cases h
    obtain ⟨kind, hk⟩ := Option.isSome_iff_exists.1 hsingle
    rw [List.take_succ_cons, List.take_zero, symbolKind_single hk]
    exact (single_kind hk).2.2
  rw [if_neg hsingle] at h
  by_cases hlt : c = '<'
  · subst hlt
    rw [if_pos rfl] at h
    by_cases htwo : text.head? = some '=' ∨ text.head? = some '>'
    · rw [if_pos htwo] at h
      cases h
      rcases htwo with hd | hd <;> obtain ⟨rest, rfl⟩ := List.head?_eq_some_iff.1 hd <;> exact nofun
    · rw [if_neg htwo] at h
      cases h
      exact nofun
  rw [if_neg hlt] at h
  by_cases hgt : c = '>'
  · subst hgt
    rw [if_pos rfl] at h
    by_cases htwo : text.head? = some '='
    · rw [if_pos htwo] at h
      cases h
      obtain ⟨rest, rfl⟩ := List.head?_eq_some_iff.1 htwo
      exact nofun
    · rw [if_neg htwo] at h
      cases h
      exact nofun
  rw [if_neg hgt] at h
  by_cases hbang : c = '!' ∧ text.head? = some '='
  · rw [if_pos hbang] at h
    cases h
    obtain ⟨rfl, hd⟩ := hbang
    obtain ⟨rest, rfl⟩ := List.head?_eq_some_iff.1 hd
    exact nofun
  · rw [if_neg hbang] at h
    cases h

theorem quotedLength_closes (text : List Char) : ∀ {n : Nat}, quotedLength text = some n →
    text.take n = text.take (n - 1) ++ ['\''] := by
  fun_induction quotedLength text with
  | case1 => exact fun h => by cases h
  | case2 text ih =>
    intro n h
    obtain ⟨m, hm, rfl⟩ := Option.map_eq_some_iff.1 h
    obtain ⟨j, rfl⟩ : ∃ j, m = j + 1 := ⟨m - 1, by have := quotedLength_bounds text hm; omega⟩
    have h := ih hm
    rw [show j + 1 + 2 - 1 = j + 2 from rfl]
    simp only [List.take_succ_cons, Nat.add_sub_cancel, List.cons_append] at h ⊢
    rw [h]
  | case3 => exact fun h => by cases h
  | case4 text =>
    intro n h
    cases h
    rfl
  | case5 c text _ _ _ ih =>
    intro n h
    obtain ⟨m, hm, rfl⟩ := Option.map_eq_some_iff.1 h
    obtain ⟨j, rfl⟩ : ∃ j, m = j + 1 := ⟨m - 1, by have := quotedLength_bounds text hm; omega⟩
    have h := ih hm
    simp only [List.take_succ_cons, Nat.add_sub_cancel, List.cons_append] at h ⊢
    rw [h]

theorem piece_valued {text : List Char} {k : PieceKind} {n : Nat} (h : piece u text = some (k, n))
    (hc : Converts u k (text.take n)) (line column : Nat) :
    (reading u k (text.take n)).1 ≠ .eof ∧
    Token.Valued u ⟨(reading u k (text.take n)).1, text.take n, (reading u k (text.take n)).2, line, column⟩ := by
  have hplain : ∀ {t : Token}, t.kind ≠ .string → t.kind ≠ .integer → t.Valued u := fun hs hi =>
    ⟨fun h => absurd h hs, fun h => absurd h hi⟩
  cases text with
  | nil => cases h
  | cons c text =>
    rw [piece] at h
    by_cases hword : (u.isalpha c || c == '_') = true
    · rw [if_pos hword] at h
      cases h
      have hk := word_kind (u := u) ((c :: text).take (runLength (fun c => u.isalnum c || c == '_') (c :: text)))
      exact ⟨hk.2.2, hplain hk.1 hk.2.1⟩
    rw [if_neg hword] at h
    by_cases hdigit : u.isdigit c = true
    · rw [if_pos hdigit] at h
      unfold numeral at h
      simp only [] at h
      split at h <;> cases h
      · exact ⟨(fun h => by cases h), hplain (fun h => by cases h) (fun h => by cases h)⟩
      · refine ⟨(fun h => by cases h), (fun h => by cases h), fun _ => ⟨_, mapM_decimal hc.1, rfl⟩⟩
    rw [if_neg hdigit] at h
    by_cases hquote : c = '\''
    · subst hquote
      rw [if_pos rfl] at h
      obtain ⟨m, hm, heq⟩ := Option.map_eq_some_iff.1 h
      cases heq
      have hclose := quotedLength_closes text hm
      refine ⟨(fun h => by cases h), fun _ => ⟨text.take (m - 1), ?_, ?_⟩, fun h => by cases h⟩
      · show ('\'' :: text).take (m + 1) = _
        rw [List.take_succ_cons, hclose]
      · show Scalar.text (halve (('\'' :: text).take (m + 1)).tail.dropLast) = _
        rw [List.take_succ_cons, hclose, List.tail_cons, List.dropLast_concat]
    · rw [if_neg hquote] at h
      obtain ⟨m, hm, heq⟩ := Option.map_eq_some_iff.1 h
      cases heq
      exact ⟨symbol_kind hm, hplain (symbolKind_value _).1 (symbolKind_value _).2⟩

/-! ## The scan -/

namespace Lexer

theorem scan_nil {s : Scanner} (h : s.rest = []) : scan u s = .ok [⟨.eof, [], .null, s.line, s.column⟩] := by
  rw [scan]
  split
  · rfl
  · rename_i heq
    rw [h] at heq
    cases heq

theorem scan_nul {s : Scanner} {text : List Char} (h : s.rest = '\x00' :: text) :
    scan u s = fail s "NUL is not allowed in SQL text" none none := by
  rw [scan]
  split
  · rename_i heq
    rw [h] at heq
    cases heq
  · rename_i heq
    rw [h] at heq
    cases heq
    rfl

theorem scan_blank {s : Scanner} {c : Char} {text : List Char} (h : s.rest = c :: text) (hnul : c ≠ '\x00')
    (hspace : u.isspace c = true) : scan u s = scan u s.advance := by
  rw [scan]
  split
  · rename_i heq
    rw [h] at heq
    cases heq
  · rename_i heq
    rw [h] at heq
    cases heq
    rw [if_neg hnul, if_pos hspace]

theorem scan_error {s : Scanner} {c : Char} {text : List Char} (h : s.rest = c :: text) (hnul : c ≠ '\x00')
    (hspace : ¬u.isspace c = true) {e : Error} (ht : token u s c = .error e) : scan u s = .error e := by
  rw [scan]
  split
  · rename_i heq
    rw [h] at heq
    cases heq
  · rename_i heq
    rw [h] at heq
    cases heq
    rw [if_neg hnul, if_neg hspace]
    split
    · rename_i heq
      rw [ht] at heq
      cases heq
      rfl
    · rename_i heq
      rw [ht] at heq
      cases heq

theorem scan_token {s next : Scanner} {c : Char} {text : List Char} (h : s.rest = c :: text) (hnul : c ≠ '\x00')
    (hspace : ¬u.isspace c = true) {t : Token} (ht : token u s c = .ok (t, next)) :
    scan u s = (do let tokens ← scan u next; .ok (t :: tokens)) := by
  rw [scan]
  split
  · rename_i heq
    rw [h] at heq
    cases heq
  · rename_i heq
    rw [h] at heq
    cases heq
    rw [if_neg hnul, if_neg hspace]
    split
    · rename_i heq
      rw [ht] at heq
      cases heq
    · rename_i heq
      rw [ht] at heq
      cases heq
      rfl

/-- The scanner is at the end of the text before it. -/
def Scanner.After (s : Scanner) (before : List Char) : Prop := s.line = lineAfter '\n' before ∧ s.column = columnAfter '\n' before

theorem Scanner.After.advance {s : Scanner} {before text : List Char} {c : Char} (h : s.After before) (hs : s.rest = c :: text) :
    s.advance.After (before ++ [c]) := by
  obtain ⟨rest, line, column⟩ := s
  obtain ⟨rfl, rfl⟩ := h
  cases hs
  by_cases hc : c = '\n'
  · subst hc
    exact ⟨(lineAfter_newline before).symm, (columnAfter_newline before).symm⟩
  · rw [Scanner.advance, if_neg hc]
    exact ⟨(lineAfter_other hc before).symm, (columnAfter_other hc before).symm⟩

theorem Scanner.After.skip : ∀ {n : Nat} {s : Scanner} {before : List Char}, s.After before → n ≤ s.rest.length →
    (s.skip n).After (before ++ s.rest.take n)
  | 0, s, before, h, _ => by
    rw [List.take_zero, List.append_nil]
    exact h
  | n + 1, s, before, h, hn => by
    cases hs : s.rest with
    | nil =>
      rw [hs] at hn
      cases hn
    | cons c text =>
      rw [hs] at hn
      have ih := Scanner.After.skip (n := n) (h.advance hs) (by rw [advance_rest, hs]; exact Nat.le_of_succ_le_succ hn)
      rw [advance_rest, hs, List.tail_cons, skip_succ, List.append_assoc] at ih
      exact ih

end Lexer

theorem Lexed.next {before rest : List Char} {t : Token} {tokens : List Token} (hk : t.kind ≠ .eof) (ht : t.At before)
    (h : Lexed u (before ++ t.lexeme) rest tokens) : Lexed u before (t.lexeme ++ rest) (t :: tokens) := by
  have htoken := @Lexed.token u before [] rest t tokens (fun _ h => by cases h) hk
  rw [List.append_nil, List.nil_append] at htoken
  exact htoken ht h

theorem Lexed.blank {before text : List Char} {c : Char} {tokens : List Token} (hc : u.isspace c = true)
    (h : Lexed u (before ++ [c]) text tokens) : Lexed u before (c :: text) tokens := by
  have hgap : ∀ {gap : List Char}, (∀ d ∈ gap, u.isspace d = true) → ∀ d ∈ c :: gap, u.isspace d = true := by
    intro gap hg d hd
    rcases List.mem_cons.1 hd with rfl | hd
    · exact hc
    · exact hg d hd
  cases h with
  | eof hg hk hl ht =>
    rw [List.append_assoc] at ht
    exact .eof (hgap hg) hk hl ht
  | token hg hk ht hrest =>
    simp only [List.append_assoc] at ht hrest
    exact .token (hgap hg) hk ht (by simpa only [List.append_assoc, List.cons_append, List.nil_append] using hrest)

/-- **What the scan returns or raises**, from a scanner after some text. -/
theorem scan_reads : ∀ (n : Nat) (s : Scanner) (before : List Char), s.rest.length = n → s.After before →
    (∀ tokens, scan u s = .ok tokens → Lexed u before s.rest tokens ∧ (∀ t ∈ tokens, t.Valued u) ∧ Convertible u s.rest) ∧
    ∀ e, scan u s = .error e → (e.kind = .sqlSyntaxError ∧ Convertible u s.rest) ∨
      (e.kind = .valueError ∧ ¬Convertible u s.rest) := by
  intro n
  induction n using Nat.strong_induction_on with
  | _ n ih =>
    intro s before hn hs
    cases htext : s.rest with
    | nil =>
      rw [scan_nil htext]
      refine ⟨fun tokens h => ?_, nofun⟩
      cases h
      refine ⟨.eof (fun _ h => by cases h) rfl rfl (by rw [List.append_nil]; exact hs), fun t ht => ?_,
        convertible_stuck rfl (fun _ h => by cases h)⟩
      rw [List.mem_singleton.1 ht]
      exact ⟨nofun, nofun⟩
    | cons c text =>
      by_cases hnul : c = '\x00'
      · subst hnul
        rw [scan_nul htext]
        refine ⟨nofun, fun e h => .inl ?_⟩
        cases h
        exact ⟨rfl, convertible_stuck (begins_blank (.inl rfl) text) (fun d hd hne => absurd (Option.some.inj hd).symm hne)⟩
      by_cases hspace : u.isspace c = true
      · rw [scan_blank htext hnul hspace]
        have hrest : s.advance.rest = text := by rw [advance_rest, htext, List.tail_cons]
        obtain ⟨hok, hbad⟩ := ih text.length (by rw [← hn, htext]; exact Nat.lt_succ_self _) s.advance (before ++ [c])
          (by rw [hrest]) (hs.advance htext)
        rw [hrest] at hok hbad
        rw [convertible_blank hnul hspace]
        exact ⟨fun tokens h => ⟨(hok tokens h).1.blank hspace, (hok tokens h).2⟩, hbad⟩
      have hb := begins_piece hnul hspace text
      obtain ⟨hreads, hnone⟩ := token_reads (u := u) s htext
      rw [htext] at hreads hnone
      cases hp : piece u (c :: text) with
      | none =>
        obtain ⟨e, he, hkind⟩ := hnone hp
        rw [scan_error htext hnul hspace he]
        refine ⟨nofun, fun e' h => .inl ?_⟩
        cases h
        exact ⟨hkind, convertible_stuck (hb.trans hp) (fun d hd _ => Option.some.inj hd ▸ hspace)⟩
      | some p =>
        obtain ⟨k, m⟩ := p
        obtain ⟨hpos, hle, hok, hrange, hvalue⟩ := hreads k m hp
        rw [htext] at hok hrange hvalue
        have hbegins : begins u (c :: text) = some (k, m) := hb.trans hp
        by_cases hc : Converts u k ((c :: text).take m)
        swap
        · obtain ⟨e, he, hkind⟩ := hvalue hc
          rw [scan_error htext hnul hspace he]
          refine ⟨nofun, fun e' h => .inr ?_⟩
          cases h
          exact ⟨hkind, not_convertible hbegins hc⟩
        by_cases hr : InRange u k ((c :: text).take m)
        swap
        · obtain ⟨e, he, hkind⟩ := hrange hc hr
          rw [scan_error htext hnul hspace he]
          refine ⟨nofun, fun e' h => .inl ?_⟩
          cases h
          exact ⟨hkind, convertible_outOfRange hbegins hc hr⟩
        rw [scan_token htext hnul hspace (hok hc hr), convertible_lexeme hbegins hc hr]
        have hrest : (s.skip m).rest = (c :: text).drop m := by rw [skip_rest, htext]
        have hafter : (s.skip m).After (before ++ (c :: text).take m) := by
          rw [← htext]
          exact hs.skip (by rw [htext]; exact hle)
        obtain ⟨ihok, ihbad⟩ := ih _ (by rw [← hn, htext, hrest, List.length_drop]; omega) (s.skip m) _ rfl hafter
        rw [hrest] at ihok ihbad
        obtain ⟨hkind, hvalued⟩ := piece_valued hp hc s.line s.column
        cases hscan : scan u (s.skip m) with
        | error e =>
          refine ⟨nofun, fun e' h => ?_⟩
          cases h
          exact ihbad e hscan
        | ok tokens =>
          obtain ⟨hlexed, hvalues, hconv⟩ := ihok tokens hscan
          refine ⟨fun tokens' h => ?_, nofun⟩
          cases h
          refine ⟨?_, List.forall_mem_cons.2 ⟨hvalued, hvalues⟩, hconv⟩
          have hnext := @Lexed.next u before ((c :: text).drop m)
            ⟨(reading u k ((c :: text).take m)).1, (c :: text).take m, (reading u k ((c :: text).take m)).2, s.line, s.column⟩
            tokens hkind hs hlexed
          rwa [List.take_append_drop] at hnext

/-- **Lexing is total and lossless exactly when every numeral that it comes to is accepted**: of decimal characters only, and, if
it is an integer, with no more of them than `int` converts. -/
theorem lex_lossless_iff (u : Unicode) (source : List Char) : Lossless u source (lex u source) ↔ Convertible u source := by
  have hstart : Scanner.After ⟨source, 1, 1⟩ [] := ⟨rfl, rfl⟩
  obtain ⟨hok, hbad⟩ := scan_reads (u := u) source.length ⟨source, 1, 1⟩ [] rfl hstart
  unfold Lossless lex
  refine ⟨fun h => ?_, fun h => ⟨fun e he => ?_, fun tokens ht => ⟨(hok tokens ht).1, (hok tokens ht).2.1⟩⟩⟩
  · cases hscan : scan u ⟨source, 1, 1⟩ with
    | ok tokens => exact (hok tokens hscan).2.2
    | error e =>
      rcases hbad e hscan with ⟨-, hc⟩ | ⟨hkind, -⟩
      · exact hc
      · have := h.1 e hscan
        rw [hkind] at this
        cases this
  · rcases hbad e he with ⟨hkind, -⟩ | ⟨-, hnc⟩
    · exact hkind
    · exact absurd (show Convertible u source from h) hnc

/-- The ASCII part of the tables, and the superscript 2. -/
def ascii : Unicode where
  casefold := List.map Char.toLower
  upper := List.map Char.toUpper
  isalpha := Char.isAlpha
  isspace := Char.isWhitespace
  decimal := fun c => if c.isDigit then some (Fin.ofNat 10 (c.toNat - 48)) else none
  otherDigit := fun c => c == '²'
  otherNumeric := fun _ => false
  repr := fun s => "'" ++ String.ofList s ++ "'"
  intMaxStrDigits := 4300
  nearest := fun _ => 0

/-- **A superscript digit** is a digit to the lexer and no digit to `int`. -/
theorem lex_superscript : lex ascii ['²'] = .error ⟨.valueError, "invalid literal for int() with base 10: '²'"⟩ ∧
    ¬∀ (u : Unicode) (source : List Char), Lossless u source (lex u source) := by
  have hlex : lex ascii ['²'] = .error ⟨.valueError, "invalid literal for int() with base 10: '²'"⟩ :=
    scan_error rfl (by decide) (by decide) rfl
  refine ⟨hlex, fun h => ?_⟩
  have hkind := (h ascii ['²']).1 _ hlex
  cases hkind

end MiniPostgres
