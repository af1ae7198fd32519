import MiniPostgres.Numbers
import MiniPostgres.Lib.Lexicographic
/-!
# KeyOrder — keys are in the order of their values

`index/key.py`: the bytes of a key compare as the tuple of its values does.  Each component's bytes end where they say, so two
components that differ have a first byte in which they differ (`Below`), and it is the one that the order of the values asks for:
the flipped sign bit for integers, the flipped bits for negative floats, and for texts the order of UTF-8, with the escaped NUL
behind the terminator and before every other character.
-/
namespace MiniPostgres

open Bytes (beBytes)
open Lexicographic (Below TupleLt order_iff below_beBytes)

/-! ## The order of values -/

/-- The order of two values of one type. -/
def KeyLt : Scalar → Scalar → Prop
  | .int a, .int b     => a < b
  | .float a, .float b => floatValue a < floatValue b
  | .bool a, .bool b   => a = false ∧ b = true
  | .text s, .text t   => s < t
  | _, _               => False

/-- The values of a component: an INT64 is in range, and a FLOAT64 is neither NaN nor a zero. -/
def Admissible : DataType → Scalar → Prop
  | .int64, .int n      => int64Min ≤ n ∧ n ≤ int64Max
  | .float64, .float b  => isNan b = false ∧ floatPlace b ≠ 0
  | .boolean, .bool _   => True
  | .text, .text _      => True
  | _, _                => False

/-! ## Numbers -/

theorem bigEndian64_eq (n : Nat) : bigEndian64 n = beBytes 8 n := by
  simp [bigEndian64, beBytes, List.range, List.range.loop, Nat.div_div_eq_div_mul]

theorem below_bigEndian64 {m n : Nat} (h : m < n) (hn : n < 2 ^ 64) : Below (bigEndian64 m) (bigEndian64 n) := by
  rw [bigEndian64_eq, bigEndian64_eq]
  exact below_beBytes h hn

theorem sortableFloat_place (a : BitVec 64) :
    ((sortableFloat a : Int) = 2 ^ 63 - 1 + floatPlace a ∧ floatPlace a ≤ 0) ∨
      ((sortableFloat a : Int) = 2 ^ 63 + floatPlace a ∧ 0 ≤ floatPlace a) := by
  have ha := a.isLt
  unfold sortableFloat floatPlace signBit
  by_cases h : 2 ^ 63 ≤ a.toNat
  · rw [if_pos h, if_pos h]
    omega
  · rw [if_neg h, if_neg h]
    omega

/-- **It grows with the place.** -/
theorem sortableFloat_lt {a b : BitVec 64} (h : floatPlace a < floatPlace b) : sortableFloat a < sortableFloat b := by
  have ha := sortableFloat_place a
  have hb := sortableFloat_place b
  omega

theorem sortableFloat_bound (a : BitVec 64) : sortableFloat a < 2 ^ 64 := by
  have ha := a.isLt
  unfold sortableFloat signBit
  split <;> omega

theorem floatPlace_inj {a b : BitVec 64} (ha : floatPlace a ≠ 0) (h : floatPlace a = floatPlace b) : a = b := by
  have hla := a.isLt
  have hlb := b.isLt
  apply BitVec.eq_of_toNat_eq
  unfold floatPlace at ha h
  split at h <;> split at h <;> omega

/-! ## Texts -/

/-- The bytes of a character in a key. -/
def escapeChar (c : Char) : List UInt8 := (String.utf8EncodeChar c).flatMap (fun b => if b = 0 then [0, 255] else [b])

theorem escapeText_utf8 (s : List Char) : escapeText (utf8 s) = s.flatMap escapeChar ++ [0, 0] := by
  rw [escapeText, utf8, List.flatMap_assoc]
  rfl

theorem escape_of_nonzero : ∀ {bytes : List UInt8}, (∀ b ∈ bytes, b ≠ 0) →
    bytes.flatMap (fun b => if b = 0 then [0, 255] else [b]) = bytes
  | [], _          => rfl
  | b :: bytes, h => by
    rw [List.flatMap_cons, if_neg (h b List.mem_cons_self), escape_of_nonzero (fun c hc => h c (List.mem_cons_of_mem _ hc))]
    rfl

theorem below_step {m n : Nat} {s t : List UInt8} (hn : n < 256) (h : m < n ∨ (m = n ∧ Below s t)) :
    Below (UInt8.ofNat m :: s) (UInt8.ofNat n :: t) := by
  rcases h with h | ⟨rfl, h⟩
  · exact Below.head (Lexicographic.ofNat_lt h hn) s t
  · exact h.tail _

/-- **UTF-8 keeps the order of code points.** -/
theorem below_utf8 {c d : Char} (h : c < d) : Below (String.utf8EncodeChar c) (String.utf8EncodeChar d) := by
  have hlt : c.val.toNat < d.val.toNat := h
  have hmax : d.val.toNat < 0x110000 := by
    have hv := d.valid
    rcases hv with hv | ⟨-, hv⟩
    · have : d.val.toNat < 0xd800 := hv
      omega
    · exact hv
  unfold String.utf8EncodeChar
  simp only
  generalize c.val.toNat = v at hlt
  generalize d.val.toNat = w at hlt hmax
  by_cases hv1 : v ≤ 0x7f
  · rw [if_pos hv1]
    by_cases hw1 : w ≤ 0x7f
    · rw [if_pos hw1]
      exact below_step (by omega) (.inl hlt)
    · rw [if_neg hw1]
      -- the first byte of a longer character is at least `0xc0`
      split
      · exact below_step (by omega) (.inl (by omega))
      · split <;> exact below_step (by omega) (.inl (by omega))
  · rw [if_neg hv1, if_neg (show ¬w ≤ 0x7f by omega)]
    by_cases hv2 : v ≤ 0x7ff
    · rw [if_pos hv2]
      by_cases hw2 : w ≤ 0x7ff
      · rw [if_pos hw2]
        refine below_step (by omega) ?_
        by_cases h1 : v / 64 = w / 64
        · exact .inr ⟨by omega, below_step (by omega) (.inl (by omega))⟩
        · exact .inl (by omega)
      · rw [if_neg hw2]
        split <;> exact below_step (by omega) (.inl (by omega))
    · rw [if_neg hv2, if_neg (show ¬w ≤ 0x7ff by omega)]
      by_cases hv3 : v ≤ 0xffff
      · rw [if_pos hv3]
        by_cases hw3 : w ≤ 0xffff
        · rw [if_pos hw3]
          refine below_step (by omega) ?_
          by_cases h1 : v / 4096 = w / 4096
          · refine .inr ⟨by omega, below_step (by omega) ?_⟩
            by_cases h2 : v / 64 = w / 64
            · exact .inr ⟨by omega, below_step (by omega) (.inl (by omega))⟩
            · exact .inl (by omega)
          · exact .inl (by omega)
        · rw [if_neg hw3]
          exact below_step (by omega) (.inl (by omega))
      · rw [if_neg hv3, if_neg (show ¬w ≤ 0xffff by omega)]
        refine below_step (by omega) ?_
        by_cases h1 : v / 262144 = w / 262144
        · refine .inr ⟨by omega, below_step (by omega) ?_⟩
          by_cases h2 : v / 4096 = w / 4096
          · refine .inr ⟨by omega, below_step (by omega) ?_⟩
            by_cases h3 : v / 64 = w / 64
            · exact .inr ⟨by omega, below_step (by omega) (.inl (by omega))⟩
            · exact .inl (by omega)
          · exact .inl (by omega)
        · exact .inl (by omega)

theorem utf8_nonzero {c : Char} (h : c.val.toNat ≠ 0) : ∀ b ∈ String.utf8EncodeChar c, b ≠ 0 := by
  have hbyte : ∀ {n : Nat}, 0 < n → n < 256 → UInt8.ofNat n ≠ 0 := by
    intro n h0 h256 he
    have := congrArg UInt8.toNat he
    rw [UInt8.toNat_ofNat'] at this
    simp at this
    omega
  intro b hb
  unfold String.utf8EncodeChar at hb
  simp only at hb
  generalize c.val.toNat = v at h hb
  split at hb
  · rw [List.mem_singleton.1 hb]
    exact hbyte (by omega) (by omega)
  · split at hb
    · simp only [List.mem_cons, List.not_mem_nil, or_false] at hb
      rcases hb with rfl | rfl <;> exact hbyte (by omega) (by omega)
    · split at hb
      · simp only [List.mem_cons, List.not_mem_nil, or_false] at hb
        rcases hb with rfl | rfl | rfl <;> exact hbyte (by omega) (by omega)
      · simp only [List.mem_cons, List.not_mem_nil, or_false] at hb
        rcases hb with rfl | rfl | rfl | rfl <;> exact hbyte (by omega) (by omega)

theorem escapeChar_nonzero {c : Char} (h : c.val.toNat ≠ 0) : escapeChar c = String.utf8EncodeChar c :=
  escape_of_nonzero (utf8_nonzero h)

theorem escapeChar_zero {c : Char} (h : c.val.toNat = 0) : escapeChar c = [0, 255] := by
  have hutf : String.utf8EncodeChar c = [0] := by
    unfold String.utf8EncodeChar
    simp [h]
  rw [escapeChar, hutf]
  rfl

/-- The first byte of a character's key is not zero, unless it is NUL's, which `0xff` follows. -/
theorem escapeChar_cases (c : Char) : (c.val.toNat = 0 ∧ escapeChar c = [0, 255]) ∨
    (c.val.toNat ≠ 0 ∧ ∃ b rest, escapeChar c = b :: rest ∧ 0 < b) := by
  by_cases h : c.val.toNat = 0
  · exact .inl ⟨h, escapeChar_zero h⟩
  · refine .inr ⟨h, ?_⟩
    have hnonzero := utf8_nonzero h
    rw [escapeChar_nonzero h]
    cases hb : String.utf8EncodeChar c with
    | nil => exact absurd hb (String.utf8EncodeChar_ne_nil)
    | cons b rest =>
      rw [hb] at hnonzero
      refine ⟨b, rest, rfl, ?_⟩
      have hb0 := hnonzero b List.mem_cons_self
      rw [UInt8.lt_iff_toNat_lt]
      have : b.toNat ≠ 0 := fun h0 => hb0 (UInt8.toNat_inj.1 h0)
      exact Nat.pos_of_ne_zero this

/-- **The escape keeps the order.** -/
theorem below_escapeChar {c d : Char} (h : c < d) : Below (escapeChar c) (escapeChar d) := by
  have hlt : c.val.toNat < d.val.toNat := h
  have hd : d.val.toNat ≠ 0 := by omega
  rcases escapeChar_cases c with ⟨-, hc⟩ | ⟨hc, -⟩
  · obtain ⟨-, b, rest, hb, hpos⟩ := (escapeChar_cases d).resolve_left (fun h0 => hd h0.1)
    rw [hc, hb]
    exact Below.head hpos _ _
  · rw [escapeChar_nonzero hc, escapeChar_nonzero hd]
    exact below_utf8 h

theorem below_terminator (c : Char) : Below [0, 0] (escapeChar c) := by
  rcases escapeChar_cases c with ⟨-, hc⟩ | ⟨-, b, rest, hb, hpos⟩
  · rw [hc]
    exact (Below.head (by decide) [] []).tail 0
  · rw [hb]
    exact Below.head hpos _ _

/-- **Texts with their terminators are in the order of the texts.** -/
theorem below_text : ∀ {s t : List Char}, s < t → Below (s.flatMap escapeChar ++ [0, 0]) (t.flatMap escapeChar ++ [0, 0])
  | s, [], h           => absurd h (List.not_lt_nil s)
  | [], d :: t, _      => by
    rw [List.flatMap_cons, List.append_assoc]
    have hb := (below_terminator d).append [] (t.flatMap escapeChar ++ [0, 0])
    rwa [List.append_nil] at hb
  | c :: s, d :: t, h => by
    rw [List.flatMap_cons, List.flatMap_cons, List.append_assoc, List.append_assoc]
    rcases List.cons_lt_cons_iff.1 h with hcd | ⟨rfl, hst⟩
    · exact (below_escapeChar hcd).append _ _
    · exact (below_text hst).append_left _

/-! ## Components -/

theorem keyLt_total {d : DataType} {v w : Scalar} (hv : Admissible d v) (hw : Admissible d w) :
    KeyLt v w ∨ v = w ∨ KeyLt w v := by
  cases d <;> cases v <;> first | exact absurd hv id | skip
  case int64.int a =>
    cases w <;> first | exact absurd hw id | skip
    rename_i b
    rcases lt_trichotomy a b with h | rfl | h
    · exact .inl h
    · exact .inr (.inl rfl)
    · exact .inr (.inr h)
  case float64.float a =>
    cases w <;> first | exact absurd hw id | skip
    rename_i b
    rcases lt_trichotomy (floatPlace a) (floatPlace b) with h | h | h
    · exact .inl ((floatValue_lt_iff hv.1 hw.1).2 h)
    · exact .inr (.inl (by rw [floatPlace_inj hv.2 h]))
    · exact .inr (.inr ((floatValue_lt_iff hw.1 hv.1).2 h))
  case boolean.bool a =>
    cases w <;> first | exact absurd hw id | skip
    rename_i b
    cases a <;> cases b <;> simp [KeyLt]
  case text.text s =>
    cases w <;> first | exact absurd hw id | skip
    rename_i t
    rcases lt_trichotomy s t with h | rfl | h
    · exact .inl h
    · exact .inr (.inl rfl)
    · exact .inr (.inr h)

theorem encodeComponent_returns {d : DataType} {v : Scalar} (h : Admissible d v) : ∃ bytes, encodeComponent d v = .ok bytes := by
  cases d <;> cases v <;> first | exact absurd h id | skip
  case int64.int n =>
    have hn : validateInt64 n = .ok n := if_neg (not_or.2 ⟨not_lt.2 h.1, not_lt.2 h.2⟩)
    unfold encodeComponent
    simp only [hn]
    exact ⟨_, rfl⟩
  case float64.float b =>
    unfold encodeComponent
    simp only [h.1]
    exact ⟨_, rfl⟩
  case boolean.bool b => exact ⟨_, rfl⟩
  case text.text s => exact ⟨_, rfl⟩

/-- **A lesser value has lesser bytes**, at the first difference. -/
theorem below_component {d : DataType} {v w : Scalar} {x y : List UInt8} (hv : Admissible d v) (hw : Admissible d w)
    (hx : encodeComponent d v = .ok x) (hy : encodeComponent d w = .ok y) (h : KeyLt v w) : Below x y := by
  cases d <;> cases v <;> first | exact absurd hv id | skip
  case int64.int a =>
    cases w <;> first | exact absurd hw id | skip
    rename_i b
    have ha : validateInt64 a = .ok a := if_neg (not_or.2 ⟨not_lt.2 hv.1, not_lt.2 hv.2⟩)
    have hb : validateInt64 b = .ok b := if_neg (not_or.2 ⟨not_lt.2 hw.1, not_lt.2 hw.2⟩)
    unfold encodeComponent at hx hy
    simp only [ha, bind, Except.bind, Except.ok.injEq] at hx
    simp only [hb, bind, Except.bind, Except.ok.injEq] at hy
    rw [← hx, ← hy]
    have hlt : a < b := h
    obtain ⟨ha1, ha2⟩ := hv
    obtain ⟨hb1, hb2⟩ := hw
    unfold int64Min int64Max at *
    exact (below_bigEndian64 (by unfold signBit; omega) (by unfold signBit; omega)).tail 1
  case float64.float a =>
    cases w <;> first | exact absurd hw id | skip
    rename_i b
    unfold encodeComponent at hx hy
    simp only [hv.1, Bool.false_eq_true, if_false, Except.ok.injEq] at hx
    simp only [hw.1, Bool.false_eq_true, if_false, Except.ok.injEq] at hy
    rw [← hx, ← hy]
    exact (below_bigEndian64 (sortableFloat_lt ((floatValue_lt_iff hv.1 hw.1).1 h)) (sortableFloat_bound b)).tail 2
  case boolean.bool a =>
    cases w <;> first | exact absurd hw id | skip
    rename_i b
    obtain ⟨rfl, rfl⟩ : a = false ∧ b = true := h
    cases hx
    cases hy
    exact (Below.head (by decide) [] []).tail 3
  case text.text s =>
    cases w <;> first | exact absurd hw id | skip
    rename_i t
    cases hx
    cases hy
    rw [escapeText_utf8, escapeText_utf8]
    exact (below_text h).tail 4

/-! ## Keys -/

theorem encodeComponents_returns : ∀ {types : List DataType} {a : Values}, List.Forall₂ Admissible types a →
    ∃ key, encodeComponents types a = .ok key
  | _, _, .nil         => ⟨[], rfl⟩
  | _, _, .cons hv ha => by
    obtain ⟨x, hx⟩ := encodeComponent_returns hv
    obtain ⟨rest, hrest⟩ := encodeComponents_returns ha
    refine ⟨x ++ rest, ?_⟩
    rw [encodeComponents, hx, hrest]
    rfl

theorem tupleLt_total :
    ∀ {types : List DataType} {a b : Values}, List.Forall₂ Admissible types a → List.Forall₂ Admissible types b →
    TupleLt KeyLt a b ∨ a = b ∨ TupleLt KeyLt b a
  | _, _, _, .nil, .nil               => .inr (.inl rfl)
  | _, _, _, .cons hv ha, .cons hw hb => by
    rcases keyLt_total hv hw with h | rfl | h
    · exact .inl (.inl h)
    · rcases tupleLt_total ha hb with h | rfl | h
      · exact .inl (.inr ⟨rfl, h⟩)
      · exact .inr (.inl rfl)
      · exact .inr (.inr (.inr ⟨rfl, h⟩))
    · exact .inr (.inr (.inl h))

theorem below_key : ∀ {types : List DataType} {a b : Values} {ka kb : Key}, List.Forall₂ Admissible types a →
    List.Forall₂ Admissible types b → encodeComponents types a = .ok ka → encodeComponents types b = .ok kb →
      TupleLt KeyLt a b → Below ka kb
  | _, _, _, _, _, .nil, .nil, _, _, h                   => absurd h id
  | _, _, _, _, _, .cons hv ha, .cons hw hb, hka, hkb, h => by
    rw [encodeComponents] at hka hkb
    obtain ⟨x, hx, hka⟩ := bind_eq_ok.1 hka
    obtain ⟨s, hs, hka⟩ := bind_eq_ok.1 hka
    obtain ⟨y, hy, hkb⟩ := bind_eq_ok.1 hkb
    obtain ⟨t, ht, hkb⟩ := bind_eq_ok.1 hkb
    cases hka
    cases hkb
    rcases h with h | ⟨rfl, h⟩
    · exact (below_component hv hw hx hy h).append s t
    · cases hx.symm.trans hy
      exact (below_key ha hb hs ht h).append_left x

/-- **Keys are order-isomorphic to values**, and none is a proper prefix of another. -/
theorem key_order_isomorphic (types : List DataType) (a b : Values) (ha : List.Forall₂ Admissible types a)
    (hb : List.Forall₂ Admissible types b) : ∃ ka kb, KeyCodec.encode types a = .ok ka ∧ KeyCodec.encode types b = .ok kb ∧
      (ka < kb ↔ TupleLt KeyLt a b) ∧ (ka = kb ↔ a = b) ∧ (kb < ka ↔ TupleLt KeyLt b a) ∧ (ka <+: kb → ka = kb) := by
  obtain ⟨ka, hka⟩ := encodeComponents_returns ha
  obtain ⟨kb, hkb⟩ := encodeComponents_returns hb
  refine ⟨ka, kb, (if_neg (not_not.2 ha.length_eq.symm)).trans hka, (if_neg (not_not.2 hb.length_eq.symm)).trans hkb, ?_⟩
  refine order_iff (tupleLt_total ha hb) (below_key ha hb hka hkb) (fun he => ?_) (below_key hb ha hkb hka)
  rw [he] at hka
  exact Except.ok.inj (hka.symm.trans hkb)

/-- A text that is a prefix of another, and a lesser number behind it. -/
theorem key_order_isomorphic_pair : ∃ ka kb, KeyCodec.encode [.text, .int64] [.text ['a'], .int 5] = .ok ka ∧
    KeyCodec.encode [.text, .int64] [.text ['a', 'b'], .int (-5)] = .ok kb ∧ ka < kb := by
  obtain ⟨ka, kb, hka, hkb, hlt, -⟩ := key_order_isomorphic [.text, .int64] [.text ['a'], .int 5] [.text ['a', 'b'], .int (-5)]
    (.cons trivial (.cons (show int64Min ≤ 5 ∧ (5 : Int) ≤ int64Max by decide) .nil))
    (.cons trivial (.cons (show int64Min ≤ -5 ∧ (-5 : Int) ≤ int64Max by decide) .nil))
  exact ⟨ka, kb, hka, hkb, hlt.2 (.inl (show ['a'] < ['a', 'b'] by decide))⟩

end MiniPostgres
