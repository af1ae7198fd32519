import MiniPostgres.Lib.Bytes
/-!
# Lexicographic — lists that differ before one of them ends

`Below u v`: the lists have a first difference, and there `u` has the lesser item.  Whatever follows does not matter, so a
concatenation of pieces is ordered by the first pieces that differ, and neither list is a prefix of the other.  Big-endian words
of one width are ordered in this way.
-/
namespace Lexicographic

open Bytes (beBytes)

variable {α : Type} [LT α] {u v : List α} {x y : α}

/-- **Less at the first difference.** -/
def Below (u v : List α) : Prop := ∃ p x y s t, u = p ++ x :: s ∧ v = p ++ y :: t ∧ x < y

theorem Below.head (h : x < y) (s t : List α) : Below (x :: s) (y :: t) := ⟨[], x, y, s, t, rfl, rfl, h⟩

theorem Below.append_left (p : List α) (h : Below u v) : Below (p ++ u) (p ++ v) := by
  obtain ⟨q, x, y, s, t, rfl, rfl, hxy⟩ := h
  exact ⟨p ++ q, x, y, s, t, (List.append_assoc _ _ _).symm, (List.append_assoc _ _ _).symm, hxy⟩

theorem Below.tail (x : α) (h : Below u v) : Below (x :: u) (x :: v) := h.append_left [x]

/-- **What follows does not matter.** -/
theorem Below.append (h : Below u v) (s t : List α) : Below (u ++ s) (v ++ t) := by
  obtain ⟨p, x, y, s', t', rfl, rfl, hxy⟩ := h
  exact ⟨p, x, y, s' ++ s, t' ++ t, by simp, by simp, hxy⟩

theorem Below.lt (h : Below u v) : u < v := by
  obtain ⟨p, x, y, s, t, rfl, rfl, hxy⟩ := h
  exact List.Lex.append_left (· < ·) (List.Lex.rel hxy) p

section asymm

variable [@Std.Asymm α (· < ·)]

theorem ne_of_less (h : x < y) : x ≠ y := by
  rintro rfl
  exact Std.Asymm.asymm _ _ h h

/-- **Neither is a prefix of the other.** -/
theorem Below.apart (h : Below u v) : ¬u <+: v ∧ ¬v <+: u := by
  obtain ⟨p, x, y, s, t, rfl, rfl, hxy⟩ := h
  constructor <;> intro hp
  · have hp := (List.prefix_append_right_inj p).1 hp
    exact absurd (List.cons_prefix_cons.1 hp).1 (ne_of_less hxy)
  · have hp := (List.prefix_append_right_inj p).1 hp
    exact absurd (List.cons_prefix_cons.1 hp).1 (ne_of_less hxy).symm

/-! ## Tuples -/

/-- The order of tuples of one length: the first components that differ decide. -/
def TupleLt {β : Type} (lt : β → β → Prop) : List β → List β → Prop
  | a :: as, b :: bs => lt a b ∨ (a = b ∧ TupleLt lt as bs)
  | _, _             => False

/-- **Three relations of keys and of tuples**, when a lesser tuple has a key that is below. -/
theorem order_iff {β : Type} {lt : β → β → Prop} {a b : β} {u v : List α} (htotal : lt a b ∨ a = b ∨ lt b a)
    (hlt : lt a b → Below u v) (heq : a = b → u = v) (hgt : lt b a → Below v u) :
    (u < v ↔ lt a b) ∧ (u = v ↔ a = b) ∧ (v < u ↔ lt b a) ∧ (u <+: v → u = v) := by
  rcases htotal with h | h | h
  · have hb := hlt h
    have hne : u ≠ v := fun he => hb.apart.1 (he ▸ List.prefix_refl u)
    exact ⟨⟨fun _ => h, fun _ => hb.lt⟩, ⟨fun he => absurd he hne, heq⟩,
      ⟨fun hg => absurd hg (List.lt_asymm hb.lt), fun hg => (hgt hg).lt⟩, fun hp => absurd hp hb.apart.1⟩
  · have he := heq h
    exact ⟨⟨fun hl => absurd (he ▸ hl) (List.lt_irrefl v), fun hl => (hlt hl).lt⟩, ⟨fun _ => h, fun _ => he⟩,
      ⟨fun hg => absurd (he ▸ hg) (List.lt_irrefl v), fun hg => (hgt hg).lt⟩, fun _ => he⟩
  · have hb := hgt h
    have hne : u ≠ v := fun he => hb.apart.1 (he ▸ List.prefix_refl u)
    exact ⟨⟨fun hl => absurd hl (List.lt_asymm hb.lt), fun hl => (hlt hl).lt⟩, ⟨fun he => absurd he hne, heq⟩,
      ⟨fun _ => h, fun _ => hb.lt⟩, fun hp => absurd hp hb.apart.2⟩

end asymm

/-! ## Words -/

theorem ofNat_lt {m n : Nat} (h : m < n) (hn : n < 256) : UInt8.ofNat m < UInt8.ofNat n := by
  rw [UInt8.lt_iff_toNat_lt, UInt8.toNat_ofNat', UInt8.toNat_ofNat']
  omega

/-- **Words of one width are below each other as their numbers are less.** -/
theorem below_beBytes : ∀ {width m n : Nat}, m < n → n < 256 ^ width → Below (beBytes width m) (beBytes width n)
  | 0, m, n, h, hn         => by
    rw [Nat.pow_zero] at hn
    omega
  | width + 1, m, n, h, hn => by
    have hdiv : n / 256 < 256 ^ width := by
      rw [Nat.pow_succ] at hn
      omega
    unfold beBytes
    rcases Nat.lt_or_ge (m / 256) (n / 256) with hlt | hge
    · exact (below_beBytes hlt hdiv).append _ _
    · rw [show m / 256 = n / 256 by omega]
      exact (Below.head (ofNat_lt (by omega) (by omega)) [] []).append_left _

end Lexicographic
