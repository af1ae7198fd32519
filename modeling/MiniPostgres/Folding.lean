import MiniPostgres.Rules
/-!
# Folding — a folded expression has the value of the expression

`fold_expression` evaluates the nodes that read no column, on an empty row.  On a row that nothing was computed for (`Plain`) an
expression has the value it has on every such row with the same cells, so the folded node has the value of the node.  A row's
computed values stand under keys that are equal up to the sign of a zero.
-/
namespace MiniPostgres

/-! ## Up to the sign of a zero -/

theorem negativeZero_ne : negativeZero ≠ 0#64 := ne_of_apply_ne BitVec.toNat (by decide)

theorem floatCanon_idem (b : BitVec 64) : floatCanon (floatCanon b) = floatCanon b := by
  unfold floatCanon
  by_cases h : b = negativeZero
  · rw [if_pos h]
    exact if_neg negativeZero_ne.symm
  · rw [if_neg h, if_neg h]

theorem floatPlace_canon (b : BitVec 64) : floatPlace (floatCanon b) = floatPlace b := by
  unfold floatCanon
  split
  · rename_i h; rw [h]; decide
  · rfl

theorem isNan_canon (b : BitVec 64) : isNan (floatCanon b) = isNan b := by
  unfold floatCanon
  split
  · rename_i h; rw [h]; rfl
  · rfl

namespace Scalar

theorem canon_idem (v : Scalar) : v.canon.canon = v.canon := by
  cases v with
  | float b => simp only [canon, floatCanon_idem]
  | _ => rfl

theorem isNanValue_canon (v : Scalar) : v.canon.isNanValue = v.isNanValue := by
  cases v with
  | float b => exact isNan_canon b
  | _ => rfl

theorem canon_eq_null {v : Scalar} : v.canon = .null ↔ v = .null := by
  cases v <;> simp [canon]

end Scalar

/-! ## Keys -/

namespace BoundExpr

theorem canon_idem (e : BoundExpr) : e.canon.canon = e.canon := by
  induction e with
  | literal v d n => simp only [canon, Scalar.canon_idem]
  | cast o d n ih => simp only [canon, ih]
  | unary p o d n ih => simp only [canon, ih]
  | binary l p r d n ihl ihr => simp only [canon, ihl, ihr]
  | isNull o g ih => simp only [canon, ih]
  | function f a d n ih => simp only [canon, ih]
  | _ => rfl

theorem nanFree_canon (e : BoundExpr) : e.canon.nanFree = e.nanFree := by
  induction e with
  | literal v d n => simp only [canon, nanFree, Scalar.isNanValue_canon]
  | cast o d n ih => simp only [canon, nanFree, ih]
  | unary p o d n ih => simp only [canon, nanFree, ih]
  | binary l p r d n ihl ihr => simp only [canon, nanFree, ihl, ihr]
  | isNull o g ih => simp only [canon, nanFree, ih]
  | function f a d n ih => simp only [canon, nanFree, ih]
  | _ => rfl

theorem nanFree_of_canon {e f : BoundExpr} (h : e.canon = f.canon) : e.nanFree = f.nanFree := by
  rw [← nanFree_canon e, h, nanFree_canon]

/-- Reads no column and is not a function: `fold_expression` evaluates it. -/
theorem containsBinding_eq_false {e : BoundExpr} : e.containsBinding = false ↔ e.bindings = [] ∧ e.isFunction = false := by
  unfold containsBinding
  cases e.bindings <;> simp

end BoundExpr

namespace ExecutionRow

/-- A row that nothing was computed for. -/
def Plain (row : ExecutionRow) : Prop := row.computed = []

theorem Plain.found {row : ExecutionRow} (h : Plain row) (e : BoundExpr) : row.found e = none := found_of_plain h e

theorem plain_empty : Plain empty := rfl

theorem found_canon (row : ExecutionRow) (e : BoundExpr) : row.found e.canon = row.found e := by
  simp only [found, BoundExpr.nanFree_canon, BoundExpr.canon_idem]

theorem found_of_canon (row : ExecutionRow) {e f : BoundExpr} (h : e.canon = f.canon) : row.found e = row.found f := by
  rw [← found_canon row e, h, found_canon]

end ExecutionRow

/-! ## Folding on plain rows -/

section Plain

variable {A : FloatArith}

open ExecutionRow (Plain)

theorem evaluate_congr : ∀ {e : BoundExpr} {row row' : ExecutionRow}, Plain row → Plain row' →
    (∀ b ∈ e.bindings, row.cells.lookup b = row'.cells.lookup b) → evaluate A e row = evaluate A e row'
  | .literal v d n, row, row', h, h', _ => by simp only [evaluate, h.found, h'.found]
  | .column b m d n, row, row', h, h', hb => by
    simp only [evaluate, h.found, h'.found, hb b (List.mem_singleton_self b)]
  | .cast o d n, row, row', h, h', hb => by
    simp only [evaluate, h.found, h'.found, evaluate_congr (e := o) h h' hb]
  | .unary p o d n, row, row', h, h', hb => by
    simp only [evaluate, h.found, h'.found, evaluate_congr (e := o) h h' hb]
  | .binary l p r d n, row, row', h, h', hb => by
    simp only [evaluate, h.found, h'.found,
      evaluate_congr (e := l) h h' (fun b hm => hb b (List.mem_append_left _ hm)),
      evaluate_congr (e := r) h h' (fun b hm => hb b (List.mem_append_right _ hm))]
  | .isNull o g, row, row', h, h', hb => by
    simp only [evaluate, h.found, h'.found, evaluate_congr (e := o) h h' hb]
  | .function f a d n, row, row', h, h', _ => by simp only [evaluate, h.found, h'.found]
  | .countStar, row, row', h, h', _ => by simp only [evaluate, h.found, h'.found]

theorem foldNode_cases {r e : BoundExpr} (h : foldNode A r = .ok e) : (e = r ∧ r.containsBinding = true) ∨
    (r.bindings = [] ∧ r.isFunction = false ∧ ∃ v, evaluate A r .empty = .ok v ∧
      e = .literal v r.dataType (decide (v = .null))) := by
  unfold foldNode at h
  split at h
  · rename_i hc
    cases h
    exact .inl ⟨rfl, hc⟩
  · rename_i hc
    obtain ⟨v, hv, he⟩ := bind_eq_ok.1 h
    cases he
    obtain ⟨hb, hf⟩ := BoundExpr.containsBinding_eq_false.1 (Bool.eq_false_iff.2 hc)
    exact .inr ⟨hb, hf, v, hv, rfl⟩

theorem evaluate_foldNode {r e : BoundExpr} {row : ExecutionRow} (hp : Plain row) (h : foldNode A r = .ok e) :
    evaluate A e row = evaluate A r row := by
  rcases foldNode_cases h with ⟨rfl, -⟩ | ⟨hb, -, v, hv, rfl⟩
  · rfl
  · have hr := evaluate_congr (A := A) (e := r) hp ExecutionRow.plain_empty (fun b hm => by rw [hb] at hm; cases hm)
    rw [hr, hv]
    simp only [evaluate, hp.found]

/-- **A folded expression has the value of the expression on every plain row**, and its errors. -/
theorem evaluate_fold : ∀ {e e' : BoundExpr} {row : ExecutionRow}, Plain row → foldExpression A e = .ok e' →
    evaluate A e' row = evaluate A e row
  | .literal v d n, _, _, _, h => by cases h; rfl
  | .column b m d n, _, _, _, h => by cases h; rfl
  | .cast o d n, _, row, hp, h => by
    obtain ⟨o', ho, h⟩ := bind_eq_ok.1 h
    rw [evaluate_foldNode hp h]
    simp only [evaluate, hp.found, evaluate_fold hp ho]
  | .unary p o d n, _, row, hp, h => by
    obtain ⟨o', ho, h⟩ := bind_eq_ok.1 h
    rw [evaluate_foldNode hp h]
    simp only [evaluate, hp.found, evaluate_fold hp ho]
  | .binary l p r d n, _, row, hp, h => by
    obtain ⟨l', hl, h⟩ := bind_eq_ok.1 h
    obtain ⟨r', hr, h⟩ := bind_eq_ok.1 h
    rw [evaluate_foldNode hp h]
    simp only [evaluate, hp.found, evaluate_fold hp hl, evaluate_fold hp hr]
  | .isNull o g, _, row, hp, h => by
    obtain ⟨o', ho, h⟩ := bind_eq_ok.1 h
    rw [evaluate_foldNode hp h]
    simp only [evaluate, hp.found, evaluate_fold hp ho]
  | .function f a d n, _, row, hp, h => by
    obtain ⟨a', ha, h⟩ := bind_eq_ok.1 h
    cases h
    simp only [evaluate, hp.found]
  | .countStar, _, _, _, h => by cases h; rfl

end Plain
end MiniPostgres
