import MiniPostgres.Folding
/-!
# Constants — folding agrees with evaluation

`fold_expression` evaluates what reads no column, at any depth.  Evaluation looks at every operand, of AND and OR too, so that an
error of a constant part is an error of the whole on every row; and what is folded has no constant part left.
-/
namespace MiniPostgres

open ExecutionRow (Plain)

variable {A : FloatArith}

/-- **Folding a node again changes nothing**, when its operands are folded. -/
theorem foldNode_again {r e : BoundExpr} (h : foldNode A r = .ok e) (hr : foldExpression A r = foldNode A r) :
    foldExpression A e = .ok e := by
  rcases foldNode_cases h with ⟨rfl, -⟩ | ⟨-, -, v, -, rfl⟩
  · rw [hr, h]
  · rfl

theorem fold_again : ∀ {e e' : BoundExpr}, foldExpression A e = .ok e' → foldExpression A e' = .ok e'
  | .literal v d n, _, h => by cases h; rfl
  | .column b m d n, _, h => by cases h; rfl
  | .cast o d n, _, h => by
    obtain ⟨o', ho, h⟩ := bind_eq_ok.1 h
    exact foldNode_again h (by rw [foldExpression, fold_again ho]; rfl)
  | .unary p o d n, _, h => by
    obtain ⟨o', ho, h⟩ := bind_eq_ok.1 h
    exact foldNode_again h (by rw [foldExpression, fold_again ho]; rfl)
  | .binary l p r d n, _, h => by
    obtain ⟨l', hl, h⟩ := bind_eq_ok.1 h
    obtain ⟨r', hr, h⟩ := bind_eq_ok.1 h
    exact foldNode_again h (by rw [foldExpression, fold_again hl, fold_again hr]; rfl)
  | .isNull o g, _, h => by
    obtain ⟨o', ho, h⟩ := bind_eq_ok.1 h
    exact foldNode_again h (by rw [foldExpression, fold_again ho]; rfl)
  | .function f a d n, _, h => by
    obtain ⟨a', ha, h⟩ := bind_eq_ok.1 h
    cases h
    rw [foldExpression, fold_again ha]
    rfl
  | .countStar, _, h => by cases h; rfl

theorem bind_eq_error {α β : Type} {x : Result α} {f : α → Result β} :
    (∃ e, (x >>= f) = .error e) ↔ (∃ e, x = .error e) ∨ ∃ a, x = .ok a ∧ ∃ e, f a = .error e := by
  cases x with
  | error e => exact ⟨fun _ => .inl ⟨e, rfl⟩, fun _ => ⟨e, rfl⟩⟩
  | ok a =>
    constructor
    · exact fun h => .inr ⟨a, rfl, h⟩
    · rintro (⟨e, h⟩ | ⟨b, hb, h⟩)
      · cases h
      · cases hb
        exact h

theorem foldNode_raises {r : BoundExpr} {row : ExecutionRow} (hp : Plain row) (h : ∃ x, foldNode A r = .error x) :
    ∃ x, evaluate A r row = .error x := by
  unfold foldNode at h
  by_cases hc : r.containsBinding = true
  · rw [if_pos hc] at h
    obtain ⟨x, h⟩ := h
    cases h
  · rw [if_neg hc] at h
    obtain ⟨hb, -⟩ := BoundExpr.containsBinding_eq_false.1 (Bool.eq_false_iff.2 hc)
    rw [evaluate_congr (A := A) (e := r) hp ExecutionRow.plain_empty (fun b hm => by rw [hb] at hm; cases hm)]
    rcases bind_eq_error.1 h with h | ⟨v, -, x, h⟩
    · exact h
    · cases h

/-- **What cannot be folded raises on every row.** -/
theorem fold_raises : ∀ {e : BoundExpr} {row : ExecutionRow}, Plain row → (∃ x, foldExpression A e = .error x) →
    ∃ x, evaluate A e row = .error x
  | .literal v d n, _, _, h => by obtain ⟨x, h⟩ := h; cases h
  | .column b m d n, _, _, h => by obtain ⟨x, h⟩ := h; cases h
  | .cast o d n, row, hp, h => by
    rcases bind_eq_error.1 h with h | ⟨o', ho, h⟩
    · simp only [evaluate, hp.found]
      exact bind_eq_error.2 (.inl (fold_raises hp h))
    · have hnode := foldNode_raises hp h
      simpa only [evaluate, hp.found, evaluate_fold hp ho] using hnode
  | .unary p o d n, row, hp, h => by
    rcases bind_eq_error.1 h with h | ⟨o', ho, h⟩
    · simp only [evaluate, hp.found]
      exact bind_eq_error.2 (.inl (fold_raises hp h))
    · have hnode := foldNode_raises hp h
      simpa only [evaluate, hp.found, evaluate_fold hp ho] using hnode
  | .binary l p r d n, row, hp, h => by
    rcases bind_eq_error.1 h with h | ⟨l', hl, h⟩
    · simp only [evaluate, hp.found]
      exact bind_eq_error.2 (.inl (fold_raises hp h))
    rcases bind_eq_error.1 h with h | ⟨r', hr, h⟩
    · simp only [evaluate, hp.found]
      cases hv : evaluate A l row with
      | error x => exact ⟨x, rfl⟩
      | ok v =>
        show ∃ x, (evaluate A r row >>= fun w => binaryValue A p d v w) = .error x
        exact bind_eq_error.2 (.inl (fold_raises hp h))
    · have hnode := foldNode_raises hp h
      simpa only [evaluate, hp.found, evaluate_fold hp hl, evaluate_fold hp hr] using hnode
  | .isNull o g, row, hp, h => by
    rcases bind_eq_error.1 h with h | ⟨o', ho, h⟩
    · simp only [evaluate, hp.found]
      exact bind_eq_error.2 (.inl (fold_raises hp h))
    · have hnode := foldNode_raises hp h
      simpa only [evaluate, hp.found, evaluate_fold hp ho] using hnode
  | .function f a d n, row, hp, _ => by
    simp only [evaluate, hp.found]
    exact ⟨_, rfl⟩
  | .countStar, _, _, h => by obtain ⟨x, h⟩ := h; cases h

/-- **Constant folding agrees with evaluation**: on every row without computed values the folded expression has the value or the
error of the expression, it is its own folding, and an expression that cannot be folded raises on every such row. -/
theorem fold_agrees (A : FloatArith) (e : BoundExpr) :
    (∀ e', foldExpression A e = .ok e' → (∀ row : ExecutionRow, row.computed = [] → evaluate A e' row = evaluate A e row) ∧
      foldExpression A e' = .ok e') ∧
    ∀ x, foldExpression A e = .error x → ∀ row : ExecutionRow, row.computed = [] → ∃ y, evaluate A e row = .error y :=
  ⟨fun _ h => ⟨fun _ hp => evaluate_fold hp h, fold_again h⟩, fun x h _ hp => fold_raises hp ⟨x, h⟩⟩

end MiniPostgres
