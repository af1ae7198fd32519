import MiniPostgres.BinderScope
import MiniPostgres.Folding
/-!
# Convergence — how many passes the rewrites need

Every pass moves a conjunct of the WHERE clause below one join.  After the first pass nothing is left to fold, so the passes of
`RuleOptimizer.rewrite` are over when every conjunct has come to its place: the bound on the passes is a bound on the joins that a
conjunct moves below.
-/
namespace MiniPostgres

open Operators (mapRows mapRows_forall₂)
open Binder (containsAggregate)

namespace Rules

variable {A : FloatArith}

/-! ## Folded expressions -/

theorem foldNode_idem {r e : BoundExpr} (h : foldNode A r = .ok e) (hr : e = r → foldExpression A r = foldNode A r) :
    foldExpression A e = .ok e := by
  rcases foldNode_cases h with ⟨rfl, -⟩ | ⟨-, -, v, -, rfl⟩
  · rw [hr rfl, h]
  · rfl

/-- **A folded expression folds to itself.** -/
theorem foldExpression_idem : ∀ {e e' : BoundExpr}, foldExpression A e = .ok e' → foldExpression A e' = .ok e'
  | .literal v d n, _, h => by cases h; rfl
  | .column b m d n, _, h => by cases h; rfl
  | .cast o d n, _, h => by
    obtain ⟨o', ho, h⟩ := bind_eq_ok.1 h
    exact foldNode_idem h (fun _ => by rw [foldExpression, foldExpression_idem ho]; rfl)
  | .unary p o d n, _, h => by
    obtain ⟨o', ho, h⟩ := bind_eq_ok.1 h
    exact foldNode_idem h (fun _ => by rw [foldExpression, foldExpression_idem ho]; rfl)
  | .binary l p r d n, _, h => by
    obtain ⟨l', hl, h⟩ := bind_eq_ok.1 h
    obtain ⟨r', hr, h⟩ := bind_eq_ok.1 h
    exact foldNode_idem h (fun _ => by rw [foldExpression, foldExpression_idem hl, foldExpression_idem hr]; rfl)
  | .isNull o g, _, h => by
    obtain ⟨o', ho, h⟩ := bind_eq_ok.1 h
    exact foldNode_idem h (fun _ => by rw [foldExpression, foldExpression_idem ho]; rfl)
  | .function f a d n, _, h => by
    obtain ⟨a', ha, h⟩ := bind_eq_ok.1 h
    cases h
    rw [foldExpression, foldExpression_idem ha]
    rfl
  | .countStar, _, h => by cases h; rfl

def IsLiteral (e : BoundExpr) : Prop := ∃ v d n, e = .literal v d n

theorem foldNode_plain {r e : BoundExpr} (h : foldNode A r = .ok e) (hf : r.isFunction = false) :
    IsLiteral e ∨ e.bindings ≠ [] := by
  rcases foldNode_cases h with ⟨rfl, hc⟩ | ⟨-, -, v, -, rfl⟩
  · refine Or.inr (fun hb => ?_)
    rw [BoundExpr.containsBinding, hb, hf] at hc
    cases hc
  · exact Or.inl ⟨v, _, _, rfl⟩

theorem foldExpression_plain {e e' : BoundExpr} (hn : containsAggregate e = false) (h : foldExpression A e = .ok e') :
    IsLiteral e' ∨ e'.bindings ≠ [] := by
  cases e with
  | literal v d n => cases h; exact Or.inl ⟨v, d, n, rfl⟩
  | column b m d n => cases h; exact Or.inr (List.cons_ne_nil _ _)
  | cast o d n => obtain ⟨o', -, h⟩ := bind_eq_ok.1 h; exact foldNode_plain h rfl
  | unary p o d n => obtain ⟨o', -, h⟩ := bind_eq_ok.1 h; exact foldNode_plain h rfl
  | binary l p r d n =>
    obtain ⟨l', -, h⟩ := bind_eq_ok.1 h
    obtain ⟨r', -, h⟩ := bind_eq_ok.1 h
    exact foldNode_plain h rfl
  | isNull o g => obtain ⟨o', -, h⟩ := bind_eq_ok.1 h; exact foldNode_plain h rfl
  | function f a d n => cases hn
  | countStar => cases hn

/-! ### Conjuncts -/

/-- The values of three-valued logic. -/
def IsSqlBool (v : Scalar) : Prop := ∃ b, v = Scalar.ofSqlBool b

/-- What is known of a conjunct of a folded predicate: it stands alone and is folded, and it reads a column unless it is one of
the three truth values. -/
structure Settled (A : FloatArith) (c : BoundExpr) : Prop where
  alone  : conjuncts c = [c]
  folded : foldExpression A c = .ok c
  reads  : (∃ v d n, c = .literal v d n ∧ IsSqlBool v) ∨ c.bindings ≠ []

theorem compareBy_isSqlBool {p : BinaryOperator} {a b c d e : Bool} {v : Scalar} (h : compareBy p a b c d e = .ok v) :
    IsSqlBool v := by
  cases p <;> cases h <;> exact ⟨some _, rfl⟩

theorem compareValues_isSqlBool {p : BinaryOperator} {l r v : Scalar} (h : compareValues A p l r = .ok v) : IsSqlBool v := by
  unfold compareValues at h
  split at h
  · cases h; exact ⟨none, rfl⟩
  · cases h; exact ⟨none, rfl⟩
  · obtain ⟨a, -, h⟩ := bind_eq_ok.1 h
    obtain ⟨b, -, h⟩ := bind_eq_ok.1 h
    exact compareBy_isSqlBool h
  all_goals first | exact compareBy_isSqlBool h | exact absurd h raise_ne_ok

theorem sqlAnd_isSqlBool {l r v : Scalar} (h : sqlAnd l r = .ok v) : IsSqlBool v := by
  obtain ⟨a, -, h⟩ := bind_eq_ok.1 h
  obtain ⟨b, -, h⟩ := bind_eq_ok.1 h
  cases h
  exact ⟨_, rfl⟩

theorem sqlOr_isSqlBool {l r v : Scalar} (h : sqlOr l r = .ok v) : IsSqlBool v := by
  obtain ⟨a, -, h⟩ := bind_eq_ok.1 h
  obtain ⟨b, -, h⟩ := bind_eq_ok.1 h
  cases h
  exact ⟨_, rfl⟩

theorem binaryValue_isSqlBool {scope : List ScopeEntry} {l r : BoundExpr} {p : BinaryOperator} {n : Bool} {v w u : Scalar}
    (hw : WellTyped scope (.binary l p r .boolean n)) (h : binaryValue A p .boolean v w = .ok u) : IsSqlBool u := by
  have harith : ¬DataType.Numeric .boolean := by rintro (h | h) <;> cases h
  cases p with
  | and => exact sqlAnd_isSqlBool h
  | or => exact sqlOr_isSqlBool h
  | add => exact absurd hw.1.2.2 harith
  | sub => exact absurd hw.1.2.2 harith
  | mul => exact absurd hw.1.2.2 harith
  | div => exact absurd hw.1.2.2 harith
  | _ => exact compareValues_isSqlBool h

theorem Settled.of_self {c : BoundExpr} (h : conjuncts c = [c]) (hf : foldExpression A c = .ok c)
    (hr : (∃ v d n, c = .literal v d n ∧ IsSqlBool v) ∨ c.bindings ≠ []) : ∀ c' ∈ conjuncts c, Settled A c' := by
  intro c' hc'
  rw [h] at hc'
  cases List.mem_singleton.1 hc'
  exact ⟨h, hf, hr⟩

/-- **The conjuncts of a folded WHERE clause.** -/
theorem settled_of_fold {scope : List ScopeEntry} : ∀ {e e' : BoundExpr}, WellTyped scope e → e.dataType = some .boolean →
    containsAggregate e = false → foldExpression A e = .ok e' → ∀ c ∈ conjuncts e', Settled A c := by
  intro e
  induction e with
  | literal v d n =>
    intro e' hw hd _ h
    cases h
    refine Settled.of_self rfl rfl (Or.inl ⟨v, d, n, rfl, ?_⟩)
    cases v with
    | null => exact ⟨none, rfl⟩
    | bool b => exact ⟨some b, rfl⟩
    | _ =>
      have ht := hw.2.1 (by simp)
      rw [show d = some .boolean from hd] at ht
      cases ht
  | column b m d n =>
    intro e' _ _ _ h
    cases h
    exact Settled.of_self rfl rfl (Or.inr (List.cons_ne_nil _ _))
  | cast o d n =>
    intro e' hw hd
    obtain rfl : d = .boolean := Option.some.inj hd
    cases hw.1
  | unary p o d n =>
    intro e' hw hd _ hfold
    obtain rfl : d = .boolean := Option.some.inj hd
    have hidem := foldExpression_idem hfold
    obtain ⟨o', -, h⟩ := bind_eq_ok.1 hfold
    rcases foldNode_cases h with ⟨rfl, hc⟩ | ⟨-, -, v, hv, rfl⟩
    · refine Settled.of_self rfl hidem (Or.inr (fun hb => ?_))
      rw [BoundExpr.containsBinding, hb] at hc
      cases hc
    · refine Settled.of_self rfl rfl (Or.inl ⟨v, _, _, rfl, ?_⟩)
      have hp : p = .not := by
        by_contra hp
        have hn := hw.2.1
        rw [if_neg hp] at hn
        rcases hn with hn | hn <;> cases hn
      subst hp
      simp only [evaluate, ExecutionRow.plain_empty.found] at hv
      obtain ⟨w, -, hv⟩ := bind_eq_ok.1 hv
      obtain ⟨b, -, hv⟩ := bind_eq_ok.1 hv
      cases hv
      exact ⟨_, rfl⟩
  | binary l p r d n ihl ihr =>
    intro e' hw hd hn hfold
    obtain rfl : d = .boolean := Option.some.inj hd
    have hidem := foldExpression_idem hfold
    obtain ⟨l', hl, h⟩ := bind_eq_ok.1 hfold
    obtain ⟨r', hr, h⟩ := bind_eq_ok.1 h
    obtain ⟨hnl, hnr⟩ := Bool.or_eq_false_iff.1 (show (containsAggregate l || containsAggregate r) = false from hn)
    rcases foldNode_cases h with ⟨rfl, hc⟩ | ⟨-, -, v, hv, rfl⟩
    · have hreads : (BoundExpr.binary l' p r' .boolean n).bindings ≠ [] := by
        intro hb
        rw [BoundExpr.containsBinding, hb] at hc
        cases hc
      cases p with
      | and =>
        intro c hc'
        rcases List.mem_append.1 (show c ∈ conjuncts l' ++ conjuncts r' from hc') with hc' | hc'
        · exact ihl hw.2.2.1 hw.1.1 hnl hl c hc'
        · exact ihr hw.2.2.2 hw.1.2.1 hnr hr c hc'
      | _ => exact Settled.of_self rfl hidem (Or.inr hreads)
    · refine Settled.of_self rfl rfl (Or.inl ⟨v, _, _, rfl, ?_⟩)
      simp only [evaluate, ExecutionRow.plain_empty.found] at hv
      obtain ⟨x, -, hv⟩ := bind_eq_ok.1 hv
      obtain ⟨y, -, hv⟩ := bind_eq_ok.1 hv
      exact binaryValue_isSqlBool hw hv
  | isNull o g =>
    intro e' _ _ _ hfold
    have hidem := foldExpression_idem hfold
    obtain ⟨o', -, h⟩ := bind_eq_ok.1 hfold
    rcases foldNode_cases h with ⟨rfl, hc⟩ | ⟨-, -, v, hv, rfl⟩
    · refine Settled.of_self rfl hidem (Or.inr (fun hb => ?_))
      rw [BoundExpr.containsBinding, hb] at hc
      cases hc
    · refine Settled.of_self rfl rfl (Or.inl ⟨v, _, _, rfl, ?_⟩)
      simp only [evaluate, ExecutionRow.plain_empty.found] at hv
      obtain ⟨x, -, hv⟩ := bind_eq_ok.1 hv
      cases hv
      exact ⟨some _, rfl⟩
  | function f a d n => intro e' _ _ hn; cases hn
  | countStar => intro e' _ _ hn; cases hn

/-- A list of conjuncts whose conjunction folds to itself: not two constants meet. -/
def Stable : List BoundExpr → Prop
  | []          => False
  | [c]         => c.bindings ≠ []
  | c :: c' :: _ => c.bindings ≠ [] ∨ c'.bindings ≠ []

theorem Stable.append {cs : List BoundExpr} (h : Stable cs) (ds : List BoundExpr) : Stable (cs ++ ds) := by
  match cs, ds, h with
  | [c], [], h => exact h
  | [c], d :: ds, h => exact Or.inl h
  | c :: c' :: cs, ds, h => exact h

theorem conjuncts_foldl : ∀ (cs : List BoundExpr) (e : BoundExpr), (∀ c ∈ cs, conjuncts c = [c]) →
    conjuncts (cs.foldl conjoin e) = conjuncts e ++ cs
  | [], e, _ => (List.append_nil _).symm
  | c :: cs, e, h => by
    rw [List.foldl_cons, conjuncts_foldl cs _ (fun c hc => h c (List.mem_cons_of_mem _ hc))]
    show (conjuncts e ++ conjuncts c) ++ cs = _
    rw [h c List.mem_cons_self, List.append_assoc, List.singleton_append]

theorem conjuncts_combine {c : BoundExpr} {cs : List BoundExpr} (h : ∀ d ∈ c :: cs, Settled A d) :
    conjuncts (combine c cs) = c :: cs := by
  rw [combine, conjuncts_foldl cs c (fun d hd => (h d (List.mem_cons_of_mem _ hd)).alone), (h c List.mem_cons_self).alone,
    List.singleton_append]

theorem foldExpression_conjoin {e c : BoundExpr} (he : foldExpression A e = .ok e) (hc : foldExpression A c = .ok c)
    (hb : e.bindings ≠ [] ∨ c.bindings ≠ []) : foldExpression A (conjoin e c) = .ok (conjoin e c) := by
  have hn : e.bindings ++ c.bindings ≠ [] := by
    intro h
    obtain ⟨h, h'⟩ := List.append_eq_nil_iff.1 h
    rcases hb with hb | hb
    · exact hb h
    · exact hb h'
  unfold conjoin
  rw [foldExpression, he, hc]
  show foldNode A _ = _
  have hcontains : (BoundExpr.binary e .and c .boolean (e.nullable || c.nullable)).containsBinding = true := by
    simp only [BoundExpr.containsBinding, BoundExpr.bindings, BoundExpr.isFunction, Bool.or_false, Bool.not_eq_true',
      List.isEmpty_eq_false_iff]
    exact hn
  rw [foldNode, if_pos hcontains]

theorem foldExpression_foldl : ∀ (cs : List BoundExpr) (e : BoundExpr), foldExpression A e = .ok e → e.bindings ≠ [] →
    (∀ c ∈ cs, Settled A c) → foldExpression A (cs.foldl conjoin e) = .ok (cs.foldl conjoin e)
  | [], e, he, _, _ => he
  | c :: cs, e, he, hb, h => by
    rw [List.foldl_cons]
    refine foldExpression_foldl cs _ (foldExpression_conjoin he (h c List.mem_cons_self).folded (Or.inl hb)) ?_
      (fun c hc => h c (List.mem_cons_of_mem _ hc))
    exact fun hn => hb (List.append_eq_nil_iff.1 hn).1

theorem foldExpression_combine {c : BoundExpr} {cs : List BoundExpr} (hs : Stable (c :: cs)) (h : ∀ d ∈ c :: cs, Settled A d) :
    foldExpression A (combine c cs) = .ok (combine c cs) := by
  have hrest : ∀ d ∈ cs, Settled A d := fun d hd => h d (List.mem_cons_of_mem _ hd)
  by_cases hb : c.bindings = []
  · cases cs with
    | nil => exact absurd hb hs
    | cons d ds =>
      have hd : d.bindings ≠ [] := hs.resolve_left (fun hn => hn hb)
      show foldExpression A (ds.foldl conjoin (conjoin c d)) = _
      refine foldExpression_foldl ds _ (foldExpression_conjoin (h c List.mem_cons_self).folded (hrest d List.mem_cons_self).folded
        (Or.inr hd)) ?_ (fun e he => hrest e (List.mem_cons_of_mem _ he))
      exact fun hn => hd (List.append_eq_nil_iff.1 hn).2
  · exact foldExpression_foldl cs c (h c List.mem_cons_self).folded hb hrest

/-- What becomes of conjuncts that were combined: a constant, or conjuncts that stay as they are. -/
structure Folded (A : FloatArith) (cs : List BoundExpr) (q : BoundExpr) : Prop where
  folded  : foldExpression A q = .ok q
  settled : ∀ c ∈ conjuncts q, Settled A c
  origin  : ∀ c ∈ conjuncts q, c ∈ cs ∨ IsLiteral c
  shape   : (∃ v d n, q = .literal v d n ∧ IsSqlBool v) ∨ (q.bindings ≠ [] ∧ Stable (conjuncts q))

theorem Folded.step {cs : List BoundExpr} {e q c : BoundExpr} (hq : Folded A cs q) (he : foldExpression A e = .ok q)
    (hc : Settled A c) : ∃ q', foldExpression A (conjoin e c) = .ok q' ∧ Folded A (cs ++ [c]) q' := by
  have hfold : foldExpression A (conjoin e c) = foldNode A (.binary q .and c .boolean (e.nullable || c.nullable)) := by
    rw [conjoin, foldExpression, he, hc.folded]
    rfl
  rw [hfold]
  by_cases hb : q.bindings = [] ∧ c.bindings = []
  · rcases hq.shape with ⟨v, d, n, rfl, ⟨a, rfl⟩⟩ | ⟨hn, -⟩
    · rcases hc.reads with ⟨w, d', n', rfl, ⟨b, rfl⟩⟩ | hn
      · have hand : ∃ u, sqlAnd (Scalar.ofSqlBool a) (Scalar.ofSqlBool b) = .ok u := by
          cases a <;> cases b <;> exact ⟨_, rfl⟩
        obtain ⟨u, hu⟩ := hand
        have hval : IsSqlBool u := sqlAnd_isSqlBool hu
        refine ⟨.literal u (some .boolean) (decide (u = .null)), ?_, rfl, ?_, ?_, Or.inl ⟨u, _, _, rfl, hval⟩⟩
        · rw [foldNode, if_neg (by simp [BoundExpr.containsBinding, BoundExpr.bindings, BoundExpr.isFunction])]
          simp only [evaluate, ExecutionRow.plain_empty.found]
          show (sqlAnd (Scalar.ofSqlBool a) (Scalar.ofSqlBool b) >>= fun v => _) = _
          rw [hu]
          rfl
        · exact Settled.of_self rfl rfl (Or.inl ⟨u, _, _, rfl, hval⟩)
        · intro c' hc'
          cases List.mem_singleton.1 hc'
          exact Or.inr ⟨u, _, _, rfl⟩
      · exact absurd hb.2 hn
    · exact absurd hb.1 hn
  · have hn : q.bindings ++ c.bindings ≠ [] := fun h => hb (List.append_eq_nil_iff.1 h)
    have hcontains : (BoundExpr.binary q .and c .boolean (e.nullable || c.nullable)).containsBinding = true := by
      simp only [BoundExpr.containsBinding, BoundExpr.bindings, BoundExpr.isFunction, Bool.or_false, Bool.not_eq_true',
        List.isEmpty_eq_false_iff]
      exact hn
    have hconj : conjuncts (BoundExpr.binary q .and c .boolean (e.nullable || c.nullable)) = conjuncts q ++ [c] := by
      show conjuncts q ++ conjuncts c = _
      rw [hc.alone]
    refine ⟨.binary q .and c .boolean (e.nullable || c.nullable), by rw [foldNode, if_pos hcontains], ?_, ?_, ?_, Or.inr ⟨hn, ?_⟩⟩
    · rw [foldExpression, hq.folded, hc.folded]
      show foldNode A _ = _
      rw [foldNode, if_pos hcontains]
    · rw [hconj]
      intro d hd
      rcases List.mem_append.1 hd with hd | hd
      · exact hq.settled d hd
      · cases List.mem_singleton.1 hd
        exact hc
    · rw [hconj]
      intro d hd
      rcases List.mem_append.1 hd with hd | hd
      · exact (hq.origin d hd).imp_left (List.mem_append_left _)
      · exact Or.inl (List.mem_append_right _ hd)
    · rw [hconj]
      rcases hq.shape with ⟨v, d, n, rfl, -⟩ | ⟨-, hs⟩
      · exact Or.inr (fun h => hb ⟨rfl, h⟩)
      · exact hs.append _

theorem folded_foldl : ∀ (ds : List BoundExpr) {cs : List BoundExpr} {e q : BoundExpr}, Folded A cs q →
    foldExpression A e = .ok q → (∀ d ∈ ds, Settled A d) →
    ∃ q', foldExpression A (ds.foldl conjoin e) = .ok q' ∧ Folded A (cs ++ ds) q'
  | [], cs, e, q, hq, he, _ => ⟨q, he, by rw [List.append_nil]; exact hq⟩
  | d :: ds, cs, e, q, hq, he, h => by
    obtain ⟨q', he', hq'⟩ := hq.step he (h d List.mem_cons_self)
    obtain ⟨q'', he'', hq''⟩ := folded_foldl ds hq' he' (fun d hd => h d (List.mem_cons_of_mem _ hd))
    rw [List.append_assoc] at hq''
    exact ⟨q'', he'', hq''⟩

/-- **Combined conjuncts fold without an error.** -/
theorem folded_combine {c : BoundExpr} {cs : List BoundExpr} (h : ∀ d ∈ c :: cs, Settled A d) :
    ∃ q, foldExpression A (combine c cs) = .ok q ∧ Folded A (c :: cs) q := by
  have hc := h c List.mem_cons_self
  have hfirst : Folded A [c] c := by
    refine ⟨hc.folded, Settled.of_self hc.alone hc.folded hc.reads, fun d hd => ?_, hc.reads.imp_right (fun hb => ⟨hb, ?_⟩)⟩
    · rw [hc.alone] at hd
      exact Or.inl hd
    · rw [hc.alone]
      exact hb
  exact folded_foldl cs hfirst hc.folded (fun d hd => h d (List.mem_cons_of_mem _ hd))

/-! ## Conjuncts on their way down -/

def goesLeft (left : LogicalPlan) (c : BoundExpr) : Bool := readsOnly (relationIds left) c

def goesRight (left right : LogicalPlan) (c : BoundExpr) : Bool := !goesLeft left c && readsOnly (relationIds right) c

def stays (left right : LogicalPlan) (c : BoundExpr) : Bool := !goesLeft left c && !goesRight left right c

/-- **The number of joins that a conjunct moves below**, one in each pass. -/
def moves : LogicalPlan → BoundExpr → Nat
  | .join left right _, c =>
    if goesLeft left c then moves left c + 1 else if goesRight left right c then moves right c + 1 else 0
  | _, _                  => 0

/-- A filter with these conjuncts, if there are any. -/
def filteredBy (plan : LogicalPlan) : List BoundExpr → LogicalPlan
  | []      => plan
  | c :: cs => .filter plan (combine c cs)

/-- The joins with the conjuncts after some passes. -/
def dropped : Nat → LogicalPlan → List BoundExpr → LogicalPlan
  | n + 1, .join left right condition, cs =>
    filteredBy (.join (dropped n left (cs.filter (goesLeft left))) (dropped n right (cs.filter (goesRight left right))) condition)
      (cs.filter (stays left right))
  | _, plan, cs => filteredBy plan cs

/-- Joins of tables, with folded conditions. -/
def JoinTree (A : FloatArith) : LogicalPlan → Prop
  | .join left right condition => JoinTree A left ∧ JoinTree A right ∧ foldExpression A condition = .ok condition
  | .scan _ _                  => True
  | .values rows               => mapRows (mapRows (foldExpression A)) rows = .ok rows
  | _                          => False

theorem readsOnly_bindings {relations : List Nat} {c : BoundExpr} (h : readsOnly relations c = true) : c.bindings ≠ [] := by
  intro hb
  rw [readsOnly, hb] at h
  cases h

theorem goesRight_bindings {left right : LogicalPlan} {c : BoundExpr} (h : goesRight left right c = true) : c.bindings ≠ [] :=
  readsOnly_bindings (Bool.and_eq_true_iff.1 h).2

theorem stays_of_isLiteral {left right : LogicalPlan} {c : BoundExpr} (h : IsLiteral c) : stays left right c = true := by
  obtain ⟨v, d, n, rfl⟩ := h
  rfl

theorem relationIds_filteredBy (plan : LogicalPlan) (cs : List BoundExpr) :
    relationIds (filteredBy plan cs) = relationIds plan := by
  cases cs <;> rfl

theorem relationIds_dropped : ∀ (n : Nat) (plan : LogicalPlan) (cs : List BoundExpr),
    relationIds (dropped n plan cs) = relationIds plan := by
  intro n
  induction n with
  | zero => exact fun plan cs => relationIds_filteredBy plan cs
  | succ n ih =>
    intro plan cs
    cases plan with
    | join left right condition => rw [dropped, relationIds_filteredBy, relationIds, relationIds, ih, ih]
    | _ => exact relationIds_filteredBy _ cs

theorem addFilter_filteredBy {plan : LogicalPlan} (h : JoinTree A plan) (cs : List BoundExpr) :
    addFilter plan cs = filteredBy plan cs := by
  cases cs with
  | nil => rfl
  | cons c cs =>
    cases plan with
    | filter => exact h.elim
    | _ => rfl

theorem pushFilter_eq (predicate : BoundExpr) (left right : LogicalPlan) (condition : BoundExpr) :
    pushFilter predicate left right condition =
      filteredBy (.join (addFilter left ((conjuncts predicate).filter (goesLeft left)))
        (addFilter right ((conjuncts predicate).filter (goesRight left right))) condition)
        ((conjuncts predicate).filter (stays left right)) := by
  unfold pushFilter
  simp only
  show (match (conjuncts predicate).filter (stays left right) with | [] => _ | p :: ps => _) = _
  cases (conjuncts predicate).filter (stays left right) <;> rfl

theorem rewriteBottomUp_joinTree : ∀ {plan : LogicalPlan}, JoinTree A plan → rewriteBottomUp A plan = .ok plan
  | .join left right condition, h => by
    rw [rewriteBottomUp, rewriteBottomUp_joinTree h.1, rewriteBottomUp_joinTree h.2.1, h.2.2]
    rfl
  | .scan _ _, _ => rfl
  | .values rows, h => by
    rw [rewriteBottomUp, show mapRows (mapRows (foldExpression A)) rows = .ok rows from h]
    rfl

theorem not_literal {e : BoundExpr} (h : e.bindings ≠ []) {child : LogicalPlan} : rewriteFilter child e =
    match child with
    | .filter grandchild below     => .filter grandchild (conjoin below e)
    | .join left right condition   => pushFilter e left right condition
    | child                        => .filter child e := by
  cases e with
  | literal v d n => exact absurd rfl h
  | _ => rfl

theorem combine_bindings {c : BoundExpr} {cs : List BoundExpr} (hs : Stable (c :: cs)) : (combine c cs).bindings ≠ [] := by
  have hgrow : ∀ (ds : List BoundExpr) (e : BoundExpr), e.bindings ≠ [] → (ds.foldl conjoin e).bindings ≠ [] := by
    intro ds
    induction ds with
    | nil => exact fun e he => he
    | cons d ds ih => exact fun e he => ih _ (fun hn => he (List.append_eq_nil_iff.1 hn).1)
  by_cases hb : c.bindings = []
  · cases cs with
    | nil => exact absurd hb hs
    | cons d ds => exact hgrow ds _ (fun hn => hs.elim (fun h => h hb) (fun h => h (List.append_eq_nil_iff.1 hn).2))
  · exact hgrow cs c hb

theorem pushFilter_staying {q : BoundExpr} {x y : LogicalPlan} {condition : BoundExpr}
    (h : ∀ c ∈ conjuncts q, stays x y c = true) :
    pushFilter q x y condition = filteredBy (.join x y condition) (conjuncts q) := by
  have hleft : (conjuncts q).filter (goesLeft x) = [] := List.filter_eq_nil_iff.2 (fun d hd hl => by
    have := h d hd
    rw [stays, hl] at this
    cases this)
  have hright : (conjuncts q).filter (goesRight x y) = [] := List.filter_eq_nil_iff.2 (fun d hd hr => by
    have := h d hd
    rw [stays, hr, Bool.not_true, Bool.and_false] at this
    cases this)
  rw [pushFilter_eq, hleft, hright, List.filter_eq_self.2 h]
  rfl

theorem rewriteBottomUp_staying {x y x' y' : LogicalPlan} {condition : BoundExpr} {cs : List BoundExpr}
    (hx : rewriteBottomUp A x = .ok x') (hy : rewriteBottomUp A y = .ok y') (hc : foldExpression A condition = .ok condition)
    (hsettled : ∀ c ∈ cs, Settled A c) (hstays : ∀ c ∈ cs, stays x' y' c = true) (hstable : cs ≠ [] → Stable cs) :
    rewriteBottomUp A (filteredBy (.join x y condition) cs) = .ok (filteredBy (.join x' y' condition) cs) := by
  have hjoin : rewriteBottomUp A (.join x y condition) = .ok (.join x' y' condition) := by
    rw [rewriteBottomUp, hx, hy, hc]
    rfl
  cases cs with
  | nil => exact hjoin
  | cons c cs =>
    have hs : Stable (c :: cs) := hstable (List.cons_ne_nil _ _)
    show (rewriteBottomUp A (.join x y condition) >>= fun child => foldExpression A (combine c cs) >>= fun p =>
      .ok (rewriteFilter child p)) = _
    rw [hjoin, foldExpression_combine hs hsettled]
    show Except.ok (rewriteFilter (.join x' y' condition) (combine c cs)) = _
    rw [not_literal (combine_bindings hs)]
    simp only
    rw [pushFilter_staying (by rw [conjuncts_combine hsettled]; exact hstays), conjuncts_combine hsettled]

/-- Conjuncts that a join has let pass read columns. -/
structure Moving (A : FloatArith) (cs : List BoundExpr) : Prop where
  settled : ∀ c ∈ cs, Settled A c
  reads   : ∀ c ∈ cs, c.bindings ≠ []

theorem Moving.filter {cs : List BoundExpr} (h : Moving A cs) (p : BoundExpr → Bool) : Moving A (cs.filter p) :=
  ⟨fun c hc => h.settled c (List.mem_filter.1 hc).1, fun c hc => h.reads c (List.mem_filter.1 hc).1⟩

theorem Moving.stable {cs : List BoundExpr} (h : Moving A cs) (hne : cs ≠ []) : Stable cs := by
  match cs, hne with
  | [c], _ => exact h.reads c List.mem_cons_self
  | c :: c' :: cs, _ => exact Or.inl (h.reads c List.mem_cons_self)

theorem stays_dropped {n m : Nat} {left right : LogicalPlan} {ls rs : List BoundExpr} :
    stays (dropped n left ls) (dropped m right rs) = stays left right := by
  funext c
  simp only [stays, goesLeft, goesRight, relationIds_dropped]

/-- **One pass moves every conjunct one join down.** -/
theorem rewriteBottomUp_dropped : ∀ {plan : LogicalPlan} (n : Nat) {cs : List BoundExpr}, JoinTree A plan → Moving A cs →
    rewriteBottomUp A (dropped n plan cs) = .ok (dropped (n + 1) plan cs) := by
  intro plan
  induction plan with
  | join left right condition ihl ihr =>
    intro n cs hj hm
    cases n with
    | zero =>
      cases cs with
      | nil =>
        refine (rewriteBottomUp_joinTree hj).trans ?_
        simp only [dropped, List.filter_nil, filteredBy]
      | cons c cs =>
        have hs := hm.stable (List.cons_ne_nil c cs)
        show (rewriteBottomUp A (.join left right condition) >>= fun child => foldExpression A (combine c cs) >>= fun p =>
          .ok (rewriteFilter child p)) = _
        rw [rewriteBottomUp_joinTree hj, foldExpression_combine hs hm.settled]
        show Except.ok (rewriteFilter (.join left right condition) (combine c cs)) = _
        rw [not_literal (combine_bindings hs)]
        simp only
        rw [pushFilter_eq, conjuncts_combine hm.settled, addFilter_filteredBy hj.1, addFilter_filteredBy hj.2.1]
        simp only [dropped]
    | succ n =>
      rw [dropped, dropped]
      refine rewriteBottomUp_staying (ihl n hj.1 (hm.filter _)) (ihr n hj.2.1 (hm.filter _)) hj.2.2
        (hm.filter _).settled (fun c hc => ?_) (hm.filter _).stable
      rw [stays_dropped]
      exact (List.mem_filter.1 hc).2
  | scan table required =>
    intro n cs hj hm
    have hleaf : ∀ n, dropped n (.scan table required) cs = filteredBy (.scan table required) cs := fun n => by
      cases n <;> rfl
    rw [hleaf, hleaf]
    cases cs with
    | nil => rfl
    | cons c cs =>
      have hs := hm.stable (List.cons_ne_nil c cs)
      rw [filteredBy, rewriteBottomUp, foldExpression_combine hs hm.settled]
      show Except.ok (rewriteFilter (.scan table required) (combine c cs)) = _
      rw [not_literal (combine_bindings hs)]
  | values rows =>
    intro n cs hj hm
    have hleaf : ∀ n, dropped n (.values rows) cs = filteredBy (.values rows) cs := fun n => by cases n <;> rfl
    rw [hleaf, hleaf]
    cases cs with
    | nil => exact rewriteBottomUp_joinTree hj
    | cons c cs =>
      have hs := hm.stable (List.cons_ne_nil c cs)
      rw [filteredBy, rewriteBottomUp, rewriteBottomUp_joinTree hj, foldExpression_combine hs hm.settled]
      show Except.ok (rewriteFilter (.values rows) (combine c cs)) = _
      rw [not_literal (combine_bindings hs)]
  | _ => exact fun n cs hj => hj.elim

/-! ### Plans that a pass does not change -/

theorem filter_ne (plan : LogicalPlan) (predicate : BoundExpr) : LogicalPlan.filter plan predicate ≠ plan := by
  intro h
  have := congrArg sizeOf h
  simp only [LogicalPlan.filter.sizeOf_spec] at this
  omega

theorem filteredBy_eq_self {plan : LogicalPlan} {cs : List BoundExpr} : filteredBy plan cs = plan ↔ cs = [] := by
  cases cs with
  | nil => exact ⟨fun _ => rfl, fun _ => rfl⟩
  | cons c cs => exact ⟨fun h => absurd h (filter_ne _ _), fun h => by cases h⟩

theorem filteredBy_inj {p q : LogicalPlan} {cs : List BoundExpr} : filteredBy p cs = filteredBy q cs ↔ p = q := by
  cases cs with
  | nil => exact Iff.rfl
  | cons c cs => exact ⟨fun h => (LogicalPlan.filter.inj h).1, fun h => by rw [h]⟩

/-- **The conjuncts stop moving after as many passes as joins that they move below.** -/
theorem dropped_succ_eq : ∀ {plan : LogicalPlan} (n : Nat) {cs : List BoundExpr},
    dropped (n + 1) plan cs = dropped n plan cs ↔ ∀ c ∈ cs, moves plan c ≤ n := by
  intro plan
  induction plan with
  | join left right condition ihl ihr =>
    intro n cs
    have hsides : (∀ c ∈ cs, moves (.join left right condition) c ≤ n) ↔
        (∀ c ∈ cs.filter (goesLeft left), moves left c + 1 ≤ n) ∧
          ∀ c ∈ cs.filter (goesRight left right), moves right c + 1 ≤ n := by
      constructor
      · intro h
        refine ⟨fun c hc => ?_, fun c hc => ?_⟩
        · obtain ⟨hc, hl⟩ := List.mem_filter.1 hc
          have := h c hc
          rwa [moves, if_pos hl] at this
        · obtain ⟨hc, hr⟩ := List.mem_filter.1 hc
          have := h c hc
          have hl : ¬goesLeft left c = true := fun hl => by
            rw [goesRight, hl] at hr
            cases hr
          rwa [moves, if_neg hl, if_pos hr] at this
      · rintro ⟨hl, hr⟩ c hc
        rw [moves]
        split
        · exact hl c (List.mem_filter.2 ⟨hc, ‹_›⟩)
        · split
          · exact hr c (List.mem_filter.2 ⟨hc, ‹_›⟩)
          · exact Nat.zero_le n
    rw [hsides]
    cases n with
    | zero =>
      have hempty : (∀ c ∈ cs.filter (goesLeft left), moves left c + 1 ≤ 0) ↔ cs.filter (goesLeft left) = [] := by
        rw [List.eq_nil_iff_forall_not_mem]
        exact ⟨fun h c hc => absurd (h c hc) (by omega), fun h c hc => absurd hc (h c)⟩
      have hempty' : (∀ c ∈ cs.filter (goesRight left right), moves right c + 1 ≤ 0) ↔ cs.filter (goesRight left right) = [] := by
        rw [List.eq_nil_iff_forall_not_mem]
        exact ⟨fun h c hc => absurd (h c hc) (by omega), fun h c hc => absurd hc (h c)⟩
      rw [hempty, hempty']
      have hzero : ∀ (plan : LogicalPlan) (cs : List BoundExpr), dropped 0 plan cs = filteredBy plan cs := fun _ _ => by
        rw [dropped.eq_def]
      rw [dropped, hzero, hzero, hzero]
      constructor
      · intro h
        cases cs with
        | nil => exact ⟨rfl, rfl⟩
        | cons c cs =>
          cases hrest : (c :: cs).filter (stays left right) with
          | nil => rw [hrest] at h; cases h
          | cons d ds =>
            rw [hrest] at h
            obtain ⟨hj, -⟩ := LogicalPlan.filter.inj h
            obtain ⟨hl, hr, -⟩ := LogicalPlan.join.inj hj
            exact ⟨filteredBy_eq_self.1 hl, filteredBy_eq_self.1 hr⟩
      · rintro ⟨hl, hr⟩
        have hall : cs.filter (stays left right) = cs := List.filter_eq_self.2 (fun c hc => by
          have h1 := List.filter_eq_nil_iff.1 hl c hc
          have h2 := List.filter_eq_nil_iff.1 hr c hc
          simp only [Bool.not_eq_true] at h1 h2
          rw [stays, h1, h2]
          rfl)
        rw [hl, hr, hall]
        rfl
    | succ n =>
      rw [dropped, dropped, filteredBy_inj]
      simp only [LogicalPlan.join.injEq, and_true, Nat.add_le_add_iff_right]
      rw [ihl n, ihr n]
  | _ =>
    intro n cs
    refine ⟨fun _ c _ => Nat.zero_le n, fun _ => ?_⟩
    cases n <;> rfl

/-! ## Passes -/

/-- The plans of the passes, when no pass raises. -/
def Passes (A : FloatArith) (p : Nat → LogicalPlan) : Prop := ∀ i, rewriteBottomUp A (p i) = .ok (p (i + 1))

theorem Passes.constant {p : Nat → LogicalPlan} (h : Passes A p) (hp : p 1 = p 0) : ∀ i, p i = p 0
  | 0     => rfl
  | i + 1 => by
    have hi := h i
    rw [Passes.constant h hp i, h 0] at hi
    rw [← Except.ok.inj hi, hp]

/-- **The loop returns when its last pass changes nothing.** -/
theorem rewritePasses_eq : ∀ (n : Nat) {p : Nat → LogicalPlan}, Passes A p →
    rewritePasses A (n + 1) (p 0) =
      if p (n + 1) = p n then .ok (pruneColumns [] (p (n + 1))) else raise .runtimeError "logical rewrites did not converge" := by
  intro n
  induction n with
  | zero =>
    intro p h
    rw [rewritePasses, h 0]
    rfl
  | succ n ih =>
    intro p h
    rw [rewritePasses, h 0]
    show (if p 1 = p 0 then Except.ok (pruneColumns [] (p 1)) else rewritePasses A (n + 1) (p 1)) = _
    by_cases hp : p 1 = p 0
    · rw [if_pos hp, hp, h.constant hp (n + 1 + 1), h.constant hp (n + 1), if_pos rfl]
    · rw [if_neg hp]
      exact ih (p := fun i => p (i + 1)) (fun i => h (i + 1))

/-! ### The clauses around the joins -/

/-- A clause above the joins and the filter of a SELECT. -/
inductive Clause
  | project (items : List BoundSelectItem)
  | aggregate (groupBy aggregates : List BoundExpr)
  | sort (orderBy : List BoundOrderItem)
  | limit (n : Nat)

namespace Clause

def plug (plan : LogicalPlan) : Clause → LogicalPlan
  | project items                => .project plan items
  | aggregate groupBy aggregates => .aggregate plan groupBy aggregates
  | sort orderBy                 => .sort plan orderBy
  | limit n                      => .limit plan n

def fold (A : FloatArith) : Clause → Result Clause
  | project items                => do
    let items ← mapRows (foldItem A) items
    .ok (project items)
  | aggregate groupBy aggregates => do
    let aggregates ← mapRows (foldExpression A) aggregates
    let groupBy ← mapRows (foldExpression A) groupBy
    .ok (aggregate groupBy aggregates)
  | sort orderBy                 => do
    let orderBy ← mapRows (foldOrderItem A) orderBy
    .ok (sort orderBy)
  | limit n                      => .ok (limit n)

theorem plug_inj {p q : LogicalPlan} (c : Clause) : c.plug p = c.plug q ↔ p = q := by
  cases c <;> simp [plug]

theorem rewriteBottomUp_plug {plan y : LogicalPlan} {c : Clause} : rewriteBottomUp A (c.plug plan) = .ok y ↔
    ∃ c' plan', c.fold A = .ok c' ∧ rewriteBottomUp A plan = .ok plan' ∧ y = c'.plug plan' := by
  cases c with
  | project items =>
    simp only [plug, rewriteBottomUp, fold, bind_eq_ok]
    constructor
    · rintro ⟨p, hp, is, his, h⟩
      cases h
      exact ⟨_, p, ⟨is, his, rfl⟩, hp, rfl⟩
    · rintro ⟨_, p, ⟨is, his, h⟩, hp, rfl⟩
      cases h
      exact ⟨p, hp, is, his, rfl⟩
  | aggregate groupBy aggregates =>
    simp only [plug, rewriteBottomUp, fold, bind_eq_ok]
    constructor
    · rintro ⟨as, has, p, hp, gs, hgs, h⟩
      cases h
      exact ⟨_, p, ⟨as, has, gs, hgs, rfl⟩, hp, rfl⟩
    · rintro ⟨_, p, ⟨as, has, gs, hgs, h⟩, hp, rfl⟩
      cases h
      exact ⟨as, has, p, hp, gs, hgs, rfl⟩
  | sort orderBy =>
    simp only [plug, rewriteBottomUp, fold, bind_eq_ok]
    constructor
    · rintro ⟨p, hp, is, his, h⟩
      cases h
      exact ⟨_, p, ⟨is, his, rfl⟩, hp, rfl⟩
    · rintro ⟨_, p, ⟨is, his, h⟩, hp, rfl⟩
      cases h
      exact ⟨p, hp, is, his, rfl⟩
  | limit n =>
    simp only [plug, rewriteBottomUp, fold, bind_eq_ok]
    constructor
    · rintro ⟨p, hp, h⟩
      cases h
      exact ⟨_, p, rfl, hp, rfl⟩
    · rintro ⟨_, p, h, hp, rfl⟩
      cases h
      exact ⟨p, hp, rfl⟩

end Clause

theorem mapRows_idem {α : Type} {f : α → Result α} (hf : ∀ x y, f x = .ok y → f y = .ok y) : ∀ {xs ys : List α},
    mapRows f xs = .ok ys → mapRows f ys = .ok ys
  | [], _, h => by cases h; rfl
  | x :: xs, _, h => by
    obtain ⟨y, hy, h⟩ := bind_eq_ok.1 h
    obtain ⟨ys, hys, h⟩ := bind_eq_ok.1 h
    cases h
    rw [mapRows, hf x y hy, mapRows_idem hf hys]
    rfl

theorem foldItem_idem {i i' : BoundSelectItem} (h : foldItem A i = .ok i') : foldItem A i' = .ok i' := by
  obtain ⟨e, he, h⟩ := bind_eq_ok.1 h
  cases h
  rw [foldItem, foldExpression_idem he]
  rfl

theorem foldOrderItem_idem {i i' : BoundOrderItem} (h : foldOrderItem A i = .ok i') : foldOrderItem A i' = .ok i' := by
  obtain ⟨e, he, h⟩ := bind_eq_ok.1 h
  cases h
  rw [foldOrderItem, foldExpression_idem he]
  rfl

theorem Clause.fold_idem {c c' : Clause} (h : c.fold A = .ok c') : c'.fold A = .ok c' := by
  cases c with
  | project items =>
    obtain ⟨is, his, h⟩ := bind_eq_ok.1 h
    cases h
    rw [fold, mapRows_idem (fun _ _ => foldItem_idem) his]
    rfl
  | aggregate groupBy aggregates =>
    obtain ⟨as, has, h⟩ := bind_eq_ok.1 h
    obtain ⟨gs, hgs, h⟩ := bind_eq_ok.1 h
    cases h
    rw [fold, mapRows_idem (fun _ _ => foldExpression_idem) has, mapRows_idem (fun _ _ => foldExpression_idem) hgs]
    rfl
  | sort orderBy =>
    obtain ⟨is, his, h⟩ := bind_eq_ok.1 h
    cases h
    rw [fold, mapRows_idem (fun _ _ => foldOrderItem_idem) his]
    rfl
  | limit n => cases h; rfl

def clauses (b : BoundSelect) : List Clause :=
  (if (Planner.aggregatesOf b).isEmpty && b.groupBy.isEmpty then [] else [.aggregate b.groupBy (Planner.aggregatesOf b)]) ++
    [.project b.items] ++ (if b.orderBy.isEmpty then [] else [.sort b.orderBy]) ++ (b.limit.map Clause.limit).toList

def plugAll (plan : LogicalPlan) (cs : List Clause) : LogicalPlan := cs.foldl Clause.plug plan

theorem select_eq (b : BoundSelect) : Planner.select b = plugAll (Planner.source b) (clauses b) := by
  unfold Planner.select plugAll clauses
  simp only
  cases (Planner.aggregatesOf b).isEmpty && b.groupBy.isEmpty <;> cases b.orderBy.isEmpty <;> cases b.limit <;> rfl

theorem plugAll_inj : ∀ {cs : List Clause} {p q : LogicalPlan}, plugAll p cs = plugAll q cs ↔ p = q
  | [], _, _ => Iff.rfl
  | c :: cs, p, q => by
    show plugAll (c.plug p) cs = plugAll (c.plug q) cs ↔ _
    rw [plugAll_inj, Clause.plug_inj]

theorem rewriteBottomUp_plugAll : ∀ {cs : List Clause} {plan y : LogicalPlan}, rewriteBottomUp A (plugAll plan cs) = .ok y ↔
    ∃ cs' plan', mapRows (Clause.fold A) cs = .ok cs' ∧ rewriteBottomUp A plan = .ok plan' ∧ y = plugAll plan' cs'
  | [], plan, y => by
    constructor
    · exact fun h => ⟨[], y, rfl, h, rfl⟩
    · rintro ⟨_, plan', h, hp, rfl⟩
      cases h
      exact hp
  | c :: cs, plan, y => by
    show rewriteBottomUp A (plugAll (c.plug plan) cs) = .ok y ↔ _
    rw [rewriteBottomUp_plugAll]
    simp only [mapRows, bind_eq_ok]
    constructor
    · rintro ⟨cs', p, hcs, hp, rfl⟩
      obtain ⟨c', plan', hc, hplan, rfl⟩ := Clause.rewriteBottomUp_plug.1 hp
      exact ⟨c' :: cs', plan', ⟨c', hc, cs', hcs, rfl⟩, hplan, rfl⟩
    · rintro ⟨_, plan', ⟨c', hc, cs', hcs, h⟩, hplan, rfl⟩
      cases h
      exact ⟨cs', _, hcs, Clause.rewriteBottomUp_plug.2 ⟨c', plan', hc, hplan, rfl⟩, rfl⟩

/-! ### FROM and WHERE -/

def foldJoin (A : FloatArith) (join : BoundJoin) : Result BoundJoin := do
  let condition ← foldExpression A join.condition
  .ok { join with condition := condition }

/-- What the moves of conjuncts depend on. -/
structure Alike (p q : LogicalPlan) : Prop where
  relations : relationIds p = relationIds q
  moves     : ∀ c, moves p c = moves q c

/-- The conjuncts that no side of the last join takes. -/
def leftOver : LogicalPlan → List BoundExpr → List BoundExpr
  | .join left right _, cs => cs.filter (stays left right)
  | _, _                   => []

theorem Alike.goesLeft {p p' : LogicalPlan} (h : Alike p p') : goesLeft p = goesLeft p' := by
  funext e
  rw [Rules.goesLeft, Rules.goesLeft, h.relations]

theorem Alike.goesRight {p p' : LogicalPlan} (h : Alike p p') (q : LogicalPlan) : goesRight p q = goesRight p' q := by
  funext e
  rw [Rules.goesRight, Rules.goesRight, h.goesLeft]

theorem Alike.join {p p' : LogicalPlan} (h : Alike p p') (table : BoundTable) (c c' : BoundExpr) :
    Alike (.join p (.scan table none) c) (.join p' (.scan table none) c') := by
  refine ⟨?_, fun e => ?_⟩
  · show relationIds p ++ _ = relationIds p' ++ _
    rw [h.relations]
  · rw [Rules.moves, Rules.moves, h.goesLeft, h.goesRight, h.moves e]

theorem joinTables_alike : ∀ {joins joins' : List BoundJoin} {p p' : LogicalPlan}, Alike p p' →
    mapRows (foldJoin A) joins = .ok joins' → Alike (Planner.joinTables p joins) (Planner.joinTables p' joins') ∧
      ∀ cs, leftOver (Planner.joinTables p joins) cs = leftOver (Planner.joinTables p' joins') cs ∨ joins = []
  | [], _, p, p', h, hj => by
    cases hj
    exact ⟨h, fun cs => Or.inr rfl⟩
  | j :: joins, _, p, p', h, hj => by
    obtain ⟨j', hj', hj⟩ := bind_eq_ok.1 hj
    obtain ⟨joins', hjoins, hj⟩ := bind_eq_ok.1 hj
    cases hj
    obtain ⟨c, -, hj'⟩ := bind_eq_ok.1 hj'
    cases hj'
    have halike := h.join j.table j.condition c
    obtain ⟨hall, hover⟩ := joinTables_alike halike hjoins
    refine ⟨hall, fun cs => Or.inl ?_⟩
    rcases hover cs with hover | rfl
    · exact hover
    · cases hjoins
      show leftOver (.join p (.scan j.table none) j.condition) cs = leftOver (.join p' (.scan j.table none) c) cs
      have hs : stays p (.scan j.table none) = stays p' (.scan j.table none) := by
        funext e
        rw [stays, stays, h.goesLeft, h.goesRight]
      rw [leftOver, leftOver, hs]

theorem joinTables_joinTree : ∀ {joins joins' : List BoundJoin} {p : LogicalPlan}, JoinTree A p →
    mapRows (foldJoin A) joins = .ok joins' → JoinTree A (Planner.joinTables p joins')
  | [], _, p, h, hj => by cases hj; exact h
  | j :: joins, _, p, h, hj => by
    obtain ⟨j', hj', hj⟩ := bind_eq_ok.1 hj
    obtain ⟨joins', hjoins, hj⟩ := bind_eq_ok.1 hj
    cases hj
    obtain ⟨c, hc, hj'⟩ := bind_eq_ok.1 hj'
    cases hj'
    exact joinTables_joinTree (p := .join p (.scan j.table none) c) ⟨h, trivial, foldExpression_idem hc⟩ hjoins

theorem rewriteBottomUp_joinTables : ∀ {joins : List BoundJoin} {p y : LogicalPlan},
    rewriteBottomUp A (Planner.joinTables p joins) = .ok y ↔
      ∃ p' joins', rewriteBottomUp A p = .ok p' ∧ mapRows (foldJoin A) joins = .ok joins' ∧ y = Planner.joinTables p' joins'
  | [], p, y => by
    constructor
    · exact fun h => ⟨y, [], h, rfl, rfl⟩
    · rintro ⟨p', _, hp, hj, rfl⟩
      cases hj
      exact hp
  | j :: joins, p, y => by
    show rewriteBottomUp A (Planner.joinTables (.join p (.scan j.table none) j.condition) joins) = .ok y ↔ _
    rw [rewriteBottomUp_joinTables]
    simp only [rewriteBottomUp, mapRows, foldJoin, bind_eq_ok]
    constructor
    · rintro ⟨_, joins', ⟨p', hp, _, hs, c, hc, h⟩, hj, rfl⟩
      cases hs
      cases h
      exact ⟨p', _, hp, ⟨_, ⟨c, hc, rfl⟩, joins', hj, rfl⟩, rfl⟩
    · rintro ⟨p', _, hp, ⟨_, ⟨c, hc, h⟩, joins', hj, h'⟩, rfl⟩
      cases h
      cases h'
      exact ⟨_, joins', ⟨p', hp, _, rfl, c, hc, rfl⟩, hj, rfl⟩

/-- The conjuncts above the last join are constants, and their conjunction is not TRUE: the query has no rows. -/
def Vanishes (A : FloatArith) (plan : LogicalPlan) (cs : List BoundExpr) : Prop :=
  ∃ c ds, leftOver plan cs = c :: ds ∧ ∃ v d n, foldExpression A (combine c ds) = .ok (.literal v d n) ∧ v ≠ .bool true

theorem moves_literal {c : BoundExpr} (h : IsLiteral c) (plan : LogicalPlan) : moves plan c = 0 := by
  obtain ⟨v, d, n, rfl⟩ := h
  cases plan <;> rfl

theorem moves_join_le {left right : LogicalPlan} {condition : BoundExpr} {cs : List BoundExpr} {n : Nat} :
    (∀ c ∈ cs, moves (.join left right condition) c ≤ n + 1) ↔
      (∀ c ∈ cs.filter (goesLeft left), moves left c ≤ n) ∧ ∀ c ∈ cs.filter (goesRight left right), moves right c ≤ n := by
  constructor
  · intro h
    refine ⟨fun c hc => ?_, fun c hc => ?_⟩
    · obtain ⟨hc, hl⟩ := List.mem_filter.1 hc
      have := h c hc
      rw [moves, if_pos hl] at this
      omega
    · obtain ⟨hc, hr⟩ := List.mem_filter.1 hc
      have := h c hc
      have hl : ¬goesLeft left c = true := fun hl => by
        rw [goesRight, hl] at hr
        cases hr
      rw [moves, if_neg hl, if_pos hr] at this
      omega
  · rintro ⟨hl, hr⟩ c hc
    rw [moves]
    split
    · exact Nat.succ_le_succ (hl c (List.mem_filter.2 ⟨hc, ‹_›⟩))
    · split
      · exact Nat.succ_le_succ (hr c (List.mem_filter.2 ⟨hc, ‹_›⟩))
      · exact Nat.zero_le _

theorem Moving.of_goesLeft {cs : List BoundExpr} (h : ∀ c ∈ cs, Settled A c) (left : LogicalPlan) :
    Moving A (cs.filter (goesLeft left)) :=
  ⟨fun c hc => h c (List.mem_filter.1 hc).1, fun _ hc => readsOnly_bindings (List.mem_filter.1 hc).2⟩

theorem Moving.of_goesRight {cs : List BoundExpr} (h : ∀ c ∈ cs, Settled A c) (left right : LogicalPlan) :
    Moving A (cs.filter (goesRight left right)) :=
  ⟨fun c hc => h c (List.mem_filter.1 hc).1, fun _ hc => goesRight_bindings (List.mem_filter.1 hc).2⟩

/-- The last join with its sides after some passes. -/
def lastJoin (left right : LogicalPlan) (condition : BoundExpr) (cs : List BoundExpr) (n : Nat) : LogicalPlan :=
  .join (dropped n left (cs.filter (goesLeft left))) (dropped n right (cs.filter (goesRight left right))) condition

theorem lastJoin_succ {left right : LogicalPlan} {condition : BoundExpr} {cs : List BoundExpr} (n : Nat) :
    lastJoin left right condition cs (n + 1) = lastJoin left right condition cs n ↔
      ∀ c ∈ cs, moves (.join left right condition) c ≤ n + 1 := by
  rw [moves_join_le, ← dropped_succ_eq, ← dropped_succ_eq]
  simp only [lastJoin, LogicalPlan.join.injEq, and_true]

section LastJoin

variable {left right : LogicalPlan} {condition : BoundExpr} {cs : List BoundExpr}
  (hj : JoinTree A (.join left right condition)) (h : ∀ c ∈ cs, Settled A c)
include hj h

theorem rewriteBottomUp_lastJoin (n : Nat) (rest : List BoundExpr) (hsettled : ∀ c ∈ rest, Settled A c)
    (hstays : ∀ c ∈ rest, stays left right c = true) (hstable : rest ≠ [] → Stable rest) :
    rewriteBottomUp A (filteredBy (lastJoin left right condition cs n) rest) =
      .ok (filteredBy (lastJoin left right condition cs (n + 1)) rest) := by
  refine rewriteBottomUp_staying (rewriteBottomUp_dropped n hj.1 (Moving.of_goesLeft h left))
    (rewriteBottomUp_dropped n hj.2.1 (Moving.of_goesRight h left right)) hj.2.2 hsettled (fun c hc => ?_) hstable
  rw [stays_dropped]
  exact hstays c hc

/-- **The passes over a WHERE clause above a join**: after the second one nothing above the last join changes. -/
theorem join_passes : ∃ p : Nat → LogicalPlan,
    p 0 = filteredBy (lastJoin left right condition cs 0) (cs.filter (stays left right)) ∧ Passes A p ∧
      ∀ n, p (n + 2) = p (n + 1) ↔ (∀ c ∈ cs, moves (.join left right condition) c ≤ n + 2) ∨
        Vanishes A (.join left right condition) cs := by
  have hover : leftOver (.join left right condition) cs = cs.filter (stays left right) := rfl
  cases hrest : cs.filter (stays left right) with
  | nil =>
    refine ⟨lastJoin left right condition cs, rfl, fun n => ?_, fun n => ?_⟩
    · exact rewriteBottomUp_lastJoin hj h n [] (fun c hc => by cases hc) (fun c hc => by cases hc)
        (fun hn => absurd rfl hn)
    · rw [lastJoin_succ]
      refine ⟨Or.inl, fun hor => hor.resolve_right ?_⟩
      rintro ⟨c, ds, hc, -⟩
      rw [hover, hrest] at hc
      cases hc
  | cons c ds =>
    have hmem : ∀ d ∈ c :: ds, d ∈ cs ∧ stays left right d = true := fun d hd => List.mem_filter.1 (hrest ▸ hd)
    obtain ⟨q, hq, hfolded⟩ := folded_combine (fun d hd => h d (hmem d hd).1)
    have hfirst : ∀ y, rewriteFilter (lastJoin left right condition cs 1) q = y →
        rewriteBottomUp A (.filter (lastJoin left right condition cs 0) (combine c ds)) = .ok y := by
      intro y hy
      have hnext : rewriteBottomUp A (lastJoin left right condition cs 0) = .ok (lastJoin left right condition cs 1) :=
        rewriteBottomUp_lastJoin hj h 0 [] (fun c hc => by cases hc) (fun c hc => by cases hc)
          (fun hn => absurd rfl hn)
      rw [rewriteBottomUp, hnext, hq]
      exact congrArg Except.ok hy
    rcases hfolded.shape with ⟨v, d, b, rfl, -⟩ | ⟨hb, hstable⟩
    · by_cases hv : v = .bool true
      · refine ⟨fun i => if i = 0 then .filter (lastJoin left right condition cs 0) (combine c ds)
          else lastJoin left right condition cs i, rfl, fun n => ?_, fun n => ?_⟩
        · cases n with
          | zero => exact hfirst _ (by rw [rewriteFilter, if_pos hv]; rfl)
          | succ n =>
            exact rewriteBottomUp_lastJoin hj h (n + 1) [] (fun c hc => by cases hc) (fun c hc => by cases hc)
              (fun hn => absurd rfl hn)
        · show lastJoin left right condition cs (n + 1 + 1) = lastJoin left right condition cs (n + 1) ↔ _
          rw [lastJoin_succ]
          refine ⟨Or.inl, fun hor => hor.resolve_right ?_⟩
          rintro ⟨c', ds', hc', v', d', n', hv', hne⟩
          rw [hover, hrest] at hc'
          cases hc'
          rw [hq] at hv'
          cases hv'
          exact hne hv
      · refine ⟨fun i => if i = 0 then .filter (lastJoin left right condition cs 0) (combine c ds) else .values [], rfl,
          fun n => ?_, fun n => ?_⟩
        · cases n with
          | zero => exact hfirst _ (by rw [rewriteFilter, if_neg hv]; rfl)
          | succ n => rfl
        · exact ⟨fun _ => Or.inr ⟨c, ds, hrest, v, d, b, hq, hv⟩, fun _ => rfl⟩
    · have hstays : ∀ e ∈ conjuncts q, stays left right e = true := fun e he =>
        (hfolded.origin e he).elim (fun he => (hmem e he).2) stays_of_isLiteral
      refine ⟨fun i => if i = 0 then .filter (lastJoin left right condition cs 0) (combine c ds)
        else filteredBy (lastJoin left right condition cs i) (conjuncts q), rfl, fun n => ?_, fun n => ?_⟩
      · cases n with
        | zero =>
          refine hfirst _ ?_
          rw [not_literal hb]
          exact pushFilter_staying (fun e he => by rw [stays_dropped]; exact hstays e he)
        | succ n => exact rewriteBottomUp_lastJoin hj h (n + 1) _ hfolded.settled hstays (fun _ => hstable)
      · show filteredBy (lastJoin left right condition cs (n + 1 + 1)) (conjuncts q) =
          filteredBy (lastJoin left right condition cs (n + 1)) (conjuncts q) ↔ _
        rw [filteredBy_inj, lastJoin_succ]
        refine ⟨Or.inl, fun hor => hor.resolve_right ?_⟩
        rintro ⟨c', ds', hc', v', d', n', hv', -⟩
        rw [hover, hrest] at hc'
        cases hc'
        rw [hq] at hv'
        cases hv'
        exact hb rfl

end LastJoin

/-- **The passes over a WHERE clause**, after the first one. -/
theorem where_passes {plan : LogicalPlan} (hj : JoinTree A plan) {q : BoundExpr} (hq : foldExpression A q = .ok q)
    (hplain : IsLiteral q ∨ q.bindings ≠ []) (h : ∀ c ∈ conjuncts q, Settled A c) : ∃ p : Nat → LogicalPlan,
      p 0 = rewriteFilter plan q ∧ Passes A p ∧
      ∀ n, p (n + 2) = p (n + 1) ↔ (∀ c ∈ conjuncts q, moves plan c ≤ n + 2) ∨ Vanishes A plan (conjuncts q) := by
  rcases hplain with ⟨v, d, b, rfl⟩ | hb
  · have hmoves : ∀ n, ∀ c ∈ conjuncts (.literal v d b), moves plan c ≤ n + 2 := fun n c hc => by
      cases List.mem_singleton.1 hc
      rw [moves_literal ⟨v, d, b, rfl⟩]
      omega
    refine ⟨fun _ => rewriteFilter plan (.literal v d b), rfl, fun n => ?_, fun n => ⟨fun _ => Or.inl (hmoves n), fun _ => rfl⟩⟩
    rw [rewriteFilter]
    split
    · exact rewriteBottomUp_joinTree hj
    · rfl
  · rw [not_literal hb]
    have hleaf : ∀ (leaf : LogicalPlan), (∀ c, moves leaf c = 0) → JoinTree A leaf → rewriteFilter leaf q = .filter leaf q →
        ∃ p : Nat → LogicalPlan, p 0 = .filter leaf q ∧ Passes A p ∧
          ∀ n, p (n + 2) = p (n + 1) ↔ (∀ c ∈ conjuncts q, moves leaf c ≤ n + 2) ∨ Vanishes A leaf (conjuncts q) := by
      intro leaf hmoves hj hrewrite
      refine ⟨fun _ => .filter leaf q, rfl, fun n => ?_,
        fun n => ⟨fun _ => Or.inl (fun c _ => by rw [hmoves]; omega), fun _ => rfl⟩⟩
      rw [rewriteBottomUp, rewriteBottomUp_joinTree hj, hq]
      exact congrArg Except.ok hrewrite
    cases plan with
    | join left right condition =>
      obtain ⟨p, hp, hpasses, hend⟩ := join_passes hj h
      refine ⟨p, hp.trans ?_, hpasses, hend⟩
      simp only
      rw [pushFilter_eq, addFilter_filteredBy hj.1, addFilter_filteredBy hj.2.1]
      rfl
    | scan table required => exact hleaf _ (fun _ => rfl) hj (by rw [not_literal hb])
    | values rows => exact hleaf _ (fun _ => rfl) hj (by rw [not_literal hb])
    | _ => exact hj.elim

/-! ## SELECT -/

/-- The joins of a SELECT without its WHERE clause. -/
def joinsOf (b : BoundSelect) : LogicalPlan := Planner.source { b with where_ := none }

/-- The constants of every expression but the WHERE clause fold. -/
def FoldsElsewhere (A : FloatArith) (b : BoundSelect) : Prop :=
  (∃ joins, mapRows (foldJoin A) b.joins = .ok joins) ∧ ∃ cs, mapRows (Clause.fold A) (clauses b) = .ok cs

/-- **The passes suffice**: every conjunct of the folded WHERE clause moves below less joins than there are passes, or the
conjuncts that stay above the last join are constants and are not TRUE. -/
def Shallow (A : FloatArith) (b : BoundSelect) (folded : BoundExpr) : Prop :=
  (∀ c ∈ conjuncts folded, moves (joinsOf b) c < maxRewritePasses) ∨ Vanishes A (joinsOf b) (conjuncts folded)

/-- FROM without its joins. -/
def fromOf (b : BoundSelect) : LogicalPlan :=
  match b.fromTable with
  | none       => .values [[]]
  | some table => .scan table none

theorem joinTree_fromOf (b : BoundSelect) : JoinTree A (fromOf b) := by
  unfold fromOf
  cases b.fromTable with
  | none => rfl
  | some table => trivial

theorem source_eq (b : BoundSelect) : Planner.source b = Planner.filtered (Planner.joinTables (fromOf b) b.joins) b.where_ := rfl

theorem vanishes_congr {p q : LogicalPlan} {cs : List BoundExpr} (h : leftOver p cs = leftOver q cs) :
    Vanishes A p cs ↔ Vanishes A q cs := by
  unfold Vanishes
  rw [h]

theorem leftOver_joinTables {b : BoundSelect} {joins : List BoundJoin} (hj : mapRows (foldJoin A) b.joins = .ok joins)
    (cs : List BoundExpr) : leftOver (joinsOf b) cs = leftOver (Planner.joinTables (fromOf b) joins) cs := by
  rcases (joinTables_alike (⟨rfl, fun _ => rfl⟩ : Alike (fromOf b) (fromOf b)) hj).2 cs with h | h
  · exact h
  · rw [h] at hj
    cases hj
    show leftOver (Planner.joinTables (fromOf b) b.joins) cs = _
    rw [h]

theorem select_passes {b : BoundSelect} {scope : List ScopeEntry}
    (hwhere : ∀ w ∈ b.where_, WellTyped scope w ∧ w.dataType = some .boolean ∧ containsAggregate w = false)
    (hfold : ∀ w ∈ b.where_, ∃ w', foldExpression A w = .ok w') (helse : FoldsElsewhere A b) :
    ∃ p : Nat → LogicalPlan, p 0 = Planner.select b ∧ Passes A p ∧
      (p 8 = p 7 ↔ ∀ w ∈ b.where_, ∀ w', foldExpression A w = .ok w' → Shallow A b w') := by
  obtain ⟨⟨joins, hj⟩, cs, hcs⟩ := helse
  have htree := joinTables_joinTree (joinTree_fromOf (A := A) b) hj
  have halike := (joinTables_alike (⟨rfl, fun _ => rfl⟩ : Alike (fromOf b) (fromOf b)) hj).1
  have hjoins : rewriteBottomUp A (Planner.joinTables (fromOf b) b.joins) = .ok (Planner.joinTables (fromOf b) joins) :=
    rewriteBottomUp_joinTables.2 ⟨_, joins, rewriteBottomUp_joinTree (joinTree_fromOf b), hj, rfl⟩
  have hnext : ∀ {x x' : LogicalPlan}, rewriteBottomUp A x = .ok x' →
      rewriteBottomUp A (plugAll x cs) = .ok (plugAll x' cs) := fun hx =>
    rewriteBottomUp_plugAll.2 ⟨cs, _, mapRows_idem (fun _ _ => Clause.fold_idem) hcs, hx, rfl⟩
  cases hw : b.where_ with
  | none =>
    refine ⟨fun i => if i = 0 then Planner.select b else plugAll (Planner.joinTables (fromOf b) joins) cs, rfl, fun i => ?_,
      ⟨fun _ w hmem => (by cases hmem), fun _ => rfl⟩⟩
    cases i with
    | zero =>
      refine (congrArg (rewriteBottomUp A) (select_eq b)).trans (rewriteBottomUp_plugAll.2 ⟨cs, _, hcs, ?_, rfl⟩)
      rw [source_eq, hw]
      exact hjoins
    | succ i => exact hnext (rewriteBottomUp_joinTree htree)
  | some w =>
    obtain ⟨htyped, hbool, hagg⟩ := hwhere w hw
    obtain ⟨w', hw'⟩ := hfold w hw
    obtain ⟨p, hp, hpasses, hend⟩ := where_passes htree (foldExpression_idem hw') (foldExpression_plain hagg hw')
      (settled_of_fold htyped hbool hagg hw')
    refine ⟨fun i => if i = 0 then Planner.select b else plugAll (p (i - 1)) cs, rfl, fun i => ?_, ?_⟩
    · cases i with
      | zero =>
        refine (congrArg (rewriteBottomUp A) (select_eq b)).trans (rewriteBottomUp_plugAll.2 ⟨cs, p 0, hcs, ?_, rfl⟩)
        rw [source_eq, hw]
        show (rewriteBottomUp A _ >>= fun child => foldExpression A w >>= fun q => .ok (rewriteFilter child q)) = _
        rw [hjoins, hw', hp]
        rfl
      | succ i => exact hnext (hpasses i)
    · show plugAll (p 7) cs = plugAll (p 6) cs ↔ _
      rw [plugAll_inj, hend 5, ← vanishes_congr (leftOver_joinTables hj _)]
      have hmoves : (∀ c ∈ conjuncts w', moves (Planner.joinTables (fromOf b) joins) c ≤ 5 + 2) ↔
          ∀ c ∈ conjuncts w', moves (joinsOf b) c < maxRewritePasses := by
        refine forall₂_congr (fun c _ => ?_)
        rw [← halike.moves c]
        exact Nat.lt_succ_iff.symm
      rw [hmoves]
      constructor
      · intro h u hu u' hu'
        cases Option.some.inj hu
        rw [hw'] at hu'
        cases hu'
        exact h
      · exact fun h => h w rfl w' hw'

theorem foldsElsewhere_of_rewrite {b : BoundSelect} {plan : LogicalPlan} (h : rewrite A (Planner.select b) = .ok plan) :
    FoldsElsewhere A b := by
  obtain ⟨y, hy, -⟩ := bind_eq_ok.1 h
  rw [select_eq] at hy
  obtain ⟨cs, x, hcs, hx, -⟩ := rewriteBottomUp_plugAll.1 hy
  refine ⟨?_, cs, hcs⟩
  rw [source_eq] at hx
  cases hw : b.where_ with
  | none =>
    rw [hw] at hx
    obtain ⟨_, joins, -, hj, -⟩ := rewriteBottomUp_joinTables.1 hx
    exact ⟨joins, hj⟩
  | some w =>
    rw [hw] at hx
    obtain ⟨x', hx', -⟩ := bind_eq_ok.1 hx
    obtain ⟨_, joins, -, hj, -⟩ := rewriteBottomUp_joinTables.1 hx'
    exact ⟨joins, hj⟩

end Rules

/-! ### Bound statements -/

open Binder

variable {K : Casing} {catalog : Catalog}

theorem bindPredicate_boolean {scope : List ScopeEntry} {context : String} {e : Expr} {w : BoundExpr}
    (h : bindPredicate K scope context e = .ok w) : w.dataType = some .boolean := by
  obtain ⟨bound, -, h⟩ := bind_eq_ok.1 h
  split at h
  · cases h
    rfl
  · split at h
    · cases h
      assumption
    · exact absurd h raise_ne_ok

theorem bindSelect_where {s : SelectStmt} {b : BoundSelect} (h : bindSelect K catalog s = .ok b) :
    ∀ w ∈ b.where_, w.dataType = some .boolean := by
  unfold bindSelect at h
  obtain ⟨⟨first, scope₀⟩, -, h⟩ := bind_eq_ok.1 h
  obtain ⟨⟨tables, scope⟩, -, h⟩ := bind_eq_ok.1 h
  obtain ⟨joins, -, h⟩ := bind_eq_ok.1 h
  obtain ⟨where_, hwhere, h⟩ := bind_eq_ok.1 h
  obtain ⟨groupBy, -, h⟩ := bind_eq_ok.1 h
  obtain ⟨items, -, h⟩ := bind_eq_ok.1 h
  obtain ⟨orderBy, -, h⟩ := bind_eq_ok.1 h
  have hb : b.where_ = where_ := by
    simp only at h
    split at h
    · obtain ⟨-, -, h⟩ := bind_eq_ok.1 h
      obtain ⟨-, -, h⟩ := bind_eq_ok.1 h
      cases h
      rfl
    · cases h
      rfl
  rw [hb]
  intro w hw
  cases hs : s.where_ with
  | none =>
    rw [hs] at hwhere
    cases hwhere
    cases hw
  | some e =>
    rw [hs] at hwhere
    obtain ⟨bound, hbound, hwhere⟩ := bind_eq_ok.1 hwhere
    cases hwhere
    cases hw
    exact bindPredicate_boolean hbound

theorem rewrite_bound {A : FloatArith} {s : SelectStmt} {b : BoundSelect} (h : bindSelect K catalog s = .ok b)
    (hfold : ∀ w ∈ b.where_, ∃ w', foldExpression A w = .ok w') (helse : Rules.FoldsElsewhere A b) :
    ((∀ w ∈ b.where_, ∀ w', foldExpression A w = .ok w' → Rules.Shallow A b w') →
      ∃ plan, Rules.rewrite A (Planner.select b) = .ok plan) ∧
    (¬(∀ w ∈ b.where_, ∀ w', foldExpression A w = .ok w' → Rules.Shallow A b w') →
      Rules.rewrite A (Planner.select b) = raise .runtimeError "logical rewrites did not converge") := by
  obtain ⟨⟨scope, hc⟩, -⟩ := bindSelect_ok h
  obtain ⟨p, hp, hpasses, hend⟩ := Rules.select_passes
    (fun w hw => ⟨(hc.where_ w hw).1, bindSelect_where h w hw, (hc.where_ w hw).2⟩) hfold helse
  have hrun := Rules.rewritePasses_eq 7 hpasses
  rw [hp] at hrun
  refine ⟨fun hs => ⟨_, hrun.trans (if_pos (hend.2 hs))⟩, fun hs => hrun.trans (if_neg (fun he => hs (hend.1 he)))⟩

/-- **The rewrites of a bound SELECT converge exactly when the passes suffice**: its constants fold, and every conjunct of the
WHERE clause moves below at most seven joins, unless constants above the last join are not TRUE. -/
theorem rewrite_converges {A : FloatArith} {s : SelectStmt} {b : BoundSelect} (h : bindSelect K catalog s = .ok b)
    (hfold : ∀ w ∈ b.where_, ∃ w', foldExpression A w = .ok w') :
    (∃ plan, Rules.rewrite A (Planner.select b) = .ok plan) ↔
      Rules.FoldsElsewhere A b ∧ ∀ w ∈ b.where_, ∀ w', foldExpression A w = .ok w' → Rules.Shallow A b w' := by
  constructor
  · rintro ⟨plan, hplan⟩
    have helse := Rules.foldsElsewhere_of_rewrite hplan
    refine ⟨helse, ?_⟩
    by_contra hs
    rw [(rewrite_bound h hfold helse).2 hs] at hplan
    cases hplan
  · exact fun hc => (rewrite_bound h hfold hc.1).1 hc.2

/-! ### Two statements -/

def nineTables : Catalog :=
  ['a', 'b', 'c', 'd', 'e', 'f', 'g', 'h', 'i'].zipIdx.map (fun t => ⟨[t.1], t.2, ⟨[⟨['x'], .int64, false⟩]⟩⟩)

/-- `SELECT a.x FROM a JOIN … ON TRUE WHERE a.x = 1`. -/
def chainSelect (joined : List Char) : SelectStmt where
  items := [⟨.columnRef ['x'] (some ['a']), none⟩]
  fromTable := some ⟨['a'], none⟩
  joins := joined.map (fun c => ⟨⟨[c], none⟩, .literal (.bool true)⟩)
  where_ := some (.binary (.columnRef ['x'] (some ['a'])) .eq (.literal (.int 1)))
  groupBy := []
  orderBy := []
  limit := none

/-- With seven joins the last pass changes nothing. -/
theorem rewrite_converges_seven :
    ∃ b, bindSelect Casing.ascii nineTables (chainSelect ['b', 'c', 'd', 'e', 'f', 'g', 'h']) = .ok b ∧
    ∃ plan, Rules.rewrite FloatArith.unused (Planner.select b) = .ok plan := by
  refine ⟨_, rfl, (@rewrite_converges Casing.ascii nineTables FloatArith.unused
    (chainSelect ['b', 'c', 'd', 'e', 'f', 'g', 'h']) _ rfl ?_).2 ⟨⟨⟨_, rfl⟩, _, rfl⟩, ?_⟩⟩
  · intro w hw
    cases hw
    exact ⟨_, rfl⟩
  · intro w hw w' hw'
    cases hw
    cases hw'
    exact Or.inl (by decide)

/-- With eight joins it moves the conjunct below the first of them. -/
theorem eight_joins_do_not_converge :
    ∃ b, bindSelect Casing.ascii nineTables (chainSelect ['b', 'c', 'd', 'e', 'f', 'g', 'h', 'i']) = .ok b ∧
      (∀ w ∈ b.where_, foldExpression FloatArith.unused w = .ok w) ∧
      Rules.rewrite FloatArith.unused (Planner.select b) = raise .runtimeError "logical rewrites did not converge" := by
  refine ⟨_, rfl, fun w hw => ?_, rfl⟩
  cases hw
  rfl

end MiniPostgres
