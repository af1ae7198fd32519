import MiniPostgres.Folding
import MiniPostgres.RowLists
/-!
# Scoping — what the expressions of a plan can read

A plan node gives rows with columns and computed values; an expression over it reads only these (`WellScoped`).  The keys of a
hash join read one input each (`Oriented`).  Rows of such a plan have what is read, so that the run of its physical plan never
misses a column or an aggregate (`execute_available`).
-/
namespace MiniPostgres

open Operators (mapRows)
open Fueled (Comes)

/-! ## What a plan gives -/

namespace LogicalPlan

def columns : LogicalPlan → List ColumnBinding
  | .scan table _     => (List.range table.schema.columns.length).map (fun i => ⟨table.tableId, i⟩)
  | .filter child _   => columns child
  | .project child _  => columns child
  | .join l r _       => columns l ++ columns r
  | .sort child _     => columns child
  | .limit child _    => columns child
  | _                 => []

/-- The expressions whose values the rows of a plan carry. -/
def keys : LogicalPlan → List BoundExpr
  | .filter child _       => keys child
  | .project child items  => keys child ++ items.map (·.expression)
  | .join l r _           => keys l ++ keys r
  | .aggregate _ g a      => g ++ a
  | .sort child _         => keys child
  | .limit child _        => keys child
  | _                     => []

end LogicalPlan

/-- The expression is one of the keys. -/
def isKey (keys : List BoundExpr) (e : BoundExpr) : Bool := e.nanFree && keys.any (fun k => decide (k.canon = e.canon))

/-- Every column and every aggregate that the expression reads is there, or lies in an expression that is. -/
def readable (columns : List ColumnBinding) (keys : List BoundExpr) : BoundExpr → Bool
  | .literal ..       => true
  | .column b m d n   => isKey keys (.column b m d n) || columns.contains b
  | .cast o d n       => isKey keys (.cast o d n) || readable columns keys o
  | .unary p o d n    => isKey keys (.unary p o d n) || readable columns keys o
  | .binary l p r d n => isKey keys (.binary l p r d n) || (readable columns keys l && readable columns keys r)
  | .isNull o g       => isKey keys (.isNull o g) || readable columns keys o
  | .function f a d n => isKey keys (.function f a d n)
  | .countStar        => isKey keys .countStar

/-- The argument of an aggregate is read in the rows of its input. -/
def argumentReadable (columns : List ColumnBinding) (keys : List BoundExpr) : BoundExpr → Bool
  | .function _ a _ _ => readable columns keys a
  | .countStar        => true
  | _                 => false

/-- Every expression of every node reads what the input of the node gives. -/
def LogicalPlan.WellScoped : LogicalPlan → Prop
  | .values rows       => ∀ row ∈ rows, ∀ e ∈ row, readable [] [] e = true
  | .scan _ _          => True
  | .filter child p    => child.WellScoped ∧ readable child.columns child.keys p = true
  | .project child items => child.WellScoped ∧ (∀ i ∈ items, readable child.columns child.keys i.expression = true) ∧
      ∀ i ∈ items, i.expression.nanFree = true
  | .join l r c        => l.WellScoped ∧ r.WellScoped ∧ readable (l.columns ++ r.columns) (l.keys ++ r.keys) c = true
  | .aggregate child g a => child.WellScoped ∧ (∀ e ∈ g, readable child.columns child.keys e = true) ∧
      (∀ e ∈ a, argumentReadable child.columns child.keys e = true) ∧ ∀ e ∈ g ++ a, e.nanFree = true
  | .sort child items  => child.WellScoped ∧ ∀ i ∈ items, readable child.columns child.keys i.expression = true
  | .limit child _     => child.WellScoped
  | .insert _ _ child  => child.WellScoped
  | .update _ _ child _ => child.WellScoped
  | .delete _ child _  => child.WellScoped

/-- The left key of every hash join reads the left input, and the right key the right one. -/
def LogicalPlan.Oriented : LogicalPlan → Prop
  | .values _          => True
  | .scan _ _          => True
  | .filter child _    => child.Oriented
  | .project child _   => child.Oriented
  | .join l r c        => l.Oriented ∧ r.Oriented ∧ ∀ k ∈ Planner.hashJoinKeys c,
      readable l.columns l.keys k.1 = true ∧ readable r.columns r.keys k.2 = true
  | .aggregate child _ _ => child.Oriented
  | .sort child _      => child.Oriented
  | .limit child _     => child.Oriented
  | .insert _ _ child  => child.Oriented
  | .update _ _ child _ => child.Oriented
  | .delete _ child _  => child.Oriented

/-! ## Errors -/

/-- `column is unavailable` and `aggregate value is unavailable`. -/
def Unavailable (e : Error) : Prop :=
  (∃ name, e.message = "column is unavailable: " ++ name) ∨ ∃ name, e.message = "aggregate value is unavailable: " ++ name

/-- The first letters of a message, which tell the two messages from all others. -/
def letters (e : Error) : List Char := e.message.toList.take 3

/-- An error with another message. -/
def Other (e : Error) : Prop := letters e ≠ ['c', 'o', 'l'] ∧ letters e ≠ ['a', 'g', 'g']

theorem Other.not_unavailable {e : Error} (h : Other e) : ¬ Unavailable e := by
  rintro (⟨name, he⟩ | ⟨name, he⟩)
  · refine h.1 ?_
    unfold letters
    rw [he, String.toList_append, List.take_append_of_le_length (by decide)]
    decide
  · refine h.2 ?_
    unfold letters
    rw [he, String.toList_append, List.take_append_of_le_length (by decide)]
    decide

instance (e : Error) : Decidable (Other e) := inferInstanceAs (Decidable (_ ∧ _))

theorem other_of_text {k : ErrorClass} {text rest : String} (hl : 3 ≤ text.toList.length)
    (hc : text.toList.take 3 ≠ ['c', 'o', 'l']) (ha : text.toList.take 3 ≠ ['a', 'g', 'g']) : Other ⟨k, text ++ rest⟩ := by
  have he : letters ⟨k, text ++ rest⟩ = text.toList.take 3 := by
    unfold letters
    rw [String.toList_append, List.take_append_of_le_length hl]
  exact ⟨by rw [he]; exact hc, by rw [he]; exact ha⟩

/-- A call that raises no error but others. -/
def Safe {α : Type} (r : Result α) : Prop := ∀ e, r = .error e → Other e

namespace Safe

variable {α β : Type}

theorem ok (a : α) : Safe (.ok a) := fun e h => by cases h

theorem raise {k : ErrorClass} {m : String} (h : Other ⟨k, m⟩) : Safe (MiniPostgres.raise k m : Result α) := by
  intro e he
  cases he
  exact h

theorem bind {x : Result α} {f : α → Result β} (hx : Safe x) (hf : ∀ a, x = .ok a → Safe (f a)) : Safe (x >>= f) := by
  cases x with
  | error e =>
    intro e' he
    cases he
    exact hx e rfl
  | ok a => exact hf a rfl

theorem mapRows {f : α → Result β} : ∀ {xs : List α}, (∀ x ∈ xs, Safe (f x)) → Safe (mapRows f xs)
  | [], _ => ok _
  | x :: xs, h => by
    refine bind (h x List.mem_cons_self) (fun y _ => bind ?_ (fun ys _ => ok _))
    exact mapRows (fun z hz => h z (List.mem_cons_of_mem _ hz))

theorem foldlM {σ : Type} {body : σ → α → Result σ} {P : σ → Prop} : ∀ {xs : List α} {s : σ},
    (∀ x ∈ xs, ∀ s, P s → Safe (body s x) ∧ ∀ t, body s x = .ok t → P t) → P s →
    Safe (xs.foldlM body s) ∧ ∀ t, xs.foldlM body s = .ok t → P t
  | [], s, _, hs => ⟨ok s, fun t ht => by cases ht; exact hs⟩
  | x :: xs, s, h, hs => by
    obtain ⟨hsafe, hstep⟩ := h x List.mem_cons_self s hs
    have hrest : ∀ t, body s x = .ok t → Safe (xs.foldlM body t) ∧ ∀ u, xs.foldlM body t = .ok u → P u :=
      fun t ht => foldlM (fun y hy => h y (List.mem_cons_of_mem _ hy)) (hstep t ht)
    rw [List.foldlM_cons]
    refine ⟨bind hsafe (fun t ht => (hrest t ht).1), fun t ht => ?_⟩
    obtain ⟨u, hu, ht⟩ := bind_eq_ok.1 ht
    exact (hrest u hu).2 t ht

end Safe

section Operations

variable {A : FloatArith}

theorem validateInt64_safe (n : Int) : Safe (validateInt64 n) := by
  unfold validateInt64
  split
  · exact .raise (other_of_text (by decide) (by decide) (by decide))
  · exact .ok _

theorem requireSqlBool_safe (v : Scalar) : Safe (requireSqlBool v) := by
  cases v with
  | null | bool _ => exact .ok _
  | int _ | float _ | text _ => exact .raise (by decide)

theorem castValue_safe (d : DataType) (v : Scalar) : Safe (castValue A d v) := by
  unfold castValue
  split
  · exact .ok _
  · split
    · exact .raise (other_of_text (by decide) (by decide) (by decide))
    · split
      · exact .ok _
      · exact .ok _
      · exact .raise (by decide)

theorem unaryValue_safe (p : UnaryOperator) (d : DataType) (v : Scalar) : Safe (unaryValue p d v) := by
  cases p with
  | not => exact (requireSqlBool_safe v).bind (fun _ _ => .ok _)
  | plus => exact .ok _
  | minus =>
    simp only [unaryValue]
    split
    · exact .ok _
    · split
      · exact (validateInt64_safe _).bind (fun _ _ => .ok _)
      · exact .raise (by decide)
    · split
      · exact .raise (by decide)
      · exact .ok _
    · exact .raise (by decide)

theorem compareBy_safe (p : BinaryOperator) (e lt le gt ge : Bool) : Safe (compareBy p e lt le gt ge) := by
  unfold compareBy
  split <;> first | exact .ok _ | exact .raise (by decide)

theorem compareValues_safe (p : BinaryOperator) (v w : Scalar) : Safe (compareValues A p v w) := by
  unfold compareValues
  split
  · exact .ok _
  · exact .ok _
  · exact (validateInt64_safe _).bind (fun _ _ => (validateInt64_safe _).bind (fun _ _ => compareBy_safe _ _ _ _ _ _))
  · exact compareBy_safe _ _ _ _ _ _
  · exact compareBy_safe _ _ _ _ _ _
  · exact compareBy_safe _ _ _ _ _ _
  · exact compareBy_safe _ _ _ _ _ _
  · exact compareBy_safe _ _ _ _ _ _
  · rw [String.append_assoc, String.append_assoc]
    exact .raise (other_of_text (by decide) (by decide) (by decide))

theorem arithValue_safe (p : BinaryOperator) (d : DataType) (v w : Scalar) : Safe (arithValue A p d v w) := by
  unfold arithValue
  split
  · exact .ok _
  · split
    · exact .raise (by decide)
    · split
      · split
        · exact (validateInt64_safe _).bind (fun _ _ => .ok _)
        · exact .raise (by decide)
      · split
        · exact .ok _
        · exact .raise (by decide)

theorem binaryValue_safe (p : BinaryOperator) (d : DataType) (v w : Scalar) : Safe (binaryValue A p d v w) := by
  unfold binaryValue
  split
  · exact (requireSqlBool_safe v).bind (fun _ _ => (requireSqlBool_safe w).bind (fun _ _ => .ok _))
  · exact (requireSqlBool_safe v).bind (fun _ _ => (requireSqlBool_safe w).bind (fun _ _ => .ok _))
  all_goals first | exact compareValues_safe _ v w | exact arithValue_safe p d v w

end Operations

/-! ## Rows that provide -/

/-- The row has the columns and carries the values. -/
structure Provides (columns : List ColumnBinding) (keys : List BoundExpr) (row : ExecutionRow) : Prop where
  columns : ∀ b ∈ columns, row.cells.lookup b ≠ none
  keys    : ∀ k ∈ keys, k.nanFree = true → row.found k ≠ none

section Evaluate

variable {A : FloatArith} {columns : List ColumnBinding} {keys : List BoundExpr} {row : ExecutionRow}

theorem Provides.found (h : Provides columns keys row) {e : BoundExpr} (he : isKey keys e = true) :
    ∃ v, row.found e = some v := by
  simp only [isKey, Bool.and_eq_true, List.any_eq_true, decide_eq_true_eq] at he
  obtain ⟨hn, k, hk, hc⟩ := he
  rw [← ExecutionRow.found_of_canon row hc]
  exact Option.ne_none_iff_exists'.1 (h.keys k hk (by rw [BoundExpr.nanFree_of_canon hc]; exact hn))

/-- **An expression that reads what the row has never misses anything.** -/
theorem evaluate_safe (h : Provides columns keys row) :
    ∀ {e : BoundExpr}, readable columns keys e = true → Safe (evaluate A e row) := by
  intro e
  induction e with
  | literal v d n =>
    intro _
    unfold evaluate
    split <;> exact .ok _
  | column b m d n =>
    intro hr
    unfold evaluate
    cases hf : row.found (.column b m d n) with
    | some v => exact .ok _
    | none =>
      simp only
      have hc : columns.contains b = true := by
        refine (Bool.or_eq_true_iff.1 hr).resolve_left (fun hk => ?_)
        obtain ⟨v, hv⟩ := h.found hk
        rw [hf] at hv
        cases hv
      obtain ⟨v, hv⟩ := Option.ne_none_iff_exists'.1 (h.columns b (List.contains_iff_mem.1 hc))
      rw [hv]
      exact .ok _
  | cast o d n ih =>
    intro hr
    unfold evaluate
    cases hf : row.found (.cast o d n) with
    | some v => exact .ok _
    | none =>
      refine (ih ((Bool.or_eq_true_iff.1 hr).resolve_left (fun hk => ?_))).bind (fun v _ => castValue_safe d v)
      obtain ⟨v, hv⟩ := h.found hk
      rw [hf] at hv
      cases hv
  | unary p o d n ih =>
    intro hr
    unfold evaluate
    cases hf : row.found (.unary p o d n) with
    | some v => exact .ok _
    | none =>
      refine (ih ((Bool.or_eq_true_iff.1 hr).resolve_left (fun hk => ?_))).bind (fun v _ => unaryValue_safe p d v)
      obtain ⟨v, hv⟩ := h.found hk
      rw [hf] at hv
      cases hv
  | binary l p r d n ihl ihr =>
    intro hr
    unfold evaluate
    cases hf : row.found (.binary l p r d n) with
    | some v => exact .ok _
    | none =>
      have hlr := (Bool.or_eq_true_iff.1 hr).resolve_left (fun hk => by
        obtain ⟨v, hv⟩ := h.found hk
        rw [hf] at hv
        cases hv)
      rw [Bool.and_eq_true] at hlr
      exact (ihl hlr.1).bind (fun v _ => (ihr hlr.2).bind (fun w _ => binaryValue_safe p d v w))
  | isNull o g ih =>
    intro hr
    unfold evaluate
    cases hf : row.found (.isNull o g) with
    | some v => exact .ok _
    | none =>
      refine (ih ((Bool.or_eq_true_iff.1 hr).resolve_left (fun hk => ?_))).bind (fun v _ => .ok _)
      obtain ⟨v, hv⟩ := h.found hk
      rw [hf] at hv
      cases hv
  | function f a d n ih =>
    intro hr
    obtain ⟨v, hv⟩ := h.found hr
    unfold evaluate
    rw [hv]
    exact .ok _
  | countStar =>
    intro hr
    obtain ⟨v, hv⟩ := h.found hr
    unfold evaluate
    rw [hv]
    exact .ok _

/-! ### Rows that the operators make -/

theorem lookup_ne_none {α β : Type} [DecidableEq α] {l : List (α × β)} {a : α} {b : β} (h : (a, b) ∈ l) : l.lookup a ≠ none := by
  intro hn
  rw [List.lookup_eq_none_iff] at hn
  simpa using hn (a, b) h

theorem lookup_append_ne_none {α β : Type} [DecidableEq α] {l l' : List (α × β)} {a : α}
    (h : l.lookup a ≠ none ∨ l'.lookup a ≠ none) : (l ++ l').lookup a ≠ none := by
  rw [List.lookup_append]
  rcases h with h | h
  · obtain ⟨v, hv⟩ := Option.ne_none_iff_exists'.1 h
    simp [hv]
  · obtain ⟨v, hv⟩ := Option.ne_none_iff_exists'.1 h
    cases l.lookup a <;> simp [hv]

theorem found_eq (row : ExecutionRow) {e : BoundExpr} (he : e.nanFree = true) :
    row.found e = row.computed.lookup (.expr e.canon) := by
  unfold ExecutionRow.found
  rw [if_pos he]

theorem found_put_self (row : ExecutionRow) {e : BoundExpr} (v : Scalar) (he : e.nanFree = true) :
    (row.put e v).found e = some v := by
  rw [found_eq _ he]
  simp [ExecutionRow.put]

theorem found_put {e k : BoundExpr} (v : Scalar) (h : row.found k ≠ none) : (row.put e v).found k ≠ none := by
  by_cases hk : k.nanFree = true
  · rw [found_eq _ hk] at h ⊢
    simp only [ExecutionRow.put, List.lookup_cons]
    split
    · simp
    · exact h
  · exact absurd (by unfold ExecutionRow.found; rw [if_neg hk]) h

theorem found_putSlot (row : ExecutionRow) (i : Nat) (k : BoundExpr) (v : Scalar) : (row.putSlot i v).found k = row.found k := by
  unfold ExecutionRow.found
  split
  · have hne : (ComputedKey.expr k.canon == ComputedKey.slot i) = false := beq_false_of_ne (by simp)
    simp only [ExecutionRow.putSlot, List.lookup_cons, hne]
  · rfl

theorem Provides.putSlot (h : Provides columns keys row) (i : Nat) (v : Scalar) : Provides columns keys (row.putSlot i v) :=
  ⟨h.columns, fun k hk hn => by rw [found_putSlot]; exact h.keys k hk hn⟩

theorem Provides.add (h : Provides columns keys row) (e : BoundExpr) (v : Scalar) :
    Provides columns (keys ++ [e]) (row.put e v) := by
  refine ⟨h.columns, fun k hk hn => ?_⟩
  rcases List.mem_append.1 hk with hk | hk
  · exact found_put v (h.keys k hk hn)
  · rw [List.mem_singleton.1 hk] at hn ⊢
    rw [found_put_self row v hn]
    simp

theorem Provides.putAll : ∀ (pairs : List (BoundExpr × Scalar)) {keys : List BoundExpr} {row : ExecutionRow},
    Provides columns keys row → Provides columns (keys ++ pairs.map (·.1)) (pairs.foldl (fun row p => row.put p.1 p.2) row)
  | [], _, _, h => by simpa using h
  | p :: ps, keys, row, h => by
    have := Provides.putAll ps (h.add p.1 p.2)
    simpa using this

theorem Provides.putItems : ∀ (pairs : List ((BoundSelectItem × Scalar) × Nat)) {keys : List BoundExpr} {row : ExecutionRow},
    Provides columns keys row → Provides columns (keys ++ pairs.map (·.1.1.expression))
      (pairs.foldl (fun out p => (out.putSlot p.2 p.1.2).put p.1.1.expression p.1.2) row)
  | [], _, _, h => by simpa using h
  | p :: ps, keys, row, h => by
    have := Provides.putItems ps ((h.putSlot p.2 p.1.2).add p.1.1.expression p.1.2)
    simpa using this

theorem Provides.merge {columns' : List ColumnBinding} {keys' : List BoundExpr} {row' merged : ExecutionRow}
    (h : Provides columns keys row) (h' : Provides columns' keys' row') (hm : row.merge row' = .ok merged) :
    Provides (columns ++ columns') (keys ++ keys') merged := by
  unfold ExecutionRow.merge at hm
  split at hm
  · exact absurd hm raise_ne_ok
  · split at hm
    · exact absurd hm raise_ne_ok
    · split at hm
      · exact absurd hm raise_ne_ok
      · cases hm
        refine ⟨fun b hb => lookup_append_ne_none ((List.mem_append.1 hb).imp (h.columns b) (h'.columns b)), fun k hk hn => ?_⟩
        rw [found_eq _ hn]
        refine lookup_append_ne_none ((List.mem_append.1 hk).imp (fun hk => ?_) (fun hk => ?_))
        · rw [← found_eq _ hn]; exact h.keys k hk hn
        · rw [← found_eq _ hn]; exact h'.keys k hk hn

end Evaluate

/-! ## Runs of a plan -/

/-- Rows that provide, up to the end or an error of another kind. -/
structure Gives (columns : List ColumnBinding) (keys : List BoundExpr) (p : Pull Error ExecutionRow) : Prop where
  items   : ∀ r ∈ p.items, Provides columns keys r
  failure : ∀ e, p.failure = some e → Other e

def LogicalPlan.scans : LogicalPlan → List BoundTable
  | .values _          => []
  | .scan table _      => [table]
  | .filter child _    => child.scans
  | .project child _   => child.scans
  | .join l r _        => l.scans ++ r.scans
  | .aggregate child _ _ => child.scans
  | .sort child _      => child.scans
  | .limit child _     => child.scans
  | .insert _ _ child  => child.scans
  | .update _ _ child _ => child.scans
  | .delete _ child _  => child.scans

/-- A stored row has a value for each column. -/
def FullRows (tables : TableContents) (scans : List BoundTable) : Prop :=
  ∀ t ∈ scans, ∀ p ∈ tables t.tableId, p.2.length = t.schema.columns.length

section Runs

open Operators

variable {A : FloatArith} {columns columns' : List ColumnBinding} {keys keys' : List BoundExpr} {row : ExecutionRow}

theorem Gives.bind {p : Pull Error ExecutionRow} {f : ExecutionRow → Pull Error ExecutionRow} (h : Gives columns keys p)
    (hf : ∀ r, Provides columns keys r → Gives columns' keys' (f r)) : Gives columns' keys' (p.bind f) := by
  refine ⟨fun r hr => ?_, fun e he => ?_⟩
  · obtain ⟨x, hx, hr⟩ := Pull.mem_bind hr
    exact (hf x (h.items x hx)).items r hr
  · rcases Pull.bind_failed he with he | ⟨x, hx, he⟩
    · exact h.failure e he
    · exact (hf x (h.items x hx)).failure e he

theorem gives_ofList {rows : List ExecutionRow} (h : ∀ r ∈ rows, Provides columns keys r) : Gives columns keys (.ofList rows) :=
  ⟨h, fun e he => by cases he⟩

theorem gives_ofExcept {r : Result ExecutionRow} (hs : Safe r) (h : ∀ row, r = .ok row → Provides columns keys row) :
    Gives columns keys (.ofExcept r) := by
  cases r with
  | error e =>
    refine ⟨fun r hr => (by cases hr), fun e' he => ?_⟩
    cases he
    exact hs e rfl
  | ok row =>
    refine ⟨fun r hr => ?_, fun e he => by cases he⟩
    rw [List.mem_singleton.1 hr]
    exact h row rfl

theorem Gives.drain {p : Pull Error ExecutionRow} (h : Gives columns keys p) :
    Safe p.drain ∧ ∀ rows, p.drain = .ok rows → ∀ r ∈ rows, Provides columns keys r := by
  refine ⟨fun e he => h.failure e (Pull.drain_eq_error.1 he), fun rows hr => ?_⟩
  rw [Pull.drain_eq_ok] at hr
  rw [hr] at h
  exact h.items

theorem Gives.fold {σ : Type} {body : σ → ExecutionRow → Result σ} {P : σ → Prop} {s : σ} {p : Pull Error ExecutionRow}
    (h : Gives columns keys p) (hbody : ∀ r, Provides columns keys r → ∀ s, P s → Safe (body s r) ∧ ∀ t, body s r = .ok t → P t)
    (hs : P s) : Safe (p.fold body s) ∧ ∀ t, p.fold body s = .ok t → P t := by
  obtain ⟨hsafe, hstep⟩ := Safe.foldlM (fun r hr => hbody r (h.items r hr)) hs
  refine ⟨hsafe.bind (fun t _ e he => ?_), fun t ht => hstep t (Pull.fold_eq_ok.1 ht).2⟩
  cases hf : p.failure with
  | none =>
    rw [hf] at he
    cases he
  | some e' =>
    rw [hf] at he
    cases he
    exact h.failure e hf

theorem Gives.take {p : Pull Error ExecutionRow} (h : Gives columns keys p) (n : Nat) : Gives columns keys (p.take n) := by
  unfold Pull.take
  split
  · exact ⟨fun r hr => h.items r (List.mem_of_mem_take hr), fun e he => by cases he⟩
  · exact h

theorem gives_kept {predicate : BoundExpr} (h : Provides columns keys row) (hr : readable columns keys predicate = true) :
    Gives columns keys (kept A predicate row) := by
  have hs := evaluate_safe (A := A) h hr
  unfold kept
  cases he : evaluate A predicate row with
  | error e =>
    refine ⟨fun r hr => (by cases hr), fun e' he' => ?_⟩
    cases he'
    exact hs e he
  | ok v =>
    refine ⟨fun r hr => ?_, fun e he => by cases he⟩
    simp only at hr
    split at hr
    · rw [List.mem_singleton.1 hr]; exact h
    · cases hr

theorem merge_safe (a b : ExecutionRow) : Safe (a.merge b) := by
  unfold ExecutionRow.merge
  split
  · exact .raise (by decide)
  · split
    · exact .raise (by decide)
    · split
      · exact .raise (by decide)
      · exact .ok _

theorem gives_joinedAll {condition : BoundExpr} {rights : List ExecutionRow} (h : Provides columns keys row)
    (hr : ∀ r ∈ rights, Provides columns' keys' r) (hc : readable (columns ++ columns') (keys ++ keys') condition = true) :
    Gives (columns ++ columns') (keys ++ keys') (joinedAll A condition rights row) := by
  refine (gives_ofList hr).bind (fun r hr => ?_)
  unfold joined
  cases hm : row.merge r with
  | error e =>
    refine ⟨fun r hr => (by cases hr), fun e' he' => ?_⟩
    cases he'
    exact merge_safe row r e hm
  | ok merged => exact gives_kept (h.merge hr hm) hc

theorem gives_ofResult {r : Result (List ExecutionRow)} (hs : Safe r)
    (h : ∀ rows, r = .ok rows → ∀ row ∈ rows, Provides columns keys row) : Gives columns keys (.ofResult r) := by
  cases r with
  | error e =>
    refine ⟨fun r hr => (by cases hr), fun e' he => ?_⟩
    cases he
    exact hs e rfl
  | ok rows => exact ⟨h rows rfl, fun e he => by cases he⟩

theorem gives_matchesOf {leftKey condition : BoundExpr} {hash : HashTable} (h : Provides columns keys row)
    (hhash : ∀ v, ∀ r ∈ hash.candidates v, Provides columns' keys' r) (hk : readable columns keys leftKey = true)
    (hc : readable (columns ++ columns') (keys ++ keys') condition = true) :
    Gives (columns ++ columns') (keys ++ keys') (.ofResult (Executor.matchesOf A leftKey condition hash row)) := by
  have hfound : ∀ v, _ := fun v => (gives_joinedAll (A := A) h (hhash v) hc).drain
  refine gives_ofResult ((evaluate_safe h hk).bind (fun v _ => (hfound v).1)) (fun rows hm => ?_)
  obtain ⟨v, -, hm⟩ := bind_eq_ok.1 hm
  exact (hfound v).2 rows hm

theorem hashRow_gives {rightKey : BoundExpr} (hk : readable columns keys rightKey = true) (h : Provides columns keys row)
    {hash : HashTable} (hhash : ∀ v, ∀ r ∈ hash.candidates v, Provides columns keys r) :
    Safe (Executor.hashRow A rightKey hash row) ∧ ∀ hash', Executor.hashRow A rightKey hash row = .ok hash' →
      ∀ v, ∀ r ∈ hash'.candidates v, Provides columns keys r := by
  refine ⟨(evaluate_safe h hk).bind (fun _ _ => .ok _), fun hash' hh v r hr => ?_⟩
  obtain ⟨value, -, hh⟩ := bind_eq_ok.1 hh
  cases hh
  rw [candidates_store] at hr
  rcases List.mem_append.1 hr with hr | hr
  · exact hhash v r hr
  · split at hr
    · rw [List.mem_singleton.1 hr]
      exact h
    · cases hr

theorem provides_tableRow {table : BoundTable} {p : TID × Values} (h : p.2.length = table.schema.columns.length) :
    Provides (LogicalPlan.scan table none).columns [] (tableRow table.tableId p.1 p.2) := by
  refine ⟨fun b hb => ?_, fun k hk => by cases hk⟩
  obtain ⟨i, hi, rfl⟩ := List.mem_map.1 hb
  rw [List.mem_range, ← h] at hi
  refine lookup_ne_none (b := p.2[i]) (List.mem_iff_getElem?.2 ⟨i, ?_⟩)
  simp only [tableRow, List.getElem?_mapIdx, List.getElem?_eq_getElem hi, Option.map_some]

theorem projectRow_safe {items : List BoundSelectItem} (h : Provides columns keys row)
    (hr : ∀ i ∈ items, readable columns keys i.expression = true) : Safe (projectRow A items row) :=
  (Safe.mapRows (fun i hi => evaluate_safe h (hr i hi))).bind (fun _ _ => .ok _)

theorem provides_projectRow {items : List BoundSelectItem} {out : ExecutionRow} (h : Provides columns keys row)
    (ho : projectRow A items row = .ok out) : Provides columns (keys ++ items.map (·.expression)) out := by
  obtain ⟨values, hv, ho⟩ := bind_eq_ok.1 ho
  cases ho
  have hlen := (mapRows_forall₂ hv).length_eq
  have hkeys : (items.zip values).zipIdx.map (·.1.1.expression) = items.map (·.expression) := by
    rw [show (fun p : (BoundSelectItem × Scalar) × Nat => p.1.1.expression) = (·.expression) ∘ Prod.fst ∘ Prod.fst from rfl,
      ← List.map_map, ← List.map_map, List.zipIdx_map_fst, List.map_fst_zip (by omega)]
  have := h.putItems (items.zip values).zipIdx
  rwa [hkeys] at this

theorem aggregateOf_safe (f : AggregateName) (d : DataType) (values : List Scalar) : Safe (aggregateOf A f d values) := by
  unfold aggregateOf
  split
  · exact .ok _
  · exact .ok _
  · split
    · split
      · exact (validateInt64_safe _).bind (fun _ _ => .ok _)
      · exact .ok _
    · split
      · exact .raise (by decide)
      · exact .ok _
    · exact .raise (by decide)
  · split
    · exact .ok _
    · exact .ok _
    · exact .raise (by decide)
  · exact .ok _
  · exact .ok _

theorem aggregateValue_safe {aggregate : BoundExpr} {rows : List ExecutionRow} (h : ∀ r ∈ rows, Provides columns keys r)
    (ha : argumentReadable columns keys aggregate = true) : Safe (aggregateValue A aggregate rows) := by
  cases aggregate with
  | function f a d n =>
    exact (Safe.mapRows (fun r hr => evaluate_safe (h r hr) ha)).bind (fun _ _ => aggregateOf_safe _ _ _)
  | countStar => exact .ok _
  | _ => cases ha

theorem groupRow_safe {groupBy aggregates : List BoundExpr} {key : Values} {rows : List ExecutionRow}
    (h : ∀ r ∈ rows, Provides columns keys r) (ha : ∀ e ∈ aggregates, argumentReadable columns keys e = true) :
    Safe (groupRow A groupBy aggregates key rows) :=
  (Safe.mapRows (fun e he => aggregateValue_safe h (ha e he))).bind (fun _ _ => .ok _)

theorem provides_groupRow {groupBy aggregates : List BoundExpr} {key : Values} {rows : List ExecutionRow} {out : ExecutionRow}
    (hk : groupBy.length ≤ key.length) (ho : groupRow A groupBy aggregates key rows = .ok out) :
    Provides [] (groupBy ++ aggregates) out := by
  obtain ⟨values, hv, ho⟩ := bind_eq_ok.1 ho
  cases ho
  have hlen := (mapRows_forall₂ hv).length_eq
  have hempty : Provides [] [] ExecutionRow.empty := ⟨fun b hb => (by cases hb), fun k hk => by cases hk⟩
  have := hempty.putAll (groupBy.zip key ++ aggregates.zip values)
  rwa [List.nil_append, List.map_append, List.map_fst_zip hk, List.map_fst_zip (by omega)] at this

/-- A group has the key of one row, and rows of the list only. -/
theorem mem_addToGroups {groupBy : List BoundExpr} {key : Values} : ∀ {groups : List Group},
    ∀ g ∈ addToGroups groupBy row key groups, (g.key = key ∨ ∃ g' ∈ groups, g.key = g'.key) ∧
      ∀ r ∈ g.rows, r = row ∨ ∃ g' ∈ groups, r ∈ g'.rows
  | [], g, hg => by
    rw [List.mem_singleton.1 hg]
    exact ⟨Or.inl rfl, fun r hr => Or.inl (List.mem_singleton.1 hr)⟩
  | g₀ :: gs, g, hg => by
    unfold addToGroups at hg
    split at hg
    · rcases List.mem_cons.1 hg with rfl | hg
      · refine ⟨Or.inr ⟨g₀, List.mem_cons_self, rfl⟩, fun r hr => ?_⟩
        rcases List.mem_append.1 hr with hr | hr
        · exact Or.inr ⟨g₀, List.mem_cons_self, hr⟩
        · exact Or.inl (List.mem_singleton.1 hr)
      · exact ⟨Or.inr ⟨g, List.mem_cons_of_mem _ hg, rfl⟩, fun r hr => Or.inr ⟨g, List.mem_cons_of_mem _ hg, hr⟩⟩
    · rcases List.mem_cons.1 hg with rfl | hg
      · exact ⟨Or.inr ⟨g, List.mem_cons_self, rfl⟩, fun r hr => Or.inr ⟨g, List.mem_cons_self, hr⟩⟩
      · obtain ⟨hkey, hrows⟩ := mem_addToGroups g hg
        have hlift : ∀ {P : Group → Prop}, (∃ g' ∈ gs, P g') → ∃ g' ∈ g₀ :: gs, P g' := by
          rintro P ⟨g', hg', hp⟩
          exact ⟨g', List.mem_cons_of_mem _ hg', hp⟩
        exact ⟨hkey.imp_right hlift, fun r hr => (hrows r hr).imp_right hlift⟩

theorem groupKey_safe {groupBy : List BoundExpr} (h : Provides columns keys row)
    (hg : ∀ e ∈ groupBy, readable columns keys e = true) : Safe (groupKey A groupBy row) :=
  (Safe.mapRows (fun e he => evaluate_safe h (hg e he))).bind (fun _ _ => .ok _)

theorem groupInto_gives {groupBy : List BoundExpr} (hg : ∀ e ∈ groupBy, readable columns keys e = true)
    (h : Provides columns keys row) {groups : List Group}
    (hgroups : ∀ g ∈ groups, g.key.length = groupBy.length ∧ ∀ r ∈ g.rows, Provides columns keys r) :
    Safe (Executor.groupInto A groupBy groups row) ∧ ∀ groups', Executor.groupInto A groupBy groups row = .ok groups' →
      ∀ g ∈ groups', g.key.length = groupBy.length ∧ ∀ r ∈ g.rows, Provides columns keys r := by
  refine ⟨(groupKey_safe h hg).bind (fun _ _ => .ok _), fun groups' hi g hgm => ?_⟩
  obtain ⟨⟨row', key⟩, hkey, hi⟩ := bind_eq_ok.1 hi
  cases hi
  obtain ⟨values, hvalues, hkey⟩ := bind_eq_ok.1 hkey
  cases hkey
  obtain ⟨hk, hrows⟩ := mem_addToGroups g hgm
  refine ⟨?_, fun r hr => ?_⟩
  · rcases hk with hk | ⟨g', hg', hk⟩
    · rw [hk]
      exact (mapRows_forall₂ hvalues).length_eq.symm
    · rw [hk]
      exact (hgroups g' hg').1
  · rcases hrows r hr with rfl | ⟨g', hg', hr⟩
    · exact h
    · exact (hgroups g' hg').2 r hr

theorem groupResults_gives {groupBy aggregates : List BoundExpr} {groups : List Group}
    (ha : ∀ e ∈ aggregates, argumentReadable columns keys e = true)
    (hgroups : ∀ g ∈ groups, g.key.length = groupBy.length ∧ ∀ r ∈ g.rows, Provides columns keys r) :
    Safe (Executor.groupResults A groupBy aggregates groups) ∧
      ∀ out, Executor.groupResults A groupBy aggregates groups = .ok out → ∀ r ∈ out, Provides [] (groupBy ++ aggregates) r := by
  -- without GROUP BY an empty input has one group
  have hall : ∀ g ∈ (if groupBy.isEmpty && groups.isEmpty then [⟨.empty, [], []⟩] else groups : List Group),
      g.key.length = groupBy.length ∧ ∀ r ∈ g.rows, Provides columns keys r := by
    intro g hg
    split at hg
    · rename_i he
      rw [Bool.and_eq_true, List.isEmpty_iff] at he
      rw [List.mem_singleton.1 hg, he.1]
      exact ⟨rfl, fun r hr => by cases hr⟩
    · exact hgroups g hg
  refine ⟨Safe.mapRows (fun g hg => groupRow_safe (hall g hg).2 ha), fun out ho r hr => ?_⟩
  obtain ⟨g, hg, hgr⟩ := mem_mapRows ho r hr
  exact provides_groupRow (by rw [(hall g hg).1]) hgr

theorem rowAfter_safe {orderBy : List BoundOrderItem} :
    ∀ {l r : ExecutionRow}, Provides columns keys l → Provides columns keys r →
    (∀ i ∈ orderBy, readable columns keys i.expression = true) → Safe (rowAfter A orderBy l r) := by
  induction orderBy with
  | nil => exact fun _ _ _ => .ok _
  | cons item items ih =>
    intro l r hl hr ho
    have hitem := ho item List.mem_cons_self
    refine (evaluate_safe hl hitem).bind (fun v _ => (evaluate_safe hr hitem).bind (fun w _ => ?_))
    split
    · exact .ok _
    · exact ih hl hr (fun i hi => ho i (List.mem_cons_of_mem _ hi))

theorem insertRow_gives {orderBy : List BoundOrderItem} (ho : ∀ i ∈ orderBy, readable columns keys i.expression = true) :
    ∀ {rows : List ExecutionRow}, Provides columns keys row → (∀ r ∈ rows, Provides columns keys r) →
      Safe (insertRow A orderBy row rows) ∧
        ∀ out, insertRow A orderBy row rows = .ok out → ∀ r ∈ out, Provides columns keys r
  | [], hrow, _ => ⟨.ok _, fun out h r hr => by cases h; rw [List.mem_singleton.1 hr]; exact hrow⟩
  | r₀ :: rs, hrow, h => by
    have h₀ := h r₀ List.mem_cons_self
    obtain ⟨hs, hout⟩ := insertRow_gives ho hrow (fun r (hr : r ∈ rs) => h r (List.mem_cons_of_mem _ hr))
    constructor
    · refine (rowAfter_safe hrow h₀ ho).bind (fun after _ => ?_)
      split
      · exact hs.bind (fun _ _ => .ok _)
      · exact .ok _
    · intro out hi
      obtain ⟨after, -, hi⟩ := bind_eq_ok.1 hi
      split at hi
      · obtain ⟨rest, hrest, hi⟩ := bind_eq_ok.1 hi
        cases hi
        exact List.forall_mem_cons.2 ⟨h₀, hout rest hrest⟩
      · cases hi
        exact List.forall_mem_cons.2 ⟨hrow, h⟩

theorem sortRows_gives {orderBy : List BoundOrderItem} (ho : ∀ i ∈ orderBy, readable columns keys i.expression = true) :
    ∀ {rows : List ExecutionRow}, (∀ r ∈ rows, Provides columns keys r) → Safe (sortRows A orderBy rows) ∧
      ∀ out, sortRows A orderBy rows = .ok out → ∀ r ∈ out, Provides columns keys r
  | [], _ => ⟨.ok _, fun out h r hr => by cases h; cases hr⟩
  | r₀ :: rs, h => by
    obtain ⟨hs, hout⟩ := sortRows_gives ho (fun r (hr : r ∈ rs) => h r (List.mem_cons_of_mem _ hr))
    have h₀ := h r₀ List.mem_cons_self
    constructor
    · exact hs.bind (fun sorted hsorted => (insertRow_gives ho h₀ (hout sorted hsorted)).1)
    · intro out hi
      obtain ⟨sorted, hsorted, hi⟩ := bind_eq_ok.1 hi
      exact (insertRow_gives ho h₀ (hout sorted hsorted)).2 out hi

theorem valuesRow_safe {expressions : List BoundExpr} (h : ∀ e ∈ expressions, readable [] [] e = true) :
    Safe (valuesRow A expressions) :=
  (Safe.mapRows (fun e he => evaluate_safe (⟨fun b hb => (by cases hb), fun k hk => by cases hk⟩ : Provides [] [] .empty)
    (h e he))).bind (fun _ _ => .ok _)

/-- **The rows of a well-scoped and oriented plan provide what it says, and its errors are others**, by induction on the plan. -/
theorem pull_gives {context : ExecutionContext} : ∀ {plan : LogicalPlan}, plan.WellScoped → plan.Oriented →
    FullRows context.scan plan.scans → Safe ((Planner.physical plan).pull A context) ∧
      ∀ p, (Planner.physical plan).pull A context = .ok p → Gives plan.columns plan.keys p
  | .values rows, hw, _, _ => by
    refine ⟨.ok _, fun p hp => ?_⟩
    cases hp
    refine ⟨fun r _ => ⟨fun b hb => (by cases hb), fun k hk => by cases hk⟩, fun e he => ?_⟩
    rcases Pull.bind_failed he with he | ⟨x, hx, he⟩
    · cases he
    · cases hv : valuesRow A x with
      | ok row => rw [hv] at he; cases he
      | error e' =>
        rw [hv] at he
        cases he
        exact valuesRow_safe (hw x hx) e hv
  | .scan table required, _, _, hs => by
    refine ⟨.ok _, fun p hp => ?_⟩
    cases hp
    refine gives_ofList (fun r hr => ?_)
    obtain ⟨q, hq, rfl⟩ := List.mem_map.1 hr
    exact provides_tableRow (hs table (List.mem_singleton_self _) q hq)
  | .filter child predicate, hw, ho, hs => by
    obtain ⟨hsafe, hgives⟩ := pull_gives hw.1 (show child.Oriented from ho) hs
    refine ⟨hsafe.bind (fun _ _ => .ok _), fun p hp => ?_⟩
    obtain ⟨q, hq, hp⟩ := bind_eq_ok.1 hp
    cases hp
    exact (hgives q hq).bind (fun r hr => gives_kept hr hw.2)
  | .project child items, hw, ho, hs => by
    obtain ⟨hsafe, hgives⟩ := pull_gives hw.1 (show child.Oriented from ho) hs
    refine ⟨hsafe.bind (fun _ _ => .ok _), fun p hp => ?_⟩
    obtain ⟨q, hq, hp⟩ := bind_eq_ok.1 hp
    cases hp
    exact (hgives q hq).bind (fun r hr => gives_ofExcept (projectRow_safe hr hw.2.1) (fun out ho => provides_projectRow hr ho))
  | .join l r condition, hw, ho, hs => by
    obtain ⟨hsl, hgl⟩ := pull_gives (show l.WellScoped from hw.1) ho.1 (fun t ht => hs t (List.mem_append_left _ ht))
    obtain ⟨hsr, hgr⟩ := pull_gives (show r.WellScoped from hw.2.1) ho.2.1 (fun t ht => hs t (List.mem_append_right _ ht))
    rw [Planner.physical]
    cases hkeys : Planner.hashJoinKeys condition with
    | none =>
      refine ⟨hsl.bind (fun _ _ => hsr.bind (fun opened ho => (hgr opened ho).drain.1.bind (fun _ _ => .ok _))), fun p hp => ?_⟩
      obtain ⟨lefts, hl, hp⟩ := bind_eq_ok.1 hp
      obtain ⟨opened, ho, hp⟩ := bind_eq_ok.1 hp
      obtain ⟨rights, hr, hp⟩ := bind_eq_ok.1 hp
      cases hp
      exact (hgl lefts hl).bind (fun row hrow => gives_joinedAll hrow ((hgr opened ho).drain.2 rights hr) hw.2.2)
    | some k =>
      obtain ⟨hleft, hright⟩ := ho.2.2 k hkeys
      have hhash : ∀ {opened}, (Planner.physical r).pull A context = .ok opened → _ := fun ho =>
        (hgr _ ho).fold (fun r hr hash hh => hashRow_gives (A := A) hright hr hh) (fun v r hr => by
          rw [candidates_nil] at hr
          cases hr)
      refine ⟨hsl.bind (fun _ _ => hsr.bind (fun opened ho => (hhash ho).1.bind (fun _ _ => .ok _))), fun p hp => ?_⟩
      obtain ⟨lefts, hl, hp⟩ := bind_eq_ok.1 hp
      obtain ⟨opened, ho, hp⟩ := bind_eq_ok.1 hp
      obtain ⟨hash, hh, hp⟩ := bind_eq_ok.1 hp
      cases hp
      exact (hgl lefts hl).bind (fun row hrow => gives_matchesOf hrow ((hhash ho).2 hash hh) hleft hw.2.2)
  | .aggregate child groupBy aggregates, hw, ho, hs => by
    obtain ⟨hsafe, hgives⟩ := pull_gives hw.1 (show child.Oriented from ho) hs
    have hgroups : ∀ {opened}, (Planner.physical child).pull A context = .ok opened → _ := fun ho =>
      (hgives _ ho).fold (P := fun groups : List Group => ∀ g ∈ groups, g.key.length = groupBy.length ∧
        ∀ r ∈ g.rows, Provides child.columns child.keys r)
        (fun r hr groups hg => groupInto_gives (A := A) hw.2.1 hr hg) (fun g hg => absurd hg List.not_mem_nil)
    refine ⟨hsafe.bind (fun opened ho => (hgroups ho).1.bind (fun groups hg =>
      (groupResults_gives hw.2.2.1 ((hgroups ho).2 groups hg)).1.bind (fun _ _ => .ok _))), fun p hp => ?_⟩
    obtain ⟨opened, ho, hp⟩ := bind_eq_ok.1 hp
    obtain ⟨groups, hg, hp⟩ := bind_eq_ok.1 hp
    obtain ⟨results, hres, hp⟩ := bind_eq_ok.1 hp
    cases hp
    exact gives_ofList ((groupResults_gives hw.2.2.1 ((hgroups ho).2 groups hg)).2 results hres)
  | .sort child orderBy, hw, ho, hs => by
    obtain ⟨hsafe, hgives⟩ := pull_gives hw.1 (show child.Oriented from ho) hs
    have hrows : ∀ {opened rows}, (Planner.physical child).pull A context = .ok opened → opened.drain = .ok rows → _ :=
      fun ho hr => sortRows_gives (A := A) hw.2 ((hgives _ ho).drain.2 _ hr)
    refine ⟨hsafe.bind (fun opened ho => (hgives opened ho).drain.1.bind (fun rows hr =>
      (hrows ho hr).1.bind (fun _ _ => .ok _))), fun p hp => ?_⟩
    obtain ⟨opened, ho, hp⟩ := bind_eq_ok.1 hp
    obtain ⟨rows, hr, hp⟩ := bind_eq_ok.1 hp
    obtain ⟨sorted, hsorted, hp⟩ := bind_eq_ok.1 hp
    cases hp
    exact gives_ofList ((hrows ho hr).2 sorted hsorted)
  | .limit child n, hw, ho, hs => by
    obtain ⟨hsafe, hgives⟩ := pull_gives (show child.WellScoped from hw) (show child.Oriented from ho) hs
    refine ⟨hsafe.bind (fun _ _ => .ok _), fun p hp => ?_⟩
    obtain ⟨q, hq, hp⟩ := bind_eq_ok.1 hp
    cases hp
    exact (hgives q hq).take n
  | .insert .., _, _, _ => ⟨.raise (by decide), fun _ hp => absurd hp raise_ne_ok⟩
  | .update .., _, _, _ => ⟨.raise (by decide), fun _ hp => absurd hp raise_ne_ok⟩
  | .delete .., _, _, _ => ⟨.raise (by decide), fun _ hp => absurd hp raise_ne_ok⟩

theorem build_safe : ∀ plan : PhysicalPlan, Safe (Executor.build plan)
  | .values _ => .ok _
  | .seqScan _ => .ok _
  | .indexScan _ _ _ (some _) (some _) => .ok _
  | .indexScan _ _ _ none _ => .raise (by decide)
  | .indexScan _ _ _ (some _) none => .raise (by decide)
  | .filter child _ => (build_safe child).bind (fun _ _ => .ok _)
  | .project child _ => (build_safe child).bind (fun _ _ => .ok _)
  | .nestedLoopJoin left right _ => (build_safe left).bind (fun _ _ => (build_safe right).bind (fun _ _ => .ok _))
  | .hashJoin left right _ _ _ => (build_safe left).bind (fun _ _ => (build_safe right).bind (fun _ _ => .ok _))
  | .aggregate child _ _ => (build_safe child).bind (fun _ _ => .ok _)
  | .sort child _ => (build_safe child).bind (fun _ _ => .ok _)
  | .limit child _ => (build_safe child).bind (fun _ _ => .ok _)
  | .modifyTable .. => .raise (by decide)

/-- **The run of a well-scoped and oriented plan comes to an outcome, and never misses a column or an aggregate.** -/
theorem execute_available {context : ExecutionContext} {plan : LogicalPlan} (hw : plan.WellScoped) (ho : plan.Oriented)
    (hs : FullRows context.scan plan.scans) : ∃ outcome,
      Comes (fun n => (Planner.physical plan).execute A context n) outcome ∧ ∀ e, outcome = .error e → ¬ Unavailable e := by
  obtain ⟨hsafe, hgives⟩ := pull_gives (A := A) hw ho hs
  obtain ⟨outcome, hc, hr⟩ := PhysicalPlan.execute_results A context (Planner.physical plan)
  refine ⟨outcome, hc, fun e he => ?_⟩
  have hrun : Safe (Executor.build (Planner.physical plan) >>= fun _ => (Planner.physical plan).pull A context >>= Pull.drain) :=
    (build_safe _).bind (fun _ _ => hsafe.bind (fun p hp => (hgives p hp).drain.1))
  subst he
  exact (hrun e hr.symm).not_unavailable

end Runs
end MiniPostgres
