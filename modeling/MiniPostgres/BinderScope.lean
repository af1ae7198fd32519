import MiniPostgres.Scoping
/-!
# BinderScope — which statements have well-scoped plans

Everything that the binder makes reads columns of the FROM tables, and aggregates over rows of them.  Grouping is checked by
structure, as the executor looks computed values up by structure.  What is left are the ON conditions: they are bound when all
tables are in scope, and read when only some are joined.
-/
namespace MiniPostgres

open Operators (mapRows mapRows_forall₂ mem_mapRows)
open Binder (containsAggregate)

/-! ## Aggregates of a bound expression -/

/-- The arguments of the aggregates hold no aggregates, and are well typed. -/
def PlainArguments (scope : List ScopeEntry) (e : BoundExpr) : Prop :=
  ∀ f ∈ Planner.functionsOf e, f = .countStar ∨
    ∃ g a d n, f = .function g a d n ∧ containsAggregate a = false ∧ WellTyped scope a

theorem functionsOf_of_noAggregate : ∀ {e : BoundExpr}, containsAggregate e = false → Planner.functionsOf e = [] := by
  intro e
  induction e with
  | literal _ _ _ => exact fun _ => rfl
  | column _ _ _ _ => exact fun _ => rfl
  | cast o _ _ ih => exact fun h => ih h
  | unary _ o _ _ ih => exact fun h => ih h
  | binary l _ r _ _ ihl ihr =>
    intro h
    rw [containsAggregate, Bool.or_eq_false_iff] at h
    rw [Planner.functionsOf, ihl h.1, ihr h.2]
    rfl
  | isNull o _ ih => exact fun h => ih h
  | function _ _ _ _ => exact fun h => by cases h
  | countStar => exact fun h => by cases h

theorem noAggregate_of_functionsOf : ∀ {e : BoundExpr}, Planner.functionsOf e = [] → containsAggregate e = false := by
  intro e
  induction e with
  | literal _ _ _ => exact fun _ => rfl
  | column _ _ _ _ => exact fun _ => rfl
  | cast o _ _ ih => exact fun h => ih h
  | unary _ o _ _ ih => exact fun h => ih h
  | binary l _ r _ _ ihl ihr =>
    intro h
    rw [Planner.functionsOf, List.append_eq_nil_iff] at h
    rw [containsAggregate, ihl h.1, ihr h.2]
    rfl
  | isNull o _ ih => exact fun h => ih h
  | function _ _ _ _ => exact fun h => by cases h
  | countStar => exact fun h => by cases h

theorem wellTyped_bindings {scope : List ScopeEntry} : ∀ {e : BoundExpr}, WellTyped scope e → ∀ b ∈ e.bindings,
    ∃ entry ∈ scope, entry.table.tableId = b.tableId ∧ b.columnId < entry.table.schema.columns.length := by
  intro e
  induction e with
  | literal _ _ _ => exact fun _ b hb => by cases hb
  | column c _ _ _ =>
    rintro ⟨entry, he, hid, col, hc, -⟩ b hb
    rw [List.mem_singleton.1 hb]
    exact ⟨entry, he, hid, (List.getElem?_eq_some_iff.1 hc).1⟩
  | cast o _ _ ih => exact fun h => ih h.2.2.2
  | unary _ o _ _ ih => exact fun h => ih h.2.2.2
  | binary l _ r _ _ ihl ihr => exact fun h b hb => (List.mem_append.1 hb).elim (ihl h.2.2.1 b) (ihr h.2.2.2 b)
  | isNull o _ ih => exact fun h => ih h
  | function _ a _ _ ih => exact fun h => ih h
  | countStar => exact fun _ b hb => by cases hb

namespace Binder

variable {K : Casing} {scope : List ScopeEntry}

/-- A list that an expression has from its leaves, whatever the types of its literals: the binder's coercions keep it. -/
structure Collects {α : Type} (f : BoundExpr → List α) : Prop where
  literal : ∀ v d n d' n', f (.literal v d n) = f (.literal v d' n')
  cast    : ∀ o d n, f (.cast o d n) = f o
  unary   : ∀ p o d n, f (.unary p o d n) = f o
  binary  : ∀ l p r d n, f (.binary l p r d n) = f l ++ f r

section Collects

variable {α : Type} {f : BoundExpr → List α} (hf : Collects f)

include hf

theorem Collects.coerce {e e' : BoundExpr} {d : DataType} (h : coerce e d = .ok e') : f e' = f e := by
  unfold Binder.coerce at h
  split at h
  · split at h
    · cases h; exact hf.literal _ _ _ _ _
    · exact absurd h raise_ne_ok
  · split at h
    · cases h; rfl
    · split at h
      · cases h; exact hf.cast _ _ _
      · exact absurd h raise_ne_ok

theorem Collects.numericPair {l r l' r' : BoundExpr} {d : DataType} (h : numericPair l r = .ok (l', r', d)) :
    f l' = f l ∧ f r' = f r := by
  obtain ⟨-, -, h⟩ := bind_eq_ok.1 h
  obtain ⟨-, -, h⟩ := bind_eq_ok.1 h
  split at h
  · obtain ⟨l₁, hl, h⟩ := bind_eq_ok.1 h
    obtain ⟨r₁, hr, h⟩ := bind_eq_ok.1 h
    cases h
    exact ⟨hf.coerce hl, hf.coerce hr⟩
  · cases h
    exact ⟨rfl, rfl⟩

theorem Collects.comparablePair {l r l' r' : BoundExpr} (h : comparablePair l r = .ok (l', r')) : f l' = f l ∧ f r' = f r := by
  unfold Binder.comparablePair at h
  split at h
  · cases h; exact ⟨rfl, rfl⟩
  · obtain ⟨l₁, hl, h⟩ := bind_eq_ok.1 h
    cases h
    exact ⟨hf.coerce hl, rfl⟩
  · obtain ⟨r₁, hr, h⟩ := bind_eq_ok.1 h
    cases h
    exact ⟨rfl, hf.coerce hr⟩
  · split at h
    · cases h; exact ⟨rfl, rfl⟩
    · split at h
      · obtain ⟨⟨l₁, r₁, d₁⟩, hp, h⟩ := bind_eq_ok.1 h
        cases h
        exact hf.numericPair hp
      · exact absurd h raise_ne_ok

theorem Collects.bindBinary {l r b : BoundExpr} {p : BinaryOperator} (h : bindBinary l p r = .ok b) : f b = f l ++ f r := by
  cases p with
  | and | or =>
    simp only [Binder.bindBinary] at h
    split at h
    · cases h; exact hf.binary _ _ _ _ _
    · exact absurd h raise_ne_ok
  | add | sub | mul | div =>
    simp only [Binder.bindBinary] at h
    obtain ⟨⟨l₁, r₁, d⟩, hp, h⟩ := bind_eq_ok.1 h
    cases h
    obtain ⟨hl, hr⟩ := hf.numericPair hp
    rw [hf.binary, hl, hr]
  | eq | ne | lt | le | gt | ge =>
    simp only [Binder.bindBinary] at h
    obtain ⟨⟨l₁, r₁⟩, hp, h⟩ := bind_eq_ok.1 h
    cases h
    obtain ⟨hl, hr⟩ := hf.comparablePair hp
    rw [hf.binary, hl, hr]

theorem Collects.bindUnary {o b : BoundExpr} {p : UnaryOperator} (h : bindUnary p o = .ok b) : f b = f o := by
  cases p with
  | not =>
    simp only [Binder.bindUnary] at h
    split at h
    · cases h; exact hf.unary _ _ _ _
    · exact absurd h raise_ne_ok
  | plus | minus =>
    simp only [Binder.bindUnary] at h
    obtain ⟨-, -, h⟩ := bind_eq_ok.1 h
    split at h
    · cases h; exact hf.unary _ _ _ _
    · exact absurd h raise_ne_ok

end Collects

theorem functionsOf_collects : Collects Planner.functionsOf :=
  ⟨fun _ _ _ _ _ => rfl, fun _ _ _ => rfl, fun _ _ _ _ => rfl, fun _ _ _ _ _ => rfl⟩

theorem bindings_collects : Collects BoundExpr.bindings :=
  ⟨fun _ _ _ _ _ => rfl, fun _ _ _ => rfl, fun _ _ _ _ => rfl, fun _ _ _ _ _ => rfl⟩

theorem functionsOf_bindLiteral {v : Scalar} {b : BoundExpr} (h : bindLiteral v = .ok b) : Planner.functionsOf b = [] := by
  unfold bindLiteral at h
  split at h
  · obtain ⟨m, -, h⟩ := bind_eq_ok.1 h
    cases h; rfl
  · cases h; rfl

theorem functionsOf_resolveColumn {name : Name} {table : Option Name} {b : BoundExpr}
    (h : resolveColumn K scope name table = .ok b) : Planner.functionsOf b = [] := by
  obtain ⟨entries, -, h⟩ := bind_eq_ok.1 h
  split at h
  · exact absurd h raise_ne_ok
  · cases h; rfl
  · exact absurd h raise_ne_ok

theorem checkFunction_ok {context : String} {allow inside : Bool} {name : Name} {f : AggregateName}
    (h : checkFunction K context allow inside name = .ok f) : allow = true ∧ inside = false := by
  unfold checkFunction at h
  split at h
  · exact absurd h raise_ne_ok
  · split at h
    · exact absurd h raise_ne_ok
    · split at h
      · exact absurd h raise_ne_ok
      · rename_i ha hi
        exact ⟨by simpa using ha, by simpa using hi⟩

/-- **Where aggregates are not allowed, or inside of one, there is none.** -/
theorem bindExpression_noAggregate {context : String} : ∀ {e : Expr} {allow inside : Bool} {b : BoundExpr},
    allow = false ∨ inside = true → bindExpression K scope context allow inside e = .ok b → Planner.functionsOf b = []
  | .literal v, _, _, _, _, h => functionsOf_bindLiteral (by simpa only [bindExpression] using h)
  | .columnRef name table, _, _, _, _, h => functionsOf_resolveColumn (by simpa only [bindExpression] using h)
  | .star _, _, _, _, _, h => by
    simp only [bindExpression] at h
    exact absurd h raise_ne_ok
  | .unary p e, _, _, _, hn, h => by
    simp only [bindExpression] at h
    obtain ⟨o, ho, h⟩ := bind_eq_ok.1 h
    rw [functionsOf_collects.bindUnary h, bindExpression_noAggregate hn ho]
  | .binary l p r, _, _, _, hn, h => by
    simp only [bindExpression] at h
    obtain ⟨l', hl, h⟩ := bind_eq_ok.1 h
    obtain ⟨r', hr, h⟩ := bind_eq_ok.1 h
    rw [functionsOf_collects.bindBinary h, bindExpression_noAggregate hn hl, bindExpression_noAggregate hn hr]
    rfl
  | .isNull e g, _, _, _, hn, h => by
    simp only [bindExpression] at h
    obtain ⟨o, ho, h⟩ := bind_eq_ok.1 h
    cases h
    exact show Planner.functionsOf o = [] from bindExpression_noAggregate hn ho
  | .function name [a], allow, inside, _, hn, h => by
    simp only [bindExpression] at h
    obtain ⟨f, hf, h⟩ := bind_eq_ok.1 h
    obtain ⟨ha, hi⟩ := checkFunction_ok hf
    rcases hn with hn | hn
    · rw [ha] at hn; cases hn
    · rw [hi] at hn; cases hn
  | .function name [], _, _, _, _, h => by
    simp only [bindExpression] at h
    obtain ⟨f, -, h⟩ := bind_eq_ok.1 h
    exact absurd h raise_ne_ok
  | .function name (_ :: _ :: _), _, _, _, _, h => by
    simp only [bindExpression] at h
    obtain ⟨f, -, h⟩ := bind_eq_ok.1 h
    exact absurd h raise_ne_ok

theorem functionsOf_bindAggregate {f : AggregateName} {a b : BoundExpr} (h : bindAggregate f a = .ok b) :
    ∃ d n, b = .function f a d n := by
  cases f with
  | count => cases h; exact ⟨_, _, rfl⟩
  | sum | avg | min | max =>
    simp only [bindAggregate] at h
    obtain ⟨-, -, h⟩ := bind_eq_ok.1 h
    split at h
    · exact absurd h raise_ne_ok
    · cases h; exact ⟨_, _, rfl⟩

theorem plainArguments_append {e l r : BoundExpr} (he : Planner.functionsOf e = Planner.functionsOf l ++ Planner.functionsOf r)
    (hl : PlainArguments scope l) (hr : PlainArguments scope r) : PlainArguments scope e := by
  intro f hf
  rw [he] at hf
  exact (List.mem_append.1 hf).elim (hl f) (hr f)

/-- **The aggregates of a bound expression have plain arguments.** -/
theorem bindExpression_plainArguments {context : String} : ∀ {e : Expr} {allow inside : Bool} {b : BoundExpr},
    bindExpression K scope context allow inside e = .ok b → PlainArguments scope b
  | .literal v, _, _, b, h => by
    intro f hf
    rw [functionsOf_bindLiteral (v := v) (by simpa only [bindExpression] using h)] at hf
    cases hf
  | .columnRef name table, _, _, _, h => by
    intro f hf
    simp only [bindExpression] at h
    rw [functionsOf_resolveColumn h] at hf
    cases hf
  | .star _, _, _, _, h => by
    simp only [bindExpression] at h
    exact absurd h raise_ne_ok
  | .unary p e, _, _, _, h => by
    simp only [bindExpression] at h
    obtain ⟨o, ho, h⟩ := bind_eq_ok.1 h
    intro f hf
    rw [functionsOf_collects.bindUnary h] at hf
    exact bindExpression_plainArguments ho f hf
  | .binary l p r, _, _, _, h => by
    simp only [bindExpression] at h
    obtain ⟨l', hl, h⟩ := bind_eq_ok.1 h
    obtain ⟨r', hr, h⟩ := bind_eq_ok.1 h
    exact plainArguments_append (functionsOf_collects.bindBinary h) (bindExpression_plainArguments hl)
      (bindExpression_plainArguments hr)
  | .isNull e g, _, _, _, h => by
    simp only [bindExpression] at h
    obtain ⟨o, ho, h⟩ := bind_eq_ok.1 h
    cases h
    exact show PlainArguments scope o from bindExpression_plainArguments ho
  | .function name [a], _, _, _, h => by
    simp only [bindExpression] at h
    obtain ⟨f, -, h⟩ := bind_eq_ok.1 h
    split at h
    · split at h
      · cases h
        intro f hf
        exact Or.inl (List.mem_singleton.1 hf)
      · exact absurd h raise_ne_ok
    · obtain ⟨argument, ha, h⟩ := bind_eq_ok.1 h
      obtain ⟨d, n, rfl⟩ := functionsOf_bindAggregate h
      intro g hg
      refine Or.inr ⟨f, argument, d, n, List.mem_singleton.1 hg, ?_, bindExpression_wellTyped ha⟩
      exact noAggregate_of_functionsOf (bindExpression_noAggregate (Or.inr rfl) ha)
  | .function name [], _, _, _, h => by
    simp only [bindExpression] at h
    obtain ⟨f, -, h⟩ := bind_eq_ok.1 h
    exact absurd h raise_ne_ok
  | .function name (_ :: _ :: _), _, _, _, h => by
    simp only [bindExpression] at h
    obtain ⟨f, -, h⟩ := bind_eq_ok.1 h
    exact absurd h raise_ne_ok

/-- What the binder knows of an expression of the SELECT list or of ORDER BY. -/
structure Accepted (scope : List ScopeEntry) (e : BoundExpr) : Prop where
  typed : WellTyped scope e
  plain : PlainArguments scope e

theorem bindPredicate_ok {context : String} {e : Expr} {b : BoundExpr} (h : bindPredicate K scope context e = .ok b) :
    WellTyped scope b ∧ containsAggregate b = false := by
  obtain ⟨bound, hb, h⟩ := bind_eq_ok.1 h
  split at h
  · cases h
    exact ⟨⟨rfl, fun hn => absurd rfl hn, fun n hn => by cases hn⟩, rfl⟩
  · split at h
    · cases h
      exact ⟨bindExpression_wellTyped hb, noAggregate_of_functionsOf (bindExpression_noAggregate (Or.inl rfl) hb)⟩
    · exact absurd h raise_ne_ok

theorem columnOf_accepted {entry : ScopeEntry} (he : entry ∈ scope) {i : Nat} {c : Column}
    (hc : entry.table.schema.columns[i]? = some c) : Accepted scope (columnOf entry.table.tableId i c) :=
  ⟨⟨entry, he, rfl, c, hc, rfl, rfl⟩, fun f hf => by cases hf⟩

theorem bindItem_accepted {item : SelectItem} {items : List BoundSelectItem} (h : bindItem K scope item = .ok items) :
    ∀ i ∈ items, Accepted scope i.expression := by
  unfold bindItem at h
  split at h
  · obtain ⟨entries, he, h⟩ := bind_eq_ok.1 h
    split at h
    · exact absurd h raise_ne_ok
    · cases h
      intro i hi
      obtain ⟨entry, hent, hi⟩ := List.mem_flatMap.1 hi
      obtain ⟨c, hc, rfl⟩ := List.mem_map.1 hi
      exact columnOf_accepted (mem_entriesFor he entry hent) (List.mem_zipIdx_iff_getElem?.1 hc)
  · obtain ⟨bound, hb, h⟩ := bind_eq_ok.1 h
    cases h
    intro i hi
    rw [List.mem_singleton.1 hi]
    exact ⟨bindExpression_wellTyped hb, bindExpression_plainArguments hb⟩

theorem bindOrderItem_accepted {items : List BoundSelectItem} (hi : ∀ i ∈ items, Accepted scope i.expression)
    {item : OrderItem} {b : BoundOrderItem} (h : bindOrderItem K scope items item = .ok b) : Accepted scope b.expression := by
  unfold bindOrderItem at h
  split at h
  · rename_i i hn
    cases h
    unfold namedItem at hn
    split at hn
    · exact hi i (List.mem_of_find?_eq_some hn)
    · cases hn
  · obtain ⟨bound, hb, h⟩ := bind_eq_ok.1 h
    cases h
    exact ⟨bindExpression_wellTyped hb, bindExpression_plainArguments hb⟩

/-! ## The scope -/

theorem checkScope_ok {tableId : Nat} {alias_ normalized : Name} : ∀ {scope : List ScopeEntry},
    checkScope tableId alias_ normalized scope = .ok () → ∀ entry ∈ scope, entry.table.tableId ≠ tableId
  | [], _, entry, he => by cases he
  | e :: es, h, entry, he => by
    unfold checkScope at h
    split at h
    · exact absurd h raise_ne_ok
    · rename_i hne
      split at h
      · exact absurd h raise_ne_ok
      · rcases List.mem_cons.1 he with rfl | he
        · exact hne
        · exact checkScope_ok h entry he

theorem bindTables_ok {catalog : Catalog} : ∀ {refs : List TableRef} {scope scope' : List ScopeEntry} {tables : List BoundTable},
    bindTables K catalog scope refs = .ok (tables, scope') → (scope.map (·.table.tableId)).Nodup →
      scope'.map (·.table) = scope.map (·.table) ++ tables ∧ (scope'.map (·.table.tableId)).Nodup ∧ tables.length = refs.length
  | [], scope, _, _, h, hn => by
    cases h
    exact ⟨(List.append_nil _).symm, hn, rfl⟩
  | ref :: refs, scope, scope', _, h, hn => by
    simp only [bindTables] at h
    obtain ⟨⟨table, scope₁⟩, h₁, h⟩ := bind_eq_ok.1 h
    obtain ⟨⟨tables, scope₂⟩, h₂, h⟩ := bind_eq_ok.1 h
    cases h
    obtain ⟨metadata, -, h₁⟩ := bind_eq_ok.1 h₁
    obtain ⟨⟨⟩, hc, h₁⟩ := bind_eq_ok.1 h₁
    cases h₁
    have hnew := checkScope_ok hc
    have hn₁ : ((scope ++ [(⟨⟨metadata.tableId, metadata.schema⟩,
        [K.casefold (ref.alias_.getD ref.name)]⟩ : ScopeEntry)]).map (·.table.tableId)).Nodup := by
      rw [List.map_append]
      refine List.nodup_append.2 ⟨hn, List.nodup_singleton _, fun a ha b hb he => ?_⟩
      obtain ⟨entry, hent, rfl⟩ := List.mem_map.1 ha
      rw [List.map_cons, List.map_nil, List.mem_singleton] at hb
      exact hnew entry hent (he.trans hb)
    obtain ⟨hmap, hn₂, hlen⟩ := bindTables_ok h₂ hn₁
    refine ⟨?_, hn₂, by rw [List.length_cons, List.length_cons, hlen]⟩
    rw [hmap, List.map_append, List.append_assoc]
    rfl

/-! ### A smaller scope -/

def ids (scope : List ScopeEntry) : List Nat := scope.map (·.table.tableId)

def selected (K : Casing) (scope : List ScopeEntry) : Option Name → List ScopeEntry
  | none       => scope
  | some table => scope.filter (fun entry => entry.visibleNames.contains (K.casefold table))

def candidates (K : Casing) (scope : List ScopeEntry) (name : Name) (table : Option Name) : List (BoundTable × Nat × Column) :=
  (selected K scope table).filterMap (fun entry : ScopeEntry =>
    (findColumn K entry.table.schema name).map (fun c => (entry.table, c)))

theorem entriesFor_selected {table : Option Name} {entries : List ScopeEntry} (h : entriesFor K scope table = .ok entries) :
    entries = selected K scope table := by
  cases table with
  | none => cases h; rfl
  | some table =>
    simp only [entriesFor] at h
    split at h
    · exact absurd h raise_ne_ok
    · rename_i he
      cases h
      exact he.symm

theorem entriesFor_of_ne_nil {table : Option Name} (h : selected K scope table ≠ []) :
    entriesFor K scope table = .ok (selected K scope table) := by
  cases table with
  | none => rfl
  | some table =>
    unfold selected at h ⊢
    simp only [entriesFor]
    split
    · rename_i he
      exact absurd he h
    · rename_i he
      rw [he]

theorem resolveColumn_eq_ok {name : Name} {table : Option Name} {b : BoundExpr} : resolveColumn K scope name table = .ok b ↔
    ∃ t c, candidates K scope name table = [(t, c)] ∧ b = columnOf t.tableId c.1 c.2 := by
  constructor
  · intro h
    obtain ⟨entries, he, h⟩ := bind_eq_ok.1 h
    rw [entriesFor_selected he] at h
    split at h
    · exact absurd h raise_ne_ok
    · rename_i t c hc
      cases h
      exact ⟨t, c, hc, rfl⟩
    · exact absurd h raise_ne_ok
  · rintro ⟨t, c, hc, rfl⟩
    have hne : selected K scope table ≠ [] := by
      intro he
      rw [candidates, he] at hc
      cases hc
    unfold resolveColumn
    rw [entriesFor_of_ne_nil hne]
    unfold candidates at hc
    simp only [bind, Except.bind, hc]

theorem candidates_append {scope' rest : List ScopeEntry} {name : Name} {table : Option Name} :
    candidates K (scope' ++ rest) name table = candidates K scope' name table ++ candidates K rest name table := by
  cases table with
  | none => simp [candidates, selected]
  | some table => simp [candidates, selected]

theorem mem_candidates {name : Name} {table : Option Name} {t : BoundTable} {c : Nat × Column}
    (h : (t, c) ∈ candidates K scope name table) : t.tableId ∈ ids scope := by
  obtain ⟨entry, he, h⟩ := List.mem_filterMap.1 h
  obtain ⟨c', -, h⟩ := Option.map_eq_some_iff.1 h
  cases h
  refine List.mem_map.2 ⟨entry, ?_, rfl⟩
  cases table with
  | none => exact he
  | some table => exact (List.mem_filter.1 he).1

/-- **What the first tables of a scope bind**: an expression that the whole scope binds is bound by them in the same way, exactly
when it reads them only. -/
theorem resolveColumn_initial {scope' rest : List ScopeEntry} (hn : (ids (scope' ++ rest)).Nodup) {name : Name}
    {table : Option Name} {b : BoundExpr} (h : resolveColumn K (scope' ++ rest) name table = .ok b) :
    (∀ b', resolveColumn K scope' name table = .ok b' → b' = b) ∧
      ((∀ x ∈ b.bindings, x.tableId ∈ ids scope') → resolveColumn K scope' name table = .ok b) := by
  obtain ⟨t, c, hc, rfl⟩ := resolveColumn_eq_ok.1 h
  rw [candidates_append] at hc
  rcases List.append_eq_singleton_iff.1 hc with ⟨h₁, h₂⟩ | ⟨h₁, h₂⟩
  · refine ⟨fun b' hb => ?_, fun hx => ?_⟩
    · obtain ⟨t', c', he, -⟩ := resolveColumn_eq_ok.1 hb
      rw [h₁] at he
      cases he
    · have hin : t.tableId ∈ ids rest := mem_candidates (h₂ ▸ List.mem_singleton_self _)
      have hin' : t.tableId ∈ ids scope' := hx ⟨t.tableId, c.1⟩ (List.mem_singleton_self _)
      unfold ids at hn
      rw [List.map_append] at hn
      exact absurd rfl ((List.nodup_append.1 hn).2.2 _ hin' _ hin)
  · have hok : resolveColumn K scope' name table = .ok (columnOf t.tableId c.1 c.2) := resolveColumn_eq_ok.2 ⟨t, c, h₁, rfl⟩
    refine ⟨fun b' hb => ?_, fun _ => hok⟩
    rw [hok] at hb
    cases hb
    rfl

theorem bindExpression_initial {scope' rest : List ScopeEntry} (hn : (ids (scope' ++ rest)).Nodup) {context : String} :
    ∀ {e : Expr} {b : BoundExpr}, bindExpression K (scope' ++ rest) context false false e = .ok b →
      (∀ b', bindExpression K scope' context false false e = .ok b' → b' = b) ∧
        ((∀ x ∈ b.bindings, x.tableId ∈ ids scope') → bindExpression K scope' context false false e = .ok b)
  | .literal v, b, h => by
    simp only [bindExpression] at h ⊢
    exact ⟨fun b' hb => by rw [h] at hb; cases hb; rfl, fun _ => h⟩
  | .columnRef name table, b, h => by
    simp only [bindExpression] at h ⊢
    exact resolveColumn_initial hn h
  | .star _, b, h => by
    simp only [bindExpression] at h
    exact absurd h raise_ne_ok
  | .unary p e, b, h => by
    simp only [bindExpression] at h ⊢
    obtain ⟨o, ho, h⟩ := bind_eq_ok.1 h
    obtain ⟨hsame, hok⟩ := bindExpression_initial hn ho
    refine ⟨fun b' hb => ?_, fun hx => ?_⟩
    · obtain ⟨o', ho', hb⟩ := bind_eq_ok.1 hb
      rw [hsame o' ho', h] at hb
      cases hb
      rfl
    · rw [bindings_collects.bindUnary h] at hx
      rw [hok hx]
      exact h
  | .binary l p r, b, h => by
    simp only [bindExpression] at h ⊢
    obtain ⟨l₁, hl, h⟩ := bind_eq_ok.1 h
    obtain ⟨r₁, hr, h⟩ := bind_eq_ok.1 h
    obtain ⟨hsl, hokl⟩ := bindExpression_initial hn hl
    obtain ⟨hsr, hokr⟩ := bindExpression_initial hn hr
    refine ⟨fun b' hb => ?_, fun hx => ?_⟩
    · obtain ⟨l', hl', hb⟩ := bind_eq_ok.1 hb
      obtain ⟨r', hr', hb⟩ := bind_eq_ok.1 hb
      rw [hsl l' hl', hsr r' hr', h] at hb
      cases hb
      rfl
    · rw [bindings_collects.bindBinary h, List.forall_mem_append] at hx
      rw [hokl hx.1, hokr hx.2]
      exact h
  | .isNull e g, b, h => by
    simp only [bindExpression] at h ⊢
    obtain ⟨o, ho, h⟩ := bind_eq_ok.1 h
    cases h
    obtain ⟨hsame, hok⟩ := bindExpression_initial hn ho
    refine ⟨fun b' hb => ?_, fun hx => ?_⟩
    · obtain ⟨o', ho', hb⟩ := bind_eq_ok.1 hb
      cases hb
      rw [hsame o' ho']
    · rw [hok hx]
      rfl
  | .function name arguments, b, h => by
    exfalso
    have hf : ∀ f, checkFunction K context false false name ≠ .ok f := fun f hf => by cases (checkFunction_ok hf).1
    rcases arguments with _ | ⟨_, _ | ⟨_, _⟩⟩ <;> simp only [bindExpression] at h <;> obtain ⟨f, hc, -⟩ := bind_eq_ok.1 h <;>
      exact hf f hc

/-- A predicate that the first tables of a scope bind is bound by the whole scope in the same way. -/
theorem bindPredicate_same {scope' rest : List ScopeEntry} (hn : (ids (scope' ++ rest)).Nodup) {context : String} {e : Expr}
    {b b' : BoundExpr} (h : bindPredicate K (scope' ++ rest) context e = .ok b) (h' : bindPredicate K scope' context e = .ok b') :
    b' = b := by
  obtain ⟨bound, hb, h⟩ := bind_eq_ok.1 h
  obtain ⟨bound', hb', h'⟩ := bind_eq_ok.1 h'
  rw [(bindExpression_initial hn hb).1 bound' hb', h] at h'
  cases h'
  rfl

/-- A predicate that the whole scope binds is bound by its first tables exactly when it reads these only. -/
theorem bindPredicate_initial {scope' rest : List ScopeEntry} (hn : (ids (scope' ++ rest)).Nodup) {context : String} {e : Expr}
    {b : BoundExpr} (h : bindPredicate K (scope' ++ rest) context e = .ok b) :
    (∃ b', bindPredicate K scope' context e = .ok b') ↔ ∀ x ∈ b.bindings, x.tableId ∈ ids scope' := by
  have hsame : ∀ {scope : List ScopeEntry} {b : BoundExpr}, bindPredicate K scope context e = .ok b →
      ∃ bound, bindExpression K scope context false false e = .ok bound ∧ b.bindings = bound.bindings := by
    intro scope b h
    obtain ⟨bound, hb, h⟩ := bind_eq_ok.1 h
    refine ⟨bound, hb, ?_⟩
    split at h
    · cases h; rfl
    · split at h
      · cases h; rfl
      · exact absurd h raise_ne_ok
  obtain ⟨bound, hb, hbind⟩ := hsame h
  obtain ⟨hdet, hok⟩ := bindExpression_initial hn hb
  rw [hbind]
  constructor
  · rintro ⟨b', hb'⟩ x hx
    obtain ⟨bound', hb'', -⟩ := hsame hb'
    rw [← hdet bound' hb''] at hx
    obtain ⟨entry, hent, hid⟩ := wellTyped_bindings (bindExpression_wellTyped hb'') x hx
    exact List.mem_map.2 ⟨entry, hent, hid.1⟩
  · intro hx
    refine ⟨b, ?_⟩
    unfold bindPredicate at h ⊢
    rw [hb] at h
    rw [hok hx]
    exact h

end Binder

/-! ## Literals -/

/-- The literals of an expression. -/
def literalsOf : BoundExpr → List Scalar
  | .literal v _ _     => [v]
  | .cast o _ _        => literalsOf o
  | .unary _ o _ _     => literalsOf o
  | .binary l _ r _ _  => literalsOf l ++ literalsOf r
  | .isNull o _        => literalsOf o
  | .function _ a _ _  => literalsOf a
  | _                  => []

theorem literalsOf_collects : Binder.Collects literalsOf :=
  ⟨fun _ _ _ _ _ => rfl, fun _ _ _ => rfl, fun _ _ _ _ => rfl, fun _ _ _ _ _ => rfl⟩

theorem nanFree_iff : ∀ {e : BoundExpr}, e.nanFree = true ↔ ∀ v ∈ literalsOf e, v.isNanValue = false := by
  intro e
  induction e with
  | literal v _ _ => simp [BoundExpr.nanFree, literalsOf]
  | column _ _ _ _ => simp [BoundExpr.nanFree, literalsOf]
  | cast o _ _ ih => exact ih
  | unary _ o _ _ ih => exact ih
  | binary l _ r _ _ ihl ihr => rw [BoundExpr.nanFree, Bool.and_eq_true, ihl, ihr, literalsOf, List.forall_mem_append]
  | isNull o _ ih => exact ih
  | function _ a _ _ ih => exact ih
  | countStar => simp [BoundExpr.nanFree, literalsOf]

/-- An expression as the parser makes it: the lexer refuses a float that is not finite. -/
inductive Expr.NanFree : Expr → Prop
  | literal {v : Scalar} : v.isNanValue = false → NanFree (.literal v)
  | columnRef {name : Name} {table : Option Name} : NanFree (.columnRef name table)
  | star {table : Option Name} : NanFree (.star table)
  | unary {p : UnaryOperator} {e : Expr} : NanFree e → NanFree (.unary p e)
  | binary {l r : Expr} {p : BinaryOperator} : NanFree l → NanFree r → NanFree (.binary l p r)
  | isNull {e : Expr} {g : Bool} : NanFree e → NanFree (.isNull e g)
  | function {name : Name} {arguments : List Expr} : (∀ a ∈ arguments, NanFree a) → NanFree (.function name arguments)

structure SelectStmt.NanFree (s : SelectStmt) : Prop where
  items   : ∀ i ∈ s.items, i.expression.NanFree
  groupBy : ∀ e ∈ s.groupBy, e.NanFree
  orderBy : ∀ i ∈ s.orderBy, i.expression.NanFree

namespace Binder

variable {K : Casing} {scope : List ScopeEntry}

theorem bindExpression_nanFree {context : String} : ∀ {e : Expr} {allow inside : Bool} {b : BoundExpr}, e.NanFree →
    bindExpression K scope context allow inside e = .ok b → b.nanFree = true
  | .literal v, _, _, b, hn, h => by
    cases hn with | literal hn =>
    simp only [bindExpression, bindLiteral] at h
    rw [nanFree_iff]
    split at h
    · obtain ⟨m, -, h⟩ := bind_eq_ok.1 h
      cases h
      intro v hv
      rw [List.mem_singleton.1 hv]
      rfl
    · cases h
      intro w hw
      rw [List.mem_singleton.1 hw]
      exact hn
  | .columnRef name table, _, _, _, _, h => by
    simp only [bindExpression] at h
    obtain ⟨t, c, -, rfl⟩ := resolveColumn_eq_ok.1 h
    rfl
  | .star _, _, _, _, _, h => by
    simp only [bindExpression] at h
    exact absurd h raise_ne_ok
  | .unary p e, _, _, _, hn, h => by
    cases hn with | unary hn =>
    simp only [bindExpression] at h
    obtain ⟨o, ho, h⟩ := bind_eq_ok.1 h
    rw [nanFree_iff, literalsOf_collects.bindUnary h, ← nanFree_iff]
    exact bindExpression_nanFree hn ho
  | .binary l p r, _, _, _, hn, h => by
    cases hn with | binary hnl hnr =>
    simp only [bindExpression] at h
    obtain ⟨l', hl, h⟩ := bind_eq_ok.1 h
    obtain ⟨r', hr, h⟩ := bind_eq_ok.1 h
    rw [nanFree_iff, literalsOf_collects.bindBinary h, List.forall_mem_append, ← nanFree_iff, ← nanFree_iff]
    exact ⟨bindExpression_nanFree hnl hl, bindExpression_nanFree hnr hr⟩
  | .isNull e g, _, _, _, hn, h => by
    cases hn with | isNull hn =>
    simp only [bindExpression] at h
    obtain ⟨o, ho, h⟩ := bind_eq_ok.1 h
    cases h
    exact show o.nanFree = true from bindExpression_nanFree hn ho
  | .function name [a], _, _, _, hn, h => by
    cases hn with | function hn =>
    simp only [bindExpression] at h
    obtain ⟨f, -, h⟩ := bind_eq_ok.1 h
    split at h
    · split at h
      · cases h; rfl
      · exact absurd h raise_ne_ok
    · obtain ⟨argument, ha, h⟩ := bind_eq_ok.1 h
      obtain ⟨d, n, rfl⟩ := functionsOf_bindAggregate h
      exact show argument.nanFree = true from bindExpression_nanFree (hn a (List.mem_singleton_self _)) ha
  | .function name [], _, _, _, _, h => by
    simp only [bindExpression] at h
    obtain ⟨f, -, h⟩ := bind_eq_ok.1 h
    exact absurd h raise_ne_ok
  | .function name (_ :: _ :: _), _, _, _, _, h => by
    simp only [bindExpression] at h
    obtain ⟨f, -, h⟩ := bind_eq_ok.1 h
    exact absurd h raise_ne_ok

end Binder

/-! ## What an expression over a node reads -/

section Readable

variable {columns columns' : List ColumnBinding} {keys keys' : List BoundExpr}

theorem isKey_mono (h : ∀ k ∈ keys, k ∈ keys') {e : BoundExpr} (he : isKey keys e = true) : isKey keys' e = true := by
  simp only [isKey, Bool.and_eq_true, List.any_eq_true] at he ⊢
  obtain ⟨hn, k, hk, hc⟩ := he
  exact ⟨hn, k, h k hk, hc⟩

theorem readable_mono (hc : ∀ b ∈ columns, b ∈ columns') (hk : ∀ k ∈ keys, k ∈ keys') : ∀ {e : BoundExpr},
    readable columns keys e = true → readable columns' keys' e = true := by
  intro e
  induction e with
  | literal _ _ _ => exact id
  | column b _ _ _ =>
    intro h
    refine Bool.or_eq_true_iff.2 ((Bool.or_eq_true_iff.1 h).imp (isKey_mono hk) (fun h => ?_))
    exact List.contains_iff_mem.2 (hc b (List.contains_iff_mem.1 h))
  | cast _ _ _ ih => exact fun h => Bool.or_eq_true_iff.2 ((Bool.or_eq_true_iff.1 h).imp (isKey_mono hk) ih)
  | unary _ _ _ _ ih => exact fun h => Bool.or_eq_true_iff.2 ((Bool.or_eq_true_iff.1 h).imp (isKey_mono hk) ih)
  | binary _ _ _ _ _ ihl ihr =>
    refine fun h => Bool.or_eq_true_iff.2 ((Bool.or_eq_true_iff.1 h).imp (isKey_mono hk) (fun h => ?_))
    rw [Bool.and_eq_true] at h ⊢
    exact ⟨ihl h.1, ihr h.2⟩
  | isNull _ _ ih => exact fun h => Bool.or_eq_true_iff.2 ((Bool.or_eq_true_iff.1 h).imp (isKey_mono hk) ih)
  | function _ _ _ _ _ => exact isKey_mono hk
  | countStar => exact isKey_mono hk

theorem isKey_nil (e : BoundExpr) : isKey [] e = false := by simp [isKey]

theorem readable_plain : ∀ {e : BoundExpr}, containsAggregate e = false →
    (readable columns [] e = true ↔ ∀ b ∈ e.bindings, b ∈ columns) := by
  intro e
  induction e with
  | literal _ _ _ => exact fun _ => ⟨fun _ b hb => (by cases hb), fun _ => rfl⟩
  | column b _ _ _ => intro _; simp [readable, isKey_nil, BoundExpr.bindings]
  | cast _ _ _ ih => intro h; rw [readable, isKey_nil, Bool.false_or]; exact ih h
  | unary _ _ _ _ ih => intro h; rw [readable, isKey_nil, Bool.false_or]; exact ih h
  | binary _ _ _ _ _ ihl ihr =>
    intro h
    rw [containsAggregate, Bool.or_eq_false_iff] at h
    rw [readable, isKey_nil, Bool.false_or, Bool.and_eq_true, ihl h.1, ihr h.2, BoundExpr.bindings, List.forall_mem_append]
  | isNull _ _ ih => intro h; rw [readable, isKey_nil, Bool.false_or]; exact ih h
  | function _ _ _ _ _ => exact fun h => by cases h
  | countStar => exact fun h => by cases h

/-- **A grouped expression reads the group's row**: GROUP BY expressions and aggregates. -/
theorem readable_grouped {groupBy : List BoundExpr} (hk : ∀ k ∈ groupBy, k ∈ keys) : ∀ {e : BoundExpr},
    Binder.ungroupedColumns groupBy e = [] → (∀ f ∈ Planner.functionsOf e, isKey keys f = true) → readable [] keys e = true := by
  have hgrouped : ∀ {e : BoundExpr}, Binder.isGrouped groupBy e = true → isKey keys e = true := fun h => isKey_mono hk h
  intro e
  induction e with
  | literal _ _ _ => exact fun _ _ => rfl
  | column b m d n =>
    intro h _
    simp only [Binder.ungroupedColumns] at h
    split at h
    · rename_i hg; exact Bool.or_eq_true_iff.2 (Or.inl (hgrouped hg))
    · cases h
  | cast _ _ _ ih =>
    intro h hf
    simp only [Binder.ungroupedColumns] at h
    split at h
    · rename_i hg; exact Bool.or_eq_true_iff.2 (Or.inl (hgrouped hg))
    · exact Bool.or_eq_true_iff.2 (Or.inr (ih h hf))
  | unary _ _ _ _ ih =>
    intro h hf
    simp only [Binder.ungroupedColumns] at h
    split at h
    · rename_i hg; exact Bool.or_eq_true_iff.2 (Or.inl (hgrouped hg))
    · exact Bool.or_eq_true_iff.2 (Or.inr (ih h hf))
  | binary _ _ _ _ _ ihl ihr =>
    intro h hf
    simp only [Binder.ungroupedColumns] at h
    split at h
    · rename_i hg; exact Bool.or_eq_true_iff.2 (Or.inl (hgrouped hg))
    · rw [List.append_eq_nil_iff] at h
      rw [Planner.functionsOf, List.forall_mem_append] at hf
      exact Bool.or_eq_true_iff.2 (Or.inr (Bool.and_eq_true_iff.2 ⟨ihl h.1 hf.1, ihr h.2 hf.2⟩))
  | isNull _ _ ih =>
    intro h hf
    simp only [Binder.ungroupedColumns] at h
    split at h
    · rename_i hg; exact Bool.or_eq_true_iff.2 (Or.inl (hgrouped hg))
    · exact Bool.or_eq_true_iff.2 (Or.inr (ih h hf))
  | function _ _ _ _ _ => exact fun _ hf => hf _ (List.mem_singleton_self _)
  | countStar => exact fun _ hf => hf _ (List.mem_singleton_self _)

end Readable

/-! ## Aggregates of a statement -/

namespace Planner

theorem mem_functionsOf {e f : BoundExpr} (hn : e.nanFree = true) (hf : f ∈ functionsOf e) : f.nanFree = true := by
  induction e with
  | literal _ _ _ => cases hf
  | column _ _ _ _ => cases hf
  | cast _ _ _ ih => exact ih hn hf
  | unary _ _ _ _ ih => exact ih hn hf
  | binary _ _ _ _ _ ihl ihr =>
    rw [BoundExpr.nanFree, Bool.and_eq_true] at hn
    exact (List.mem_append.1 hf).elim (ihl hn.1) (ihr hn.2)
  | isNull _ _ ih => exact ih hn hf
  | function _ _ _ _ _ => rw [List.mem_singleton.1 hf]; exact hn
  | countStar => rw [List.mem_singleton.1 hf]; rfl

theorem foldl_appendNew : ∀ (es found : List BoundExpr),
    (∀ f ∈ es.foldl appendNew found, f ∈ found ∨ f ∈ es) ∧ (∀ f ∈ found, f ∈ es.foldl appendNew found) ∧
      ∀ e ∈ es, ∃ f ∈ es.foldl appendNew found, f.canon = e.canon
  | [], found => ⟨fun f hf => Or.inl hf, fun f hf => hf, fun e he => by cases he⟩
  | e :: es, found => by
    obtain ⟨hsub, hkeep, hall⟩ := foldl_appendNew es (appendNew found e)
    have hnew : (∀ f ∈ appendNew found e, f ∈ found ∨ f = e) ∧ (∀ f ∈ found, f ∈ appendNew found e) ∧
        ∃ f ∈ appendNew found e, f.canon = e.canon := by
      unfold appendNew
      split
      · rename_i hany
        rw [List.any_eq_true] at hany
        obtain ⟨f, hf, hc⟩ := hany
        exact ⟨fun f hf => Or.inl hf, fun f hf => hf, f, hf, of_decide_eq_true hc⟩
      · refine ⟨fun f hf => ?_, fun f hf => List.mem_append_left _ hf, e,
          List.mem_append_right _ (List.mem_singleton_self _), rfl⟩
        exact (List.mem_append.1 hf).imp_right List.mem_singleton.1
    refine ⟨fun f hf => ?_, fun f hf => hkeep f (hnew.2.1 f hf), fun x hx => ?_⟩
    · rcases hsub f hf with hf | hf
      · exact (hnew.1 f hf).imp_right (fun h => by rw [h]; exact List.mem_cons_self)
      · exact Or.inr (List.mem_cons_of_mem _ hf)
    · rcases List.mem_cons.1 hx with rfl | hx
      · obtain ⟨f, hf, hc⟩ := hnew.2.2
        exact ⟨f, hkeep f hf, hc⟩
      · exact hall x hx

theorem mem_collectAggregates {es : List BoundExpr} {f : BoundExpr} (h : f ∈ collectAggregates es) :
    ∃ e ∈ es, f ∈ functionsOf e := by
  rcases (foldl_appendNew (es.flatMap functionsOf) []).1 f h with h | h
  · cases h
  · exact List.mem_flatMap.1 h

theorem isKey_collectAggregates {es : List BoundExpr} {e f : BoundExpr} (he : e ∈ es) (hf : f ∈ functionsOf e)
    (hn : f.nanFree = true) : isKey (collectAggregates es) f = true := by
  obtain ⟨g, hg, hc⟩ := (foldl_appendNew (es.flatMap functionsOf) []).2.2 f (List.mem_flatMap.2 ⟨e, he, hf⟩)
  simp only [isKey, Bool.and_eq_true, List.any_eq_true]
  exact ⟨hn, g, hg, decide_eq_true hc⟩

theorem collectAggregates_isEmpty {es : List BoundExpr} :
    (collectAggregates es).isEmpty = !(es.any containsAggregate) := by
  rw [Bool.eq_iff_iff, List.isEmpty_iff, Bool.not_eq_true', List.any_eq_false]
  constructor
  · intro h e he
    rw [Bool.not_eq_true]
    refine noAggregate_of_functionsOf (List.eq_nil_iff_forall_not_mem.2 (fun f hf => ?_))
    obtain ⟨g, hg, -⟩ := (foldl_appendNew (es.flatMap functionsOf) []).2.2 f (List.mem_flatMap.2 ⟨e, he, hf⟩)
    unfold collectAggregates at h
    rw [h] at hg
    cases hg
  · intro h
    refine List.eq_nil_iff_forall_not_mem.2 (fun f hf => ?_)
    obtain ⟨e, he, hfe⟩ := mem_collectAggregates hf
    rw [functionsOf_of_noAggregate (by simpa using h e he)] at hfe
    cases hfe

end Planner

/-! ## Joins -/

def columnsOf (tables : List BoundTable) : List ColumnBinding := tables.flatMap (fun t => (LogicalPlan.scan t none).columns)

theorem columnsOf_append (ts us : List BoundTable) : columnsOf (ts ++ us) = columnsOf ts ++ columnsOf us := List.flatMap_append

/-- Every ON condition reads only tables that are joined when it is evaluated. -/
def InOrder : List BoundTable → List BoundJoin → Prop
  | _, []       => True
  | ts, j :: js => (∀ b ∈ j.condition.bindings, b.tableId ∈ (ts ++ [j.table]).map (·.tableId)) ∧ InOrder (ts ++ [j.table]) js

section Joins

variable {scope : List ScopeEntry}

theorem mem_columnsOf (hn : (Binder.ids scope).Nodup) {tables : List BoundTable} (hsub : ∀ t ∈ tables, t ∈ scope.map (·.table))
    {e : BoundExpr} (he : WellTyped scope e) {b : ColumnBinding} (hb : b ∈ e.bindings) :
    b ∈ columnsOf tables ↔ b.tableId ∈ tables.map (·.tableId) := by
  obtain ⟨entry, hent, hid, hcol⟩ := wellTyped_bindings he b hb
  constructor
  · intro h
    obtain ⟨t, ht, h⟩ := List.mem_flatMap.1 h
    obtain ⟨i, -, rfl⟩ := List.mem_map.1 h
    exact List.mem_map_of_mem ht
  · intro h
    obtain ⟨t, ht, hti⟩ := List.mem_map.1 h
    have hsame : t = entry.table := by
      obtain ⟨entry', hent', rfl⟩ := List.mem_map.1 (hsub t ht)
      rw [List.inj_on_of_nodup_map hn hent' hent (hti.trans hid.symm)]
    refine List.mem_flatMap.2 ⟨t, ht, List.mem_map.2 ⟨b.columnId, List.mem_range.2 (by rw [hsame]; exact hcol), ?_⟩⟩
    rw [hti]

namespace Planner

theorem joinTables_gives : ∀ (joins : List BoundJoin) (plan : LogicalPlan),
    (joinTables plan joins).columns = plan.columns ++ columnsOf (joins.map (·.table)) ∧ (joinTables plan joins).keys = plan.keys
  | [], plan => ⟨(List.append_nil _).symm, rfl⟩
  | j :: js, plan => by
    obtain ⟨hc, hk⟩ := joinTables_gives js (.join plan (.scan j.table none) j.condition)
    refine ⟨hc.trans ?_, hk.trans (List.append_nil _)⟩
    rw [LogicalPlan.columns, List.append_assoc]
    rfl

theorem wellScoped_of_joinTables : ∀ (joins : List BoundJoin) {plan : LogicalPlan}, (joinTables plan joins).WellScoped →
    plan.WellScoped
  | [], _, h => h
  | _ :: js, _, h => (wellScoped_of_joinTables js h).1

/-- **Joins in the order of the statement are well scoped exactly when their conditions are in order.** -/
theorem wellScoped_joinTables (hn : (Binder.ids scope).Nodup) : ∀ {joins : List BoundJoin} {plan : LogicalPlan}
    {tables : List BoundTable}, plan.WellScoped → plan.columns = columnsOf tables → plan.keys = [] →
    (∀ t ∈ tables ++ joins.map (·.table), t ∈ scope.map (·.table)) →
    (∀ j ∈ joins, WellTyped scope j.condition ∧ containsAggregate j.condition = false) →
    ((joinTables plan joins).WellScoped ↔ InOrder tables joins)
  | [], _, _, hw, _, _, _, _ => ⟨fun _ => trivial, fun _ => hw⟩
  | j :: js, plan, tables, hw, hc, hk, hsub, hj => by
    obtain ⟨htyped, hplain⟩ := hj j List.mem_cons_self
    have hcolumns : plan.columns ++ (LogicalPlan.scan j.table none).columns = columnsOf (tables ++ [j.table]) := by
      rw [hc, columnsOf_append]
      simp [columnsOf]
    have hsub' : ∀ t ∈ tables ++ [j.table], t ∈ scope.map (·.table) := fun t ht => hsub t (by
      rcases List.mem_append.1 ht with ht | ht
      · exact List.mem_append_left _ ht
      · exact List.mem_append_right _ (by rw [List.mem_singleton.1 ht]; exact List.mem_cons_self))
    have hnode : (LogicalPlan.join plan (.scan j.table none) j.condition).WellScoped ↔
        ∀ b ∈ j.condition.bindings, b.tableId ∈ (tables ++ [j.table]).map (·.tableId) := by
      have hread : readable (plan.columns ++ (LogicalPlan.scan j.table none).columns) (plan.keys ++ []) j.condition = true ↔
          ∀ b ∈ j.condition.bindings, b.tableId ∈ (tables ++ [j.table]).map (·.tableId) := by
        rw [hk, List.append_nil, hcolumns, readable_plain hplain]
        exact forall₂_congr (fun b hb => mem_columnsOf hn hsub' htyped hb)
      exact ⟨fun h => hread.1 h.2.2, fun h => ⟨hw, trivial, hread.2 h⟩⟩
    have hrest : ∀ hnode : (LogicalPlan.join plan (.scan j.table none) j.condition).WellScoped,
        ((joinTables (.join plan (.scan j.table none) j.condition) js).WellScoped ↔ InOrder (tables ++ [j.table]) js) := by
      intro hnode
      refine wellScoped_joinTables hn hnode hcolumns (by rw [LogicalPlan.keys, hk]; rfl) (fun t ht => hsub t ?_)
        (fun i hi => hj i (List.mem_cons_of_mem _ hi))
      simpa using ht
    constructor
    · intro h
      have h' : (LogicalPlan.join plan (.scan j.table none) j.condition).WellScoped := wellScoped_of_joinTables js h
      exact ⟨hnode.1 h', (hrest h').1 h⟩
    · intro h
      exact (hrest (hnode.2 h.1)).2 h.2

end Planner

namespace Binder

variable {K : Casing} {catalog : Catalog}

theorem bindTables_initial : ∀ {refs : List TableRef} {scope scope' : List ScopeEntry} {tables : List BoundTable},
    bindTables K catalog scope refs = .ok (tables, scope') → scope <+: scope'
  | [], _, _, _, h => by
    cases h
    exact List.prefix_rfl
  | ref :: refs, scope, scope', _, h => by
    simp only [bindTables] at h
    obtain ⟨⟨table, scope₁⟩, h₁, h⟩ := bind_eq_ok.1 h
    obtain ⟨⟨tables, scope₂⟩, h₂, h⟩ := bind_eq_ok.1 h
    cases h
    obtain ⟨metadata, -, h₁⟩ := bind_eq_ok.1 h₁
    obtain ⟨⟨⟩, -, h₁⟩ := bind_eq_ok.1 h₁
    cases h₁
    exact (List.prefix_append _ _).trans (bindTables_initial h₂)

/-- The right key of a hash join is a column of the table that is joined. -/
def keysInOrder (table : BoundTable) (condition : BoundExpr) : Bool :=
  match Planner.hashJoinKeys condition with
  | none               => true
  | some (_, rightKey) => rightKey.bindings.all (fun b => decide (b.tableId = table.tableId))

/-- Each ON condition also binds when only the tables up to its own are in scope, and has its keys in order. -/
def bindsInOrder (K : Casing) (catalog : Catalog) : List ScopeEntry → List JoinClause → Bool
  | _, []                  => true
  | scope, clause :: joins =>
    match bindTableRef K catalog scope clause.table with
    | .error _           => false
    | .ok (table, scope) =>
      match bindPredicate K scope "JOIN" clause.condition with
      | .error _      => false
      | .ok condition => keysInOrder table condition && bindsInOrder K catalog scope joins

def conditionsInOrder (K : Casing) (catalog : Catalog) (s : SelectStmt) : Bool :=
  match bindTables K catalog [] s.fromTable.toList with
  | .error _       => false
  | .ok (_, scope) => bindsInOrder K catalog scope s.joins

/-- **The conditions of a bound statement are in order exactly when they bind in order.** -/
theorem bindsInOrder_iff : ∀ {joins : List JoinClause} {scope₀ scope : List ScopeEntry} {tables : List BoundTable}
    {bound : List BoundJoin}, bindTables K catalog scope₀ (joins.map (·.table)) = .ok (tables, scope) → (ids scope).Nodup →
    mapRows (bindJoin K scope) (joins.zip tables) = .ok bound →
    (bindsInOrder K catalog scope₀ joins = true ↔
      InOrder (scope₀.map (·.table)) bound ∧ ∀ j ∈ bound, keysInOrder j.table j.condition = true)
  | [], _, _, _, _, _, _, hb => by
    cases hb
    exact ⟨fun _ => ⟨trivial, fun j hj => by cases hj⟩, fun _ => rfl⟩
  | clause :: joins, scope₀, scope, _, _, h, hn, hb => by
    simp only [List.map_cons, bindTables] at h
    obtain ⟨⟨table, scope₁⟩, h₁, h⟩ := bind_eq_ok.1 h
    obtain ⟨⟨tables, scope₂⟩, h₂, h⟩ := bind_eq_ok.1 h
    cases h
    simp only [List.zip_cons_cons] at hb
    obtain ⟨j, hj, hb⟩ := bind_eq_ok.1 hb
    obtain ⟨js, hjs, hb⟩ := bind_eq_ok.1 hb
    cases hb
    obtain ⟨condition, hcond, hj⟩ := bind_eq_ok.1 hj
    cases hj
    obtain ⟨rest, rfl⟩ := bindTables_initial h₂
    have hmap : scope₁.map (·.table) = scope₀.map (·.table) ++ [table] := by
      obtain ⟨metadata, -, h₁⟩ := bind_eq_ok.1 h₁
      obtain ⟨⟨⟩, -, h₁⟩ := bind_eq_ok.1 h₁
      cases h₁
      exact List.map_append
    have hids : ids scope₁ = (scope₀.map (·.table) ++ [table]).map (·.tableId) := by
      rw [← hmap, List.map_map]
      rfl
    have hread : (∃ b', bindPredicate K scope₁ "JOIN" clause.condition = .ok b') ↔
        ∀ x ∈ condition.bindings, x.tableId ∈ (scope₀.map (·.table) ++ [table]).map (·.tableId) := by
      rw [← hids]
      exact bindPredicate_initial hn hcond
    rw [bindsInOrder, h₁, InOrder, ← hread, ← hmap, List.forall_mem_cons]
    cases hfirst : bindPredicate K scope₁ "JOIN" clause.condition with
    | error e => simp [hfirst]
    | ok condition' =>
      obtain rfl := bindPredicate_same hn hcond hfirst
      simp only [hfirst, Bool.and_eq_true, bindsInOrder_iff h₂ hn hjs, Except.ok.injEq, exists_eq', true_and]
      tauto

end Binder
end Joins

/-! ## SELECT -/

/-- What the binder has checked of a statement. -/
structure Checked (K : Casing) (catalog : Catalog) (s : SelectStmt) (b : BoundSelect) (scope : List ScopeEntry) : Prop where
  unique  : (Binder.ids scope).Nodup
  tables  : scope.map (·.table) = b.fromTable.toList ++ b.joins.map (·.table)
  joins   : ∀ j ∈ b.joins, WellTyped scope j.condition ∧ containsAggregate j.condition = false
  where_  : ∀ p ∈ b.where_, WellTyped scope p ∧ containsAggregate p = false
  groupBy : ∀ e ∈ b.groupBy, WellTyped scope e ∧ containsAggregate e = false
  items   : ∀ i ∈ b.items, Binder.Accepted scope i.expression
  orderBy : ∀ i ∈ b.orderBy, Binder.Accepted scope i.expression
  grouped : (b.items.any (fun i => containsAggregate i.expression) || b.orderBy.any (fun i => containsAggregate i.expression) ||
      !b.groupBy.isEmpty) = true →
    (∀ i ∈ b.items, Binder.ungroupedColumns b.groupBy i.expression = []) ∧
      ∀ i ∈ b.orderBy, Binder.ungroupedColumns b.groupBy i.expression = []
  inOrder : Binder.conditionsInOrder K catalog s = true ↔
    InOrder b.fromTable.toList b.joins ∧ ∀ j ∈ b.joins, Binder.keysInOrder j.table j.condition = true

section Select

open Binder

variable {K : Casing} {catalog : Catalog}

theorem bindItem_nanFree {scope : List ScopeEntry} {item : SelectItem} (hn : item.expression.NanFree)
    {items : List BoundSelectItem} (h : bindItem K scope item = .ok items) : ∀ i ∈ items, i.expression.nanFree = true := by
  unfold bindItem at h
  split at h
  · obtain ⟨entries, -, h⟩ := bind_eq_ok.1 h
    split at h
    · exact absurd h raise_ne_ok
    · cases h
      intro i hi
      obtain ⟨entry, -, hi⟩ := List.mem_flatMap.1 hi
      obtain ⟨c, -, rfl⟩ := List.mem_map.1 hi
      rfl
  · obtain ⟨bound, hb, h⟩ := bind_eq_ok.1 h
    cases h
    intro i hi
    rw [List.mem_singleton.1 hi]
    exact bindExpression_nanFree hn hb

theorem bindOrderItem_nanFree {scope : List ScopeEntry} {items : List BoundSelectItem}
    (hi : ∀ i ∈ items, i.expression.nanFree = true) {item : OrderItem} (hn : item.expression.NanFree) {b : BoundOrderItem}
    (h : bindOrderItem K scope items item = .ok b) : b.expression.nanFree = true := by
  unfold bindOrderItem at h
  split at h
  · rename_i i hnamed
    cases h
    unfold namedItem at hnamed
    split at hnamed
    · exact hi i (List.mem_of_find?_eq_some hnamed)
    · cases hnamed
  · obtain ⟨bound, hb, h⟩ := bind_eq_ok.1 h
    cases h
    exact bindExpression_nanFree hn hb

/-- The literals of a bound statement are no NaNs. -/
structure BoundSelect.NanFree (b : BoundSelect) : Prop where
  items   : ∀ i ∈ b.items, i.expression.nanFree = true
  groupBy : ∀ e ∈ b.groupBy, e.nanFree = true
  orderBy : ∀ i ∈ b.orderBy, i.expression.nanFree = true

theorem requireGrouped_ok {groupBy : List BoundExpr} {e : BoundExpr} (h : requireGrouped groupBy e = .ok ()) :
    ungroupedColumns groupBy e = [] := by
  unfold requireGrouped at h
  split at h
  · assumption
  · exact absurd h raise_ne_ok

theorem forall_of_mapRows {α β : Type} {f : α → Result β} {xs : List α} {ys : List β} (h : mapRows f xs = .ok ys) :
    ∀ x ∈ xs, ∃ y, f x = .ok y := by
  intro x hx
  obtain ⟨i, hi, rfl⟩ := List.getElem_of_mem hx
  have hall := List.forall₂_iff_get.1 (mapRows_forall₂ h)
  exact ⟨_, hall.2 i hi (by rw [← hall.1]; exact hi)⟩

/-- **What `_bind_select` checks.** -/
theorem bindSelect_ok {s : SelectStmt} {b : BoundSelect} (h : bindSelect K catalog s = .ok b) :
    (∃ scope, Checked K catalog s b scope) ∧ (s.NanFree → b.NanFree) := by
  unfold bindSelect at h
  obtain ⟨⟨first, scope₀⟩, hfirst, h⟩ := bind_eq_ok.1 h
  obtain ⟨⟨tables, scope⟩, htables, h⟩ := bind_eq_ok.1 h
  obtain ⟨joins, hjoins, h⟩ := bind_eq_ok.1 h
  obtain ⟨where_, hwhere, h⟩ := bind_eq_ok.1 h
  obtain ⟨groupBy, hgroup, h⟩ := bind_eq_ok.1 h
  obtain ⟨itemLists, hitems, h⟩ := bind_eq_ok.1 h
  obtain ⟨orderBy, horder, h⟩ := bind_eq_ok.1 h
  have hb : b = ⟨itemLists.flatten, first.head?, joins, where_, groupBy, orderBy, s.limit⟩ := by
    simp only at h
    split at h
    · obtain ⟨_, -, h⟩ := bind_eq_ok.1 h
      obtain ⟨_, -, h⟩ := bind_eq_ok.1 h
      cases h
      rfl
    · cases h
      rfl
  obtain ⟨hmap₀, hn₀, hlen₀⟩ := bindTables_ok hfirst List.nodup_nil
  obtain ⟨hmap, hn, hlen⟩ := bindTables_ok htables hn₀
  have hhead : first.head?.toList = first := by
    have hle : first.length ≤ 1 := by
      rw [hlen₀]
      cases s.fromTable <;> simp
    match first, hle with
    | [], _ => rfl
    | [t], _ => rfl
  have hjoinTables : joins.map (·.table) = tables := by
    have hall := mapRows_forall₂ hjoins
    have hsnd : joins.map (·.table) = (s.joins.zip tables).map (·.2) := by
      refine (List.forall₂_eq_eq_eq ▸ List.forall₂_map_left_iff.2 (List.forall₂_map_right_iff.2 (hall.flip.imp ?_)) :)
      intro j clause hj
      obtain ⟨c, -, hj⟩ := bind_eq_ok.1 hj
      cases hj
      rfl
    rw [hsnd, List.map_snd_zip (by rw [hlen, List.length_map])]
  have hitem : ∀ i ∈ itemLists.flatten, Accepted scope i.expression := by
    intro i hi
    obtain ⟨l, hl, hi⟩ := List.mem_flatten.1 hi
    obtain ⟨item, -, hbind⟩ := mem_mapRows hitems l hl
    exact bindItem_accepted hbind i hi
  subst hb
  refine ⟨⟨scope, ?_⟩, fun hnan => ?_⟩
  · refine ⟨hn, ?_, ?_, ?_, ?_, hitem, ?_, ?_, ?_⟩
    · simp only [hhead, hjoinTables]
      rw [hmap, hmap₀]
      rfl
    · intro j hj
      obtain ⟨clause, -, hbind⟩ := mem_mapRows hjoins j hj
      obtain ⟨condition, hcond, hbind⟩ := bind_eq_ok.1 hbind
      cases hbind
      exact bindPredicate_ok hcond
    · intro p hp
      cases hw : s.where_ with
      | none => rw [hw] at hwhere; cases hwhere; cases hp
      | some e =>
        rw [hw] at hwhere
        obtain ⟨bound, hbind, hwhere⟩ := bind_eq_ok.1 hwhere
        cases hwhere
        cases hp
        exact bindPredicate_ok hbind
    · intro e he
      obtain ⟨x, -, hbind⟩ := mem_mapRows hgroup e he
      exact ⟨bindExpression_wellTyped hbind, noAggregate_of_functionsOf (bindExpression_noAggregate (Or.inl rfl) hbind)⟩
    · intro i hi
      obtain ⟨x, -, hbind⟩ := mem_mapRows horder i hi
      exact bindOrderItem_accepted hitem hbind
    · intro hagg
      simp only at h hagg
      rw [if_pos hagg] at h
      obtain ⟨us, hus, h⟩ := bind_eq_ok.1 h
      obtain ⟨vs, hvs, h⟩ := bind_eq_ok.1 h
      refine ⟨fun i hi => ?_, fun i hi => ?_⟩
      · obtain ⟨⟨⟩, hu⟩ := forall_of_mapRows hus i hi
        exact requireGrouped_ok hu
      · obtain ⟨⟨⟩, hv⟩ := forall_of_mapRows hvs i hi
        exact requireGrouped_ok hv
    · simp only [hhead]
      unfold conditionsInOrder
      rw [hfirst]
      have := bindsInOrder_iff htables hn hjoins
      rwa [hmap₀] at this
  · have hitemNan : ∀ i ∈ itemLists.flatten, i.expression.nanFree = true := by
      intro i hi
      obtain ⟨l, hl, hi⟩ := List.mem_flatten.1 hi
      obtain ⟨item, hmem, hbind⟩ := mem_mapRows hitems l hl
      exact bindItem_nanFree (hnan.items item hmem) hbind i hi
    refine ⟨hitemNan, fun e he => ?_, fun i hi => ?_⟩
    · obtain ⟨x, hx, hbind⟩ := mem_mapRows hgroup e he
      exact bindExpression_nanFree (hnan.groupBy x hx) hbind
    · obtain ⟨x, hx, hbind⟩ := mem_mapRows horder i hi
      exact bindOrderItem_nanFree hitemNan (hnan.orderBy x hx) hbind

theorem readable_source {scope : List ScopeEntry} (hn : (ids scope).Nodup) {tables : List BoundTable}
    (ht : scope.map (·.table) = tables) {e : BoundExpr} (hw : WellTyped scope e) (hp : containsAggregate e = false) :
    readable (columnsOf tables) [] e = true := by
  refine (readable_plain hp).2 (fun b hb => (mem_columnsOf hn (fun t h => ht ▸ h) hw hb).2 ?_)
  obtain ⟨entry, hent, hid, -⟩ := wellTyped_bindings hw b hb
  rw [← ht, List.map_map]
  exact List.mem_map.2 ⟨entry, hent, hid⟩

theorem wellScoped_source {s : SelectStmt} {b : BoundSelect} {scope : List ScopeEntry} (h : Checked K catalog s b scope) :
    (Planner.source b).columns = columnsOf (b.fromTable.toList ++ b.joins.map (·.table)) ∧ (Planner.source b).keys = [] ∧
      ((Planner.source b).WellScoped ↔ InOrder b.fromTable.toList b.joins) := by
  have hbase : ∀ {plan : LogicalPlan}, plan.WellScoped → plan.columns = columnsOf b.fromTable.toList → plan.keys = [] →
      (Planner.filtered (Planner.joinTables plan b.joins) b.where_).columns =
          columnsOf (b.fromTable.toList ++ b.joins.map (·.table)) ∧
        (Planner.filtered (Planner.joinTables plan b.joins) b.where_).keys = [] ∧
        ((Planner.filtered (Planner.joinTables plan b.joins) b.where_).WellScoped ↔ InOrder b.fromTable.toList b.joins) := by
    intro plan hw hc hk
    obtain ⟨hcols, hkeys⟩ := Planner.joinTables_gives b.joins plan
    have hiff := Planner.wellScoped_joinTables h.unique hw hc hk (fun t ht => h.tables ▸ ht) h.joins
    rw [hc, ← columnsOf_append] at hcols
    rw [hk] at hkeys
    cases hwhere : b.where_ with
    | none => exact ⟨hcols, hkeys, hiff⟩
    | some p =>
      obtain ⟨htyped, hplain⟩ := h.where_ p hwhere
      refine ⟨hcols, hkeys, Iff.trans ⟨fun hp => hp.1, fun hp => ⟨hp, ?_⟩⟩ hiff⟩
      rw [hcols, hkeys]
      exact readable_source h.unique h.tables htyped hplain
  unfold Planner.source
  cases hfrom : b.fromTable with
  | none =>
    rw [hfrom] at hbase
    refine hbase ?_ rfl rfl
    intro row hrow e he
    rw [List.mem_singleton.1 hrow] at he
    cases he
  | some table =>
    rw [hfrom] at hbase
    exact hbase trivial (by simp [columnsOf, LogicalPlan.columns]) rfl

def outputs (b : BoundSelect) : List BoundExpr := b.items.map (·.expression) ++ b.orderBy.map (·.expression)

theorem mem_outputs {b : BoundSelect} {e : BoundExpr} (he : e ∈ outputs b) :
    (∃ i ∈ b.items, i.expression = e) ∨ ∃ i ∈ b.orderBy, i.expression = e :=
  (List.mem_append.1 he).imp List.mem_map.1 List.mem_map.1

theorem aggregates_none {b : BoundSelect} :
    (Planner.aggregatesOf b).isEmpty = true ↔ ∀ e ∈ outputs b, containsAggregate e = false := by
  unfold Planner.aggregatesOf
  rw [Planner.collectAggregates_isEmpty, Bool.not_eq_true', List.any_eq_false]
  exact forall₂_congr (fun e _ => by rw [Bool.not_eq_true])

/-- **With GROUP BY or an aggregate, the outputs read the rows of the groups.** -/
theorem outputs_grouped {s : SelectStmt} {b : BoundSelect} {scope : List ScopeEntry} (h : Checked K catalog s b scope)
    (hnan : b.NanFree) (hagg : ¬((Planner.aggregatesOf b).isEmpty && b.groupBy.isEmpty) = true) :
    ∀ e ∈ outputs b, readable [] (b.groupBy ++ Planner.aggregatesOf b) e = true := by
  have hgrouped := h.grouped (by
    rw [Bool.and_eq_true, not_and_or, aggregates_none] at hagg
    rcases hagg with hagg | hagg
    · push Not at hagg
      obtain ⟨e, he, hc⟩ := hagg
      rw [Bool.or_eq_true, Bool.or_eq_true]
      rcases mem_outputs he with ⟨i, hi, rfl⟩ | ⟨i, hi, rfl⟩
      · exact Or.inl (Or.inl (List.any_eq_true.2 ⟨i, hi, by simpa using hc⟩))
      · exact Or.inl (Or.inr (List.any_eq_true.2 ⟨i, hi, by simpa using hc⟩))
    · rw [Bool.or_eq_true]
      exact Or.inr (by simpa using hagg))
  intro e he
  have hfree : e.nanFree = true ∧ ungroupedColumns b.groupBy e = [] := by
    rcases mem_outputs he with ⟨i, hi, rfl⟩ | ⟨i, hi, rfl⟩
    · exact ⟨hnan.items i hi, hgrouped.1 i hi⟩
    · exact ⟨hnan.orderBy i hi, hgrouped.2 i hi⟩
  refine readable_grouped (fun k hk => List.mem_append_left _ hk) hfree.2 (fun f hf => ?_)
  have hkey : isKey (Planner.aggregatesOf b) f = true :=
    Planner.isKey_collectAggregates he hf (Planner.mem_functionsOf hfree.1 hf)
  exact isKey_mono (fun k hk => List.mem_append_right _ hk) hkey

theorem aggregates_readable {s : SelectStmt} {b : BoundSelect} {scope : List ScopeEntry} (h : Checked K catalog s b scope)
    (hnan : b.NanFree) : ∀ a ∈ Planner.aggregatesOf b,
      argumentReadable (columnsOf (b.fromTable.toList ++ b.joins.map (·.table))) [] a = true ∧ a.nanFree = true := by
  intro a ha
  obtain ⟨e, he, hf⟩ := Planner.mem_collectAggregates ha
  have hacc : Accepted scope e ∧ e.nanFree = true := by
    rcases mem_outputs he with ⟨i, hi, rfl⟩ | ⟨i, hi, rfl⟩
    · exact ⟨h.items i hi, hnan.items i hi⟩
    · exact ⟨h.orderBy i hi, hnan.orderBy i hi⟩
  refine ⟨?_, Planner.mem_functionsOf hacc.2 hf⟩
  rcases hacc.1.plain a hf with rfl | ⟨f, argument, d, n, rfl, hplain, htyped⟩
  · rfl
  · exact readable_source h.unique h.tables htyped hplain

/-- **The plan of a bound statement is well scoped exactly when its conditions are in order.** -/
theorem wellScoped_select {s : SelectStmt} {b : BoundSelect} {scope : List ScopeEntry} (h : Checked K catalog s b scope)
    (hnan : b.NanFree) : (Planner.select b).WellScoped ↔ InOrder b.fromTable.toList b.joins := by
  obtain ⟨hcols, hkeys, hiff⟩ := wellScoped_source h
  have hproject : ∀ {plan : LogicalPlan}, (plan.WellScoped ↔ InOrder b.fromTable.toList b.joins) →
      (∀ e ∈ outputs b, readable plan.columns plan.keys e = true) →
      ((if b.orderBy.isEmpty then .project plan b.items else .sort (.project plan b.items) b.orderBy : LogicalPlan).WellScoped ↔
        InOrder b.fromTable.toList b.joins) := by
    intro plan hplan hout
    have hp : (LogicalPlan.project plan b.items).WellScoped ↔ InOrder b.fromTable.toList b.joins :=
      ⟨fun hw => hplan.1 hw.1, fun ho => ⟨hplan.2 ho,
        fun i hi => hout _ (List.mem_append_left _ (List.mem_map_of_mem hi)), hnan.items⟩⟩
    split
    · exact hp
    · refine Iff.trans ⟨fun hw => hw.1, fun hw => ⟨hw, fun i hi => ?_⟩⟩ hp
      exact readable_mono (fun _ hc => hc) (fun _ hk => List.mem_append_left _ hk)
        (hout _ (List.mem_append_right _ (List.mem_map_of_mem hi)))
  have hgrouped : (if (Planner.aggregatesOf b).isEmpty && b.groupBy.isEmpty then Planner.source b
        else .aggregate (Planner.source b) b.groupBy (Planner.aggregatesOf b) : LogicalPlan).WellScoped ↔
      InOrder b.fromTable.toList b.joins := by
    split
    · exact hiff
    · refine Iff.trans ⟨fun hw => hw.1, fun hw => ⟨hw, ?_⟩⟩ hiff
      rw [hcols, hkeys]
      refine ⟨fun e he => readable_source h.unique h.tables (h.groupBy e he).1 (h.groupBy e he).2,
        fun a ha => (aggregates_readable h hnan a ha).1, fun e he => ?_⟩
      exact (List.mem_append.1 he).elim (hnan.groupBy e) (fun ha => (aggregates_readable h hnan e ha).2)
  have hout : ∀ e ∈ outputs b, readable
      (if (Planner.aggregatesOf b).isEmpty && b.groupBy.isEmpty then Planner.source b
        else .aggregate (Planner.source b) b.groupBy (Planner.aggregatesOf b) : LogicalPlan).columns
      (if (Planner.aggregatesOf b).isEmpty && b.groupBy.isEmpty then Planner.source b
        else .aggregate (Planner.source b) b.groupBy (Planner.aggregatesOf b) : LogicalPlan).keys e = true := by
    intro e he
    split
    · rename_i hno
      rw [Bool.and_eq_true, aggregates_none] at hno
      rw [hcols, hkeys]
      refine readable_source h.unique h.tables ?_ (hno.1 e he)
      rcases mem_outputs he with ⟨i, hi, rfl⟩ | ⟨i, hi, rfl⟩
      · exact (h.items i hi).typed
      · exact (h.orderBy i hi).typed
    · rename_i hagg
      exact outputs_grouped h hnan hagg e he
  have hsorted := hproject hgrouped hout
  unfold Planner.select
  cases b.limit with
  | none => exact hsorted
  | some n => exact hsorted

end Select
end MiniPostgres
