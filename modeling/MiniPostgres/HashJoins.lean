import MiniPostgres.RowLists
import MiniPostgres.Reordering
import MiniPostgres.Statistics
/-!
# HashJoins — a hash join gives the rows of the nested loop

Both joins of `executor/operators.py` over any two inputs.  A pair on which the condition is TRUE has equal keys, so the probe
finds it, and the residual condition refuses every other pair it finds.  The hash join looks at fewer pairs: where the condition
raises on a pair with different keys, only the nested loop raises.
-/
namespace MiniPostgres

open Operators Cursor Fueled
open JoinTree (joined_ok joinedAll_ok)

/-! ## Executors and their rows -/

namespace Executor

variable (A : FloatArith) (context : ExecutionContext)

/-- An executor that opens, and gives these rows and no failure. -/
def Gives (e : Executor) (rows : List ExecutionRow) : Prop :=
  ∃ h, Opens A context h (fun n => open_ A context n e) (.ok (Pull.ofList rows))

/-- `collect` returns these rows. -/
def Collects (e : Executor) (rows : List ExecutionRow) : Prop := ∃ e', Comes (fun n => collect A context n e) (.ok (rows, e'))

variable {A context}

theorem Opens.collects {h : Nat} {e : Executor} {r : Result (Pull Error ExecutionRow)}
    (ho : Opens A context h (fun n => open_ A context n e) r) :
    Results (fun n => collect A context n e) (r >>= Pull.drain) := by
  cases ho with
  | failed hc => exact ⟨_, hc.bind_error, rfl⟩
  | opened hc hl =>
    rename_i e' p
    obtain ⟨o, hd, hr⟩ := hl.drained
    cases o with
    | error error => exact ⟨.error error, hc.bind hd.bind_error, hr⟩
    | ok x => exact ⟨_, hc.bind (hd.bind (comes_pure _)), hr⟩

theorem Results.collects_iff {e : Executor} {r : Result (List ExecutionRow)} (h : Results (fun n => collect A context n e) r)
    (rows : List ExecutionRow) : Collects A context e rows ↔ r = .ok rows := by
  constructor
  · rintro ⟨e', hc⟩
    obtain ⟨o, ho, rfl⟩ := h
    rw [Comes.unique ho hc]
    rfl
  · rintro rfl
    exact h.ok

/-- **The nested loop collects** what the condition keeps of all pairs, unless it raises on one. -/
theorem nestedLoopJoin_collects {left right : Executor} {lefts rights : List ExecutionRow} (hl : Gives A context left lefts)
    (hr : Gives A context right rights) (condition : BoundExpr) (rows : List ExecutionRow) :
    Collects A context (.nestedLoopJoin .created left right condition [] none 0) rows ↔
      ((Pull.ofList lefts).bind (joinedAll A condition rights)).drain = .ok rows := by
  obtain ⟨hl', hlo⟩ := hl
  obtain ⟨hr', hro⟩ := hr
  have hopens : Opens A context (hl' + 1) (fun n => open_ A context n (.nestedLoopJoin .created left right condition [] none 0))
      (.ok ((Pull.ofList lefts).bind (joinedAll A condition rights))) := by
    refine hlo.bind (f := fun p => .ok (p.bind (joinedAll A condition rights))) (fun el pl hlv => ?_)
    refine hro.bind (f := fun q => do let rights ← q.drain; .ok (pl.bind (joinedAll A condition rights))) (fun er pr hrv => ?_)
    exact Opens.after hrv.drained (fun rows e => .opened (comes_pure _) ⟨⟨rfl, hlv.1⟩, by rw [rest, hlv.2]; rfl⟩)
  exact Results.collects_iff hopens.collects rows

/-- **The hash join collects** what each left row finds in the table of the right rows. -/
theorem hashJoin_collects {left right : Executor} {lefts rights : List ExecutionRow} (hl : Gives A context left lefts)
    (hr : Gives A context right rights) (leftKey rightKey condition : BoundExpr) {hash : HashTable}
    (hhash : rights.foldlM (hashRow A rightKey) [] = .ok hash) (rows : List ExecutionRow) :
    Collects A context (.hashJoin .created left right leftKey rightKey condition [] [] 0) rows ↔
      ((Pull.ofList lefts).bind (fun row => .ofResult (matchesOf A leftKey condition hash row))).drain = .ok rows := by
  obtain ⟨hl', hlo⟩ := hl
  obtain ⟨hr', hro⟩ := hr
  have hopens : Opens A context (hl' + 1)
      (fun n => open_ A context n (.hashJoin .created left right leftKey rightKey condition [] [] 0))
      (.ok ((Pull.ofList lefts).bind (fun row => .ofResult (matchesOf A leftKey condition hash row)))) := by
    refine hlo.bind (f := fun p => .ok (p.bind (fun row => .ofResult (matchesOf A leftKey condition hash row))))
      (fun el pl hlv => ?_)
    have hfold : (do
        let hash ← Pull.fold (hashRow A rightKey) [] (Pull.ofList rights)
        .ok (pl.bind (fun row => .ofResult (matchesOf A leftKey condition hash row))) : Result (Pull Error ExecutionRow)) =
          .ok (pl.bind (fun row => .ofResult (matchesOf A leftKey condition hash row))) := by
      rw [Pull.fold_eq_ok.2 ⟨rfl, hhash⟩]
      rfl
    rw [← hfold]
    refine hro.bind (f := fun q => do
      let hash ← Pull.fold (hashRow A rightKey) [] q
      .ok (pl.bind (fun row => .ofResult (matchesOf A leftKey condition hash row)))) (fun er pr hrv => ?_)
    exact Opens.after (hrv.consumed _ _) (fun hash e => .opened (comes_pure _) ⟨⟨rfl, hlv.1⟩, by rw [rest, hlv.2]; rfl⟩)
  exact Results.collects_iff hopens.collects rows

end Executor

/-! ## Rows that are equal as values -/

namespace ExecutionRow

/-- The dictionaries of a row as maps; rows with the same contents are equal in Python. -/
def contents (row : ExecutionRow) : (ColumnBinding → Option Scalar) × (Nat → Option TID) × (ComputedKey → Option Scalar) :=
  (fun b => row.cells.lookup b, fun t => row.tids.lookup t, fun k => row.computed.lookup k)

theorem overlaps_comm {α β : Type} [DecidableEq α] (a b : List (α × β)) : overlaps a b = overlaps b a := by
  rw [Bool.eq_iff_iff]
  simp only [overlaps, List.any_eq_true, decide_eq_true_eq]
  constructor
  · rintro ⟨x, hx, y, hy, h⟩
    exact ⟨y, hy, x, hx, h.symm⟩
  · rintro ⟨x, hx, y, hy, h⟩
    exact ⟨y, hy, x, hx, h.symm⟩

theorem mem_of_lookup {α β : Type} [DecidableEq α] {l : List (α × β)} {k : α} {x : β} (h : l.lookup k = some x) : (k, x) ∈ l := by
  obtain ⟨l₁, l₂, rfl, -⟩ := List.lookup_eq_some_iff.1 h
  exact List.mem_append_right _ List.mem_cons_self

theorem lookup_append_comm {α β : Type} [DecidableEq α] {a b : List (α × β)} (h : overlaps a b = false) (k : α) :
    (a ++ b).lookup k = (b ++ a).lookup k := by
  rw [List.lookup_append, List.lookup_append]
  cases ha : a.lookup k with
  | none => cases b.lookup k <;> rfl
  | some x =>
    cases hb : b.lookup k with
    | none => rfl
    | some y =>
      have hover : overlaps a b = true := by
        simp only [overlaps, List.any_eq_true, decide_eq_true_eq]
        exact ⟨(k, x), mem_of_lookup ha, (k, y), mem_of_lookup hb, rfl⟩
      rw [h] at hover
      cases hover

theorem apart_of_merge {a b m : ExecutionRow} (h : a.merge b = .ok m) :
    overlaps a.cells b.cells = false ∧ overlaps a.tids b.tids = false ∧ overlaps a.computed b.computed = false := by
  unfold merge at h
  split at h
  · exact absurd h raise_ne_ok
  · rename_i hc
    split at h
    · exact absurd h raise_ne_ok
    · rename_i ht
      split at h
      · exact absurd h raise_ne_ok
      · rename_i hk
        exact ⟨by simpa using hc, by simpa using ht, by simpa using hk⟩

/-- **Merging does not depend on the side.** -/
theorem merge_comm {a b m : ExecutionRow} (h : a.merge b = .ok m) : ∃ m', b.merge a = .ok m' ∧ m'.contents = m.contents := by
  obtain ⟨hc, ht, hk⟩ := apart_of_merge h
  refine ⟨⟨b.cells ++ a.cells, b.tids ++ a.tids, b.computed ++ a.computed⟩, ?_, ?_⟩
  · unfold merge
    rw [overlaps_comm, hc, overlaps_comm, ht, overlaps_comm, hk]
    rfl
  · rw [merge_ok h]
    unfold contents
    refine Prod.ext ?_ (Prod.ext ?_ ?_)
    · funext x
      exact (lookup_append_comm hc x).symm
    · funext x
      exact (lookup_append_comm ht x).symm
    · funext x
      exact (lookup_append_comm hk x).symm

theorem found_contents {a b : ExecutionRow} (h : a.contents = b.contents) (e : BoundExpr) : a.found e = b.found e := by
  have hk : a.computed.lookup (.expr e.canon) = b.computed.lookup (.expr e.canon) := congrFun (congrArg (fun c => c.2.2) h) _
  unfold found
  rw [hk]

end ExecutionRow

/-- **Rows with the same contents have the same values.** -/
theorem evaluate_contents {A : FloatArith} {a b : ExecutionRow} (h : a.contents = b.contents) : ∀ e : BoundExpr,
    evaluate A e a = evaluate A e b
  | .literal v d n => by simp only [evaluate, ExecutionRow.found_contents h]
  | .column c m d n => by
    have hc : a.cells.lookup c = b.cells.lookup c := congrFun (congrArg Prod.fst h) c
    simp only [evaluate, ExecutionRow.found_contents h, hc]
  | .cast o d n => by simp only [evaluate, ExecutionRow.found_contents h, evaluate_contents h o]
  | .unary p o d n => by simp only [evaluate, ExecutionRow.found_contents h, evaluate_contents h o]
  | .binary l p r d n => by simp only [evaluate, ExecutionRow.found_contents h, evaluate_contents h l, evaluate_contents h r]
  | .isNull o g => by simp only [evaluate, ExecutionRow.found_contents h, evaluate_contents h o]
  | .function f x d n => by simp only [evaluate, ExecutionRow.found_contents h]
  | .countStar => by simp only [evaluate, ExecutionRow.found_contents h]

/-! ## Pairs -/

section Pairs

variable {A : FloatArith} {condition : BoundExpr} {a b : ExecutionRow}

abbrev pairRows (A : FloatArith) (condition : BoundExpr) (a b : ExecutionRow) : List ExecutionRow :=
  (joined A condition a b).items

/-- **A pair without a failure is one in the other order**, with the same row. -/
theorem joined_comm (h : (joined A condition a b).failure = none) : (joined A condition b a).failure = none ∧
    (pairRows A condition b a).map ExecutionRow.contents = (pairRows A condition a b).map ExecutionRow.contents := by
  obtain ⟨m, v, hm, hv, hitems⟩ := joined_ok h
  obtain ⟨m', hm', hsame⟩ := ExecutionRow.merge_comm hm
  have hv' : evaluate A condition m' = .ok v := (evaluate_contents hsame condition).trans hv
  have hjoined : joined A condition b a = ⟨if v = .bool true then [m'] else [], none⟩ := by
    unfold joined
    rw [hm']
    simp only [kept, hv']
  unfold pairRows
  rw [hitems, hjoined]
  refine ⟨rfl, ?_⟩
  by_cases htrue : v = .bool true
  · simp only [if_pos htrue, List.map_cons, List.map_nil, hsame]
  · simp only [if_neg htrue, List.map_nil]

end Pairs

/-! ## The key of a TRUE condition -/

/-- The expression and everything below it. -/
def BoundExpr.parts : BoundExpr → List BoundExpr
  | .cast o d n       => .cast o d n :: o.parts
  | .unary p o d n    => .unary p o d n :: o.parts
  | .binary l p r d n => .binary l p r d n :: (l.parts ++ r.parts)
  | .isNull o g       => .isNull o g :: o.parts
  | .function f x d n => .function f x d n :: x.parts
  | e                 => [e]

/-- The row holds no computed value of a part of the expression. -/
def ExecutionRow.Fresh (row : ExecutionRow) (e : BoundExpr) : Prop := ∀ p ∈ e.parts, row.found p = none

theorem BoundExpr.self_mem_parts (e : BoundExpr) : e ∈ e.parts := by
  cases e <;> exact List.mem_cons_self

theorem conjuncts_single {e : BoundExpr} (h : ∀ l r d n, e = .binary l .and r d n → False) : Rules.conjuncts e = [e] := by
  unfold Rules.conjuncts
  split
  · exact (h _ _ _ _ rfl).elim
  · rfl

theorem parts_of_conjunct {p : BoundExpr} (e : BoundExpr) :
    ∀ {c : BoundExpr}, c ∈ Rules.conjuncts e → p ∈ c.parts → p ∈ e.parts := by
  induction e using Rules.conjuncts.induct with
  | case1 l r d n ihl ihr =>
    intro c hc hp
    rcases List.mem_append.1 hc with hc | hc
    · exact List.mem_cons_of_mem _ (List.mem_append_left _ (ihl hc hp))
    · exact List.mem_cons_of_mem _ (List.mem_append_right _ (ihr hc hp))
  | case2 e he =>
    intro c hc hp
    rw [conjuncts_single he, List.mem_singleton] at hc
    exact hc ▸ hp

theorem ExecutionRow.Fresh.merge {a b m : ExecutionRow} {e : BoundExpr} (ha : a.Fresh e) (hb : b.Fresh e)
    (h : a.merge b = .ok m) : m.Fresh e := by
  intro p hp
  have hfa := ha p hp
  have hfb := hb p hp
  rw [ExecutionRow.merge_ok h]
  unfold ExecutionRow.found at hfa hfb ⊢
  split at hfa
  · rename_i hn
    rw [if_pos hn] at hfb ⊢
    rw [List.lookup_append, hfa, hfb]
    rfl
  · rename_i hn
    rw [if_neg hn]

/-- **Every conjunct of a TRUE condition is TRUE.** -/
theorem conjuncts_true {A : FloatArith} {row : ExecutionRow} {c : BoundExpr} (e : BoundExpr) : row.Fresh e →
    c ∈ Rules.conjuncts e → evaluate A e row = .ok (.bool true) → evaluate A c row = .ok (.bool true) := by
  induction e using Rules.conjuncts.induct with
  | case1 l r d n ihl ihr =>
    intro hf hc he
    have hself := hf _ (BoundExpr.self_mem_parts _)
    simp only [evaluate, hself] at he
    obtain ⟨v, hv, he⟩ := bind_eq_ok.1 he
    obtain ⟨w, hw, he⟩ := bind_eq_ok.1 he
    obtain ⟨rfl, rfl⟩ := (sqlAnd_eq_true he).1 rfl
    rcases List.mem_append.1 hc with hc | hc
    · exact ihl (fun p hp => hf p (List.mem_cons_of_mem _ (List.mem_append_left _ hp))) hc hv
    · exact ihr (fun p hp => hf p (List.mem_cons_of_mem _ (List.mem_append_right _ hp))) hc hw
  | case2 e hn =>
    intro hf hc he
    rw [conjuncts_single hn, List.mem_singleton] at hc
    rw [hc]
    exact he

/-- A value of a column of this type: NULL, or of the type and no NaN. -/
def ColumnValue (d : DataType) (v : Scalar) : Prop := v = .null ∨ (inferType v = some d ∧ v.isNanValue = false)

theorem floatCanon_ne (b : BitVec 64) : floatCanon b ≠ negativeZero := by
  unfold floatCanon
  split
  · exact negativeZero_ne.symm
  · rename_i h
    exact h

theorem floatCanon_of_place {a b : BitVec 64} (h : floatPlace a = floatPlace b) : floatCanon a = floatCanon b := by
  have hinj : ∀ {x y : BitVec 64}, x ≠ negativeZero → y ≠ negativeZero → floatPlace x = floatPlace y → x = y := by
    intro x y hx hy hxy
    have hzero : negativeZero.toNat = 2 ^ 63 := rfl
    have hx' : x.toNat ≠ 2 ^ 63 := fun he => hx (BitVec.eq_of_toNat_eq (he.trans hzero.symm))
    have hy' : y.toNat ≠ 2 ^ 63 := fun he => hy (BitVec.eq_of_toNat_eq (he.trans hzero.symm))
    refine BitVec.eq_of_toNat_eq ?_
    unfold floatPlace at hxy
    split at hxy <;> split at hxy <;> omega
  exact hinj (floatCanon_ne a) (floatCanon_ne b) (by rw [floatPlace_canon, floatPlace_canon, h])

theorem hashKey_canon (v : Scalar) : hashKey v.canon = hashKey v := by
  cases v with
  | float b =>
    simp only [Scalar.canon, floatCanon]
    split
    · rename_i h
      rw [h]
      decide +kernel
    · rfl
  | _ => rfl

/-- **Values of one type that `=` finds equal have one key.** -/
theorem equalKeys_of_eq {A : FloatArith} {d : DataType} {v w : Scalar} (hv : ColumnValue d v) (hw : ColumnValue d w)
    (h : compareValues A .eq v w = .ok (.bool true)) : equalKeys (some v) (some w) = true := by
  have hkey : ∃ k, hashKey v = some k ∧ hashKey w = some k := by
    rcases hv with rfl | ⟨tv, nv⟩
    · cases h
    · rcases hw with rfl | ⟨tw, nw⟩
      · cases v <;> cases h
      · cases d with
        | int64 =>
          obtain ⟨x, rfl⟩ := inferType_int64 tv
          obtain ⟨y, rfl⟩ := inferType_int64 tw
          obtain ⟨p, hp, h⟩ := bind_eq_ok.1 h
          obtain ⟨q, hq, h⟩ := bind_eq_ok.1 h
          rw [(validateInt64_eq_ok.1 hp).1, (validateInt64_eq_ok.1 hq).1] at h
          simp only [compareBy, Except.ok.injEq, Scalar.bool.injEq, decide_eq_true_eq] at h
          exact ⟨_, rfl, by rw [h]; rfl⟩
        | float64 =>
          obtain ⟨x, rfl⟩ := inferType_float64 tv
          obtain ⟨y, rfl⟩ := inferType_float64 tw
          simp only [compareValues, compareFloats, compareBy, Except.ok.injEq, Scalar.bool.injEq, floatEq, Bool.and_eq_true,
            decide_eq_true_eq] at h
          have hsame : hashKey (.float x) = hashKey (.float y) := by
            rw [← hashKey_canon (.float x), ← hashKey_canon (.float y)]
            simp only [Scalar.canon, floatCanon_of_place h.2]
          cases hx : hashKey (.float x) with
          | some k => exact ⟨k, rfl, hsame.symm.trans hx⟩
          | none =>
            have hnan : isNan x = false := nv
            simp only [hashKey, hnan, Bool.false_eq_true, if_false] at hx
            split at hx <;> cases hx
        | boolean =>
          obtain ⟨x, rfl⟩ := inferType_boolean tv
          obtain ⟨y, rfl⟩ := inferType_boolean tw
          simp only [compareValues, compareBy, Except.ok.injEq, Scalar.bool.injEq, beq_iff_eq] at h
          exact ⟨_, rfl, by rw [h]; rfl⟩
        | text =>
          obtain ⟨x, rfl⟩ := inferType_text tv
          obtain ⟨y, rfl⟩ := inferType_text tw
          simp only [compareValues, compareBy, Except.ok.injEq, Scalar.bool.injEq, decide_eq_true_eq] at h
          exact ⟨_, rfl, by rw [h]; rfl⟩
  obtain ⟨k, hvk, hwk⟩ := hkey
  simp only [equalKeys, Option.bind_some, hvk, hwk, decide_true]

/-! ## The two joins -/

/-- A column that every row of an input has, with values of one type. -/
def InputColumn (binding : ColumnBinding) (d : DataType) (rows : List ExecutionRow) : Prop :=
  ∀ row ∈ rows, ∃ v, row.cells.lookup binding = some v ∧ ColumnValue d v

/-- The equality of the two expressions is a conjunct of the condition, either way round. -/
def Equates (condition leftKey rightKey : BoundExpr) : Prop :=
  ∃ d n, .binary leftKey .eq rightKey d n ∈ Rules.conjuncts condition ∨
    .binary rightKey .eq leftKey d n ∈ Rules.conjuncts condition

theorem Equates.symm {condition leftKey rightKey : BoundExpr} (h : Equates condition leftKey rightKey) :
    Equates condition rightKey leftKey := by
  obtain ⟨d, n, h⟩ := h
  exact ⟨d, n, h.symm⟩

theorem Equates.parts {condition leftKey rightKey : BoundExpr} (h : Equates condition leftKey rightKey) :
    leftKey ∈ condition.parts ∧ rightKey ∈ condition.parts := by
  obtain ⟨d, n, h | h⟩ := h
  · refine ⟨parts_of_conjunct condition h ?_, parts_of_conjunct condition h ?_⟩
    · exact List.mem_cons_of_mem _ (List.mem_append_left _ leftKey.self_mem_parts)
    · exact List.mem_cons_of_mem _ (List.mem_append_right _ rightKey.self_mem_parts)
  · refine ⟨parts_of_conjunct condition h ?_, parts_of_conjunct condition h ?_⟩
    · exact List.mem_cons_of_mem _ (List.mem_append_right _ leftKey.self_mem_parts)
    · exact List.mem_cons_of_mem _ (List.mem_append_left _ rightKey.self_mem_parts)

theorem evaluate_column {A : FloatArith} {row : ExecutionRow} {b : ColumnBinding} {name : List Char} {d : DataType} {n : Bool}
    {v : Scalar} (hf : row.found (.column b name d n) = none) (hv : row.cells.lookup b = some v) :
    evaluate A (.column b name d n) row = .ok v := by
  simp only [evaluate, hf, hv]

theorem evaluate_equality {A : FloatArith} {row : ExecutionRow} {l r : BoundExpr} {d : DataType} {n : Bool} {v w : Scalar}
    (hf : row.found (.binary l .eq r d n) = none) (hl : evaluate A l row = .ok v) (hr : evaluate A r row = .ok w) :
    evaluate A (.binary l .eq r d n) row = compareValues A .eq v w := by
  simp only [evaluate, hf, hl, hr]
  rfl

theorem equalKeys_comm (v w : Option Scalar) : equalKeys v w = equalKeys w v := by
  unfold equalKeys
  cases v.bind hashKey with
  | none => cases w.bind hashKey <;> rfl
  | some k =>
    cases w.bind hashKey with
    | none => rfl
    | some k' => exact decide_eq_decide.2 eq_comm

section Joins

variable {A : FloatArith} {context : ExecutionContext} {condition : BoundExpr} {lb rb : ColumnBinding} {ln rn : List Char}
  {d dl dr : DataType} {nl nr : Bool} {lefts rights : List ExecutionRow}

/-- **A pair that the condition keeps has equal keys.** -/
theorem equalKeys_of_kept {a b : ExecutionRow} {v w : Scalar} (hfa : a.Fresh condition) (hfb : b.Fresh condition)
    (heq : Equates condition (.column lb ln dl nl) (.column rb rn dr nr))
    (hva : a.cells.lookup lb = some v) (hv : ColumnValue d v)
    (hwb : b.cells.lookup rb = some w) (hw : ColumnValue d w) (hok : (joined A condition a b).failure = none)
    (hkept : pairRows A condition a b ≠ []) : equalKeys (some v) (some w) = true := by
  obtain ⟨m, x, hm, hx, hitems⟩ := joined_ok hok
  have htrue : x = .bool true := by
    by_contra hne
    exact hkept (by unfold pairRows; rw [hitems, if_neg hne])
  subst htrue
  have hfm := hfa.merge hfb hm
  obtain ⟨hcells, -, -⟩ := ExecutionRow.apart_of_merge hm
  have hml : m.cells.lookup lb = some v := by
    rw [ExecutionRow.merge_ok hm, List.lookup_append, hva]
    rfl
  have hmr : m.cells.lookup rb = some w := by
    rw [ExecutionRow.merge_ok hm, ExecutionRow.lookup_append_comm hcells, List.lookup_append, hwb]
    rfl
  have hlm := evaluate_column (A := A) (hfm _ heq.parts.1) hml
  have hrm := evaluate_column (A := A) (hfm _ heq.parts.2) hmr
  obtain ⟨e, n, h | h⟩ := heq
  · have hself := hfm _ (parts_of_conjunct condition h (BoundExpr.self_mem_parts _))
    have ht := conjuncts_true condition hfm h hx
    rw [evaluate_equality hself hlm hrm] at ht
    exact equalKeys_of_eq hv hw ht
  · have hself := hfm _ (parts_of_conjunct condition h (BoundExpr.self_mem_parts _))
    have ht := conjuncts_true condition hfm h hx
    rw [evaluate_equality hself hrm hlm] at ht
    rw [equalKeys_comm]
    exact equalKeys_of_eq hw hv ht

theorem hashRows_ok {rightKey : BoundExpr} : ∀ {rows : List ExecutionRow}, (∀ b ∈ rows, ∃ w, evaluate A rightKey b = .ok w) →
    ∀ table : HashTable, ∃ hash, rows.foldlM (Executor.hashRow A rightKey) table = .ok hash
  | [], _, table => ⟨table, rfl⟩
  | b :: rows, h, table => by
    obtain ⟨w, hw⟩ := h b List.mem_cons_self
    obtain ⟨hash, hh⟩ := hashRows_ok (fun c hc => h c (List.mem_cons_of_mem _ hc)) (table.store w b)
    refine ⟨hash, ?_⟩
    rw [List.foldlM_cons, show Executor.hashRow A rightKey table b =
      .ok (table.store w b) by unfold Executor.hashRow; rw [hw]; rfl]
    exact hh

theorem flatMap_filter {α β : Type} {p : α → Bool} {f : α → List β} : ∀ {l : List α}, (∀ a ∈ l, f a ≠ [] → p a = true) →
    (l.filter p).flatMap f = l.flatMap f
  | [], _ => rfl
  | a :: l, h => by
    have ih := flatMap_filter (fun b hb => h b (List.mem_cons_of_mem _ hb))
    cases hp : p a with
    | true => rw [List.filter_cons_of_pos hp, List.flatMap_cons, List.flatMap_cons, ih]
    | false =>
      have hnil : f a = [] := by
        by_contra hne
        rw [h a List.mem_cons_self hne] at hp
        cases hp
      rw [List.filter_cons_of_neg (by simp [hp]), List.flatMap_cons, hnil, List.nil_append, ih]

/-- **The hash join collects the rows of every pair**, when no pair raises and only equal keys are kept. -/
theorem hashJoin_pairs {left right : Executor} {leftKey rightKey : BoundExpr} (hl : Executor.Gives A context left lefts)
    (hr : Executor.Gives A context right rights) (hlk : ∀ a ∈ lefts, ∃ v, evaluate A leftKey a = .ok v)
    (hrk : ∀ b ∈ rights, ∃ w, evaluate A rightKey b = .ok w)
    (hok : ∀ a ∈ lefts, ∀ b ∈ rights, (joined A condition a b).failure = none)
    (hkeys : ∀ a ∈ lefts, ∀ b ∈ rights, pairRows A condition a b ≠ [] →
      equalKeys (valueOf A leftKey a) (valueOf A rightKey b) = true) :
    Executor.Collects A context (.hashJoin .created left right leftKey rightKey condition [] [] 0)
      (lefts.flatMap (fun a => rights.flatMap (pairRows A condition a))) := by
  obtain ⟨hash, hhash⟩ := hashRows_ok hrk []
  rw [Executor.hashJoin_collects hl hr leftKey rightKey condition hhash, Pull.drain_eq_ok]
  have hfound : ∀ a ∈ lefts, Executor.matchesOf A leftKey condition hash a = .ok (rights.flatMap (pairRows A condition a)) := by
    intro a ha
    obtain ⟨v, hv⟩ := hlk a ha
    have hval : valueOf A leftKey a = some v := toOption_ok hv
    have hcands := candidates_foldlM (v := v) rights hhash
    rw [candidates_nil, List.nil_append] at hcands
    unfold Executor.matchesOf
    rw [hv]
    simp only [bind, Except.bind]
    rw [hcands, Pull.drain_eq_ok]
    have hcok : ∀ b ∈ rights.filter (fun r => equalKeys (some v) (valueOf A rightKey r)),
      (joined A condition a b).failure = none :=
      fun b hb => hok a ha b (List.mem_filter.1 hb).1
    have hitems := Pull.bind_items (p := Pull.ofList (rights.filter (fun r => equalKeys (some v) (valueOf A rightKey r)))) hcok
    have hfail := Pull.bind_failure (p := Pull.ofList (rights.filter (fun r => equalKeys (some v) (valueOf A rightKey r)))).2
      ⟨rfl, hcok⟩
    have hsame : (rights.filter (fun r => equalKeys (some v) (valueOf A rightKey r))).flatMap (pairRows A condition a) =
        rights.flatMap (pairRows A condition a) := by
      refine flatMap_filter (fun b hb hne => ?_)
      rw [← hval]
      exact hkeys a ha b hb hne
    rw [← hsame, ← hfail]
    exact congrArg (Pull.mk · _) hitems
  have hnone : ∀ a ∈ (Pull.ofList lefts : Pull Error ExecutionRow).items,
      (Pull.ofResult (Executor.matchesOf A leftKey condition hash a)).failure = none := fun a ha => by rw [hfound a ha]; rfl
  have hitems := Pull.bind_items (p := Pull.ofList lefts) hnone
  have hfail := Pull.bind_failure (p := Pull.ofList lefts).2 ⟨rfl, hnone⟩
  have hrows : lefts.flatMap (fun a => (Pull.ofResult (Executor.matchesOf A leftKey condition hash a)).items) =
      lefts.flatMap (fun a => rights.flatMap (pairRows A condition a)) :=
    List.flatMap_congr (fun a ha => by rw [hfound a ha]; rfl)
  rw [← hrows, ← hfail]
  exact congrArg (Pull.mk · _) hitems

theorem pairs_comm (hok : ∀ a ∈ lefts, ∀ b ∈ rights, (joined A condition a b).failure = none) :
    ((rights.flatMap (fun b => lefts.flatMap (pairRows A condition b))).map ExecutionRow.contents).Perm
      ((lefts.flatMap (fun a => rights.flatMap (pairRows A condition a))).map ExecutionRow.contents) := by
  have hswap : (rights.flatMap (fun b => lefts.flatMap (pairRows A condition b))).map ExecutionRow.contents =
      rights.flatMap (fun b => lefts.flatMap (fun a => (pairRows A condition a b).map ExecutionRow.contents)) := by
    rw [List.map_flatMap]
    refine List.flatMap_congr (fun b hb => ?_)
    rw [List.map_flatMap]
    exact List.flatMap_congr (fun a ha => (joined_comm (hok a ha b hb)).2)
  have hkeep : (lefts.flatMap (fun a => rights.flatMap (pairRows A condition a))).map ExecutionRow.contents =
      lefts.flatMap (fun a => rights.flatMap (fun b => (pairRows A condition a b).map ExecutionRow.contents)) := by
    rw [List.map_flatMap]
    exact List.flatMap_congr (fun a _ => List.map_flatMap)
  rw [hswap, hkeep, ← Multiset.coe_eq_coe]
  simp only [← Multiset.coe_bind]
  exact Multiset.bind_bind _ _

/-- **A hash join collects the rows of the nested loop**, whichever input it builds its table of, when the nested loop raises
nothing and no input row holds a computed value of a part of the condition. -/
theorem hash_join_nested_loop {left right : Executor} (hl : Executor.Gives A context left lefts)
    (hr : Executor.Gives A context right rights) (hlb : InputColumn lb d lefts) (hrb : InputColumn rb d rights)
    (heq : Equates condition (.column lb ln d nl) (.column rb rn d nr))
    (hfresh : ∀ row ∈ lefts ++ rights, row.Fresh condition) {rows : List ExecutionRow}
    (hrows : Executor.Collects A context (.nestedLoopJoin .created left right condition [] none 0) rows) :
    (∃ found, Executor.Collects A context
        (.hashJoin .created left right (.column lb ln d nl) (.column rb rn d nr) condition [] [] 0) found ∧
      (found.map ExecutionRow.contents).Perm (rows.map ExecutionRow.contents)) ∧
    ∃ found, Executor.Collects A context
        (.hashJoin .created right left (.column rb rn d nr) (.column lb ln d nl) condition [] [] 0) found ∧
      (found.map ExecutionRow.contents).Perm (rows.map ExecutionRow.contents) := by
  obtain ⟨hok, rfl⟩ := joinedAll_ok ((Executor.nestedLoopJoin_collects hl hr condition rows).1 hrows)
  have hfl : ∀ a ∈ lefts, a.Fresh condition := fun a ha => hfresh a (List.mem_append_left _ ha)
  have hfr : ∀ b ∈ rights, b.Fresh condition := fun b hb => hfresh b (List.mem_append_right _ hb)
  have hlk : ∀ a ∈ lefts, ∃ v, a.cells.lookup lb = some v ∧ ColumnValue d v ∧ evaluate A (.column lb ln d nl) a = .ok v := by
    intro a ha
    obtain ⟨v, hv, hcol⟩ := hlb a ha
    exact ⟨v, hv, hcol, evaluate_column (hfl a ha _ heq.parts.1) hv⟩
  have hrk : ∀ b ∈ rights, ∃ w, b.cells.lookup rb = some w ∧ ColumnValue d w ∧ evaluate A (.column rb rn d nr) b = .ok w := by
    intro b hb
    obtain ⟨w, hw, hcol⟩ := hrb b hb
    exact ⟨w, hw, hcol, evaluate_column (hfr b hb _ heq.parts.2) hw⟩
  have hkeys : ∀ a ∈ lefts, ∀ b ∈ rights, pairRows A condition a b ≠ [] →
      equalKeys (valueOf A (.column lb ln d nl) a) (valueOf A (.column rb rn d nr) b) = true := by
    intro a ha b hb hne
    obtain ⟨v, hva, hv, hev⟩ := hlk a ha
    obtain ⟨w, hwb, hw, hew⟩ := hrk b hb
    rw [show valueOf A (.column lb ln d nl) a = some v from toOption_ok hev,
      show valueOf A (.column rb rn d nr) b = some w from toOption_ok hew]
    exact equalKeys_of_kept (hfl a ha) (hfr b hb) heq hva hv hwb hw (hok a ha b hb) hne
  have hle : ∀ a ∈ lefts, ∃ v, evaluate A (.column lb ln d nl) a = .ok v := fun a ha =>
    (hlk a ha).imp (fun _ h => h.2.2)
  have hre : ∀ b ∈ rights, ∃ w, evaluate A (.column rb rn d nr) b = .ok w := fun b hb =>
    (hrk b hb).imp (fun _ h => h.2.2)
  refine ⟨⟨_, hashJoin_pairs hl hr hle hre hok hkeys, List.Perm.refl _⟩, _, ?_, pairs_comm hok⟩
  refine hashJoin_pairs hr hl hre hle (fun b hb a ha => (joined_comm (hok a ha b hb)).1) (fun b hb a ha hne => ?_)
  rw [equalKeys_comm]
  refine hkeys a ha b hb (fun hnil => hne ?_)
  have hsame := (joined_comm (hok a ha b hb)).2
  rw [hnil, List.map_nil, List.map_eq_nil_iff] at hsame
  exact hsame

end Joins

/-! ## Small inputs -/

/-- Table 1 holds this row of one integer, and every other table that one. -/
def twoRows (x y : Int) : ExecutionContext :=
  ⟨fun table => if table = 1 then [(⟨0, 0⟩, [.int x])] else [(⟨0, 0⟩, [.int y])], fun _ _ _ _ => none, fun _ _ => none⟩

def firstColumn : BoundExpr := .column ⟨1, 0⟩ ['x'] .int64 true
def secondColumn : BoundExpr := .column ⟨2, 0⟩ ['y'] .int64 true

/-- `x = y`. -/
def sameColumns : BoundExpr := .binary firstColumn .eq secondColumn .boolean true

/-- `x = y AND x / 0 = 1`. -/
def sameAndQuotient : BoundExpr :=
  .binary sameColumns .and (.binary (.binary firstColumn .div (.literal (.int 0) (some .int64) false) .int64 true) .eq
    (.literal (.int 1) (some .int64) false) .boolean true) .boolean true

def integerRow (tableId : Nat) (x : Int) : ExecutionRow := ⟨[(⟨tableId, 0⟩, .int x)], [(tableId, ⟨0, 0⟩)], []⟩

theorem gives_first (x y : Int) : Executor.Gives FloatArith.unused (twoRows x y) (.seqScan .created 1 []) [integerRow 1 x] :=
  ⟨1, .opened (comes_pure _) ⟨rfl, rfl⟩⟩

theorem gives_second (x y : Int) : Executor.Gives FloatArith.unused (twoRows x y) (.seqScan .created 2 []) [integerRow 2 y] :=
  ⟨1, .opened (comes_pure _) ⟨rfl, rfl⟩⟩

theorem inputColumn_integer (tableId : Nat) (x : Int) : InputColumn ⟨tableId, 0⟩ .int64 [integerRow tableId x] := by
  intro row hrow
  rw [List.mem_singleton.1 hrow]
  exact ⟨.int x, by simp [integerRow], .inr ⟨rfl, rfl⟩⟩

theorem fresh_of_plain {row : ExecutionRow} (h : row.computed = []) (e : BoundExpr) : row.Fresh e :=
  fun _ _ => ExecutionRow.found_of_plain h _

/-- Two equal integers are joined. -/
theorem hash_join_nested_loop_ones :
    (∃ found, Executor.Collects FloatArith.unused (twoRows 1 1)
        (.hashJoin .created (.seqScan .created 1 [])
          (.seqScan .created 2 []) firstColumn secondColumn sameColumns [] [] 0) found ∧
      (found.map ExecutionRow.contents).Perm
        ([⟨[(⟨1, 0⟩, .int 1), (⟨2, 0⟩, .int 1)], [(1, ⟨0, 0⟩), (2, ⟨0, 0⟩)], []⟩].map ExecutionRow.contents)) ∧
    ∃ found, Executor.Collects FloatArith.unused (twoRows 1 1)
        (.hashJoin .created (.seqScan .created 2 [])
          (.seqScan .created 1 []) secondColumn firstColumn sameColumns [] [] 0) found ∧
      (found.map ExecutionRow.contents).Perm
        ([⟨[(⟨1, 0⟩, .int 1), (⟨2, 0⟩, .int 1)], [(1, ⟨0, 0⟩), (2, ⟨0, 0⟩)], []⟩].map ExecutionRow.contents) :=
  hash_join_nested_loop (gives_first 1 1) (gives_second 1 1) (inputColumn_integer 1 1) (inputColumn_integer 2 1)
    ⟨.boolean, true, .inl (List.mem_singleton.2 rfl)⟩
    (fun row hrow => fresh_of_plain (by
      simp only [List.mem_append, List.mem_singleton] at hrow
      rcases hrow with rfl | rfl <;> rfl) _)
    ((Executor.nestedLoopJoin_collects (gives_first 1 1) (gives_second 1 1) sameColumns _).2 rfl)

/-- An open executor that gives these rows. -/
def listed (rows : List ExecutionRow) : Executor := .sort .opened (.values .created [] 0) [] rows 0

theorem gives_listed (A : FloatArith) (context : ExecutionContext) (rows : List ExecutionRow) :
    Executor.Gives A context (listed rows) rows :=
  ⟨1, .opened (comes_pure _) ⟨rfl, rfl⟩⟩

/-- A group of a grouping by `x` and `x = y`, with the values 1 and TRUE. -/
def groupedRow' : ExecutionRow := ⟨[(⟨1, 0⟩, .int 1)], [], [(.expr sameColumns.canon, .bool true)]⟩

/-- **The joins differ on pairs with different keys**: where the condition raises only the nested loop does, and where a row
holds a computed value of the condition only the nested loop reads it. -/
theorem joins_differ :
    (¬∀ (A : FloatArith) (context : ExecutionContext) (left right : Executor) (lefts rights : List ExecutionRow)
      (condition : BoundExpr) (lb rb : ColumnBinding) (ln rn : List Char) (d : DataType) (nl nr : Bool),
      Executor.Gives A context left lefts → Executor.Gives A context right rights → InputColumn lb d lefts →
      InputColumn rb d rights → Equates condition (.column lb ln d nl) (.column rb rn d nr) →
      ∃ rows found, Executor.Collects A context (.nestedLoopJoin .created left right condition [] none 0) rows ∧
        Executor.Collects A context
          (.hashJoin .created left right (.column lb ln d nl) (.column rb rn d nr) condition [] [] 0) found ∧
        (found.map ExecutionRow.contents).Perm (rows.map ExecutionRow.contents)) ∧
    Executor.Collects FloatArith.unused (twoRows 1 2)
      (.hashJoin .created (.seqScan .created 1 []) (.seqScan .created 2 []) firstColumn secondColumn sameAndQuotient [] [] 0) [] ∧
    (∃ row, Executor.Collects FloatArith.unused (twoRows 1 2)
      (.nestedLoopJoin .created (listed [groupedRow']) (listed [integerRow 2 2]) sameColumns [] none 0) [row]) ∧
    Executor.Collects FloatArith.unused (twoRows 1 2)
      (.hashJoin .created (listed [groupedRow']) (listed [integerRow 2 2]) firstColumn secondColumn sameColumns [] [] 0) [] := by
  refine ⟨fun h => ?_, ?_,
    ⟨⟨[(⟨1, 0⟩, .int 1), (⟨2, 0⟩, .int 2)], [(2, ⟨0, 0⟩)], [(.expr sameColumns.canon, .bool true)]⟩, ?_⟩, ?_⟩
  · obtain ⟨rows, -, hrows, -⟩ :=
      h FloatArith.unused (twoRows 1 2) _ _ _ _ sameAndQuotient ⟨1, 0⟩ ⟨2, 0⟩ ['x'] ['y'] .int64 true true
      (gives_first 1 2) (gives_second 1 2) (inputColumn_integer 1 1) (inputColumn_integer 2 2)
      ⟨.boolean, true, .inl List.mem_cons_self⟩
    have hraises := (Executor.nestedLoopJoin_collects (gives_first 1 2) (gives_second 1 2) sameAndQuotient rows).1 hrows
    cases hraises
  · exact (Executor.hashJoin_collects (gives_first 1 2) (gives_second 1 2) firstColumn secondColumn sameAndQuotient rfl []).2 rfl
  · exact (Executor.nestedLoopJoin_collects (gives_listed _ _ _) (gives_listed _ _ _) sameColumns _).2 rfl
  · exact (Executor.hashJoin_collects (gives_listed _ _ _) (gives_listed _ _ _) firstColumn secondColumn sameColumns rfl []).2 rfl

end MiniPostgres
