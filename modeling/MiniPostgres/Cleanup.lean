import MiniPostgres.Executors
import MiniPostgres.Typing
/-!
# Cleanup — executors that close what they opened

Every operator keeps the account of pins and of counted executors, whatever its hooks meet: an exception of an expression, of a
table or of a child, or an interruption.  So `build_executor` makes an orderly stage of every plan, and a plan that was
collected, with or without instrumentation, leaves no executor open and no page pinned (`collect_cleans_up`).
-/
namespace MiniPostgres

open Stages

namespace Executors

variable {D I B σ α : Type} (S : Storage D I B) (A : FloatArith) (n : Nat)

/-! ## The range iterator -/

theorem account_takePin (w : World D) : account { w with pinned := w.pinned + 1 } = (0, 1) + account w := by
  unfold account
  ext
  · simp
  · simp only [Nat.cast_add, Nat.cast_one, Prod.snd_add]
    omega

theorem account_givePin (w : World D) : (0, 1) + account { w with released := w.released + 1 } = account w := by
  unfold account
  ext
  · simp
  · simp only [Nat.cast_add, Nat.cast_one, Prod.snd_add]
    omega

theorem keeps_onData {inv : σ × World D → Prop} (h : ∀ s d, inv s → inv (s.1, { s.2 with data := d })) (x : Program Failure D α) :
    Program.Keeps inv (onData x) := fun s hs => h s _ hs

theorem keeps_setOwn {inv : σ × World D → Prop} {f : σ → σ} (h : ∀ s, inv s → inv (f s.1, s.2)) :
    Program.Keeps inv (setOwn f) := h

/-- **A page is pinned exactly when `pin_leaf` returns**, and nothing else of the caller is touched. -/
theorem pinLeaf_account (tree : B) (page : Nat) (s : σ × World D) :
    (pinLeaf S tree page s).2.1 = s.1 ∧
      (∀ e, (pinLeaf S tree page s).1 = .error e → account (pinLeaf S tree page s).2.2 = account s.2) ∧
      ∀ leaf, (pinLeaf S tree page s).1 = .ok leaf → account (pinLeaf S tree page s).2.2 = (0, 1) + account s.2 := by
  obtain ⟨o, w⟩ := s
  unfold pinLeaf
  cases hf : S.fetchPage tree page w.data with
  | mk r d =>
    cases r with
    | error e =>
      have hfetch : onData (S.fetchPage tree page) (o, w) = (.error e, (o, { w with data := d })) := by
        unfold onData Program.focus
        simp only [hf]
      rw [Program.bind_error hfetch]
      exact ⟨rfl, fun _ _ => rfl, fun _ h => by cases h⟩
    | ok u =>
      have hfetch : onData (S.fetchPage tree page) (o, w) = (.ok u, (o, { w with data := d })) := by
        unfold onData Program.focus
        simp only [hf]
      rw [Program.bind_ok hfetch]
      cases hd : S.decodeLeaf tree page d with
      | mk r d' =>
        have hdecode : onData (S.decodeLeaf tree page) (o, { w with data := d, pinned := w.pinned + 1 }) =
            (r, (o, { w with data := d', pinned := w.pinned + 1 })) := by
          unfold onData Program.focus
          simp only [hd]
        have htake : takePin (o, { w with data := d }) = (.ok (), (o, { w with data := d, pinned := w.pinned + 1 })) := rfl
        rw [Program.bind_ok htake]
        unfold Program.rescue
        rw [hdecode]
        cases r with
        | error e =>
          refine ⟨rfl, fun _ _ => ?_, fun _ h => by cases h⟩
          have hgive := account_givePin { w with data := d', pinned := w.pinned + 1 }
          rw [account_takePin { w with data := d' }] at hgive
          exact add_left_cancel hgive
        | ok leaf => exact ⟨rfl, fun _ h => (by cases h), fun _ _ => account_takePin _⟩

namespace RangeIterator

/-- A closed iterator holds no pin, and the account stands `c` above the pin of the iterator. -/
def Kept (c : ℤ × ℤ) (s : RangeIterator B × World D) : Prop := (s.1.closed = true → s.1.pins = 0) ∧ account s.2 = s.1.pins + c

theorem release_eq (s : RangeIterator B × World D) : ∃ guard w, release s = (.ok (), ({ s.1 with guard := guard }, w)) ∧
    pins { s.1 with guard := guard } = 0 ∧ account s.2 = s.1.pins + account w := by
  obtain ⟨⟨tree, lower, upper, guard, leaf, position, closed⟩, w⟩ := s
  rcases guard with _ | ⟨page, _ | _⟩
  · exact ⟨none, w, rfl, rfl, (zero_add _).symm⟩
  · exact ⟨some ⟨page, true⟩, { w with released := w.released + 1 }, rfl, rfl, (account_givePin w).symm⟩
  · exact ⟨some ⟨page, true⟩, w, rfl, rfl, (zero_add _).symm⟩

theorem keeps_load (page : Nat) (c : ℤ × ℤ) (s : RangeIterator B × World D) (hs : s.1.closed = false)
    (ha : account s.2 = s.1.pins + c) :
    (load S page s).2.1.closed = false ∧ account (load S page s).2.2 = (load S page s).2.1.pins + c := by
  obtain ⟨guard, w, hr, hpins, haccount⟩ := release_eq s
  have hread : own (({ s.1 with guard := guard } : RangeIterator B), w) = (.ok { s.1 with guard := guard }, (_, w)) := rfl
  unfold load
  rw [Program.bind_ok hr, Program.bind_ok hread]
  obtain ⟨hown, herror, hok⟩ := pinLeaf_account S s.1.tree page (({ s.1 with guard := guard } : RangeIterator B), w)
  have hw : account w = c := by
    rw [haccount] at ha
    exact add_left_cancel ha
  cases hp : pinLeaf S s.1.tree page (({ s.1 with guard := guard } : RangeIterator B), w) with
  | mk r t =>
    rw [hp] at hown herror hok
    cases r with
    | error e =>
      rw [Program.bind_error hp, hown]
      refine ⟨hs, ?_⟩
      show account t.2 = pins { s.1 with guard := guard } + c
      rw [herror e rfl, hpins, hw, zero_add]
    | ok leaf =>
      rw [Program.bind_ok hp]
      refine ⟨(congrArg closed hown).trans hs, ?_⟩
      show account t.2 = (0, 1) + c
      rw [hok leaf rfl, hw]

theorem close_eq (s : RangeIterator B × World D) (hs : s.1.closed = true → s.1.pins = 0) :
    ∃ it w, close s = (.ok (), (it, w)) ∧ it.closed = true ∧ it.pins = 0 ∧ account s.2 = s.1.pins + account w := by
  have hread : own s = (.ok s.1, s) := rfl
  unfold close
  rw [Program.bind_ok hread]
  cases hc : s.1.closed with
  | true  => exact ⟨s.1, s.2, rfl, hc, hs hc, by rw [hs hc, zero_add]⟩
  | false =>
    obtain ⟨guard, w, hr, hpins, haccount⟩ := release_eq (({ s.1 with closed := true } : RangeIterator B), s.2)
    refine ⟨{ s.1 with closed := true, guard := none, leaf := none }, w, ?_, rfl, rfl, haccount⟩
    show (release >>= fun _ => setOwn _) (({ s.1 with closed := true } : RangeIterator B), s.2) = _
    rw [Program.bind_ok hr]
    rfl

theorem keeps_close (c : ℤ × ℤ) : Program.Keeps (Kept c) (close (B := B) (D := D)) := by
  intro s hs
  obtain ⟨it, w, hr, hclosed, hpins, haccount⟩ := close_eq s hs.1
  rw [hr]
  refine ⟨fun _ => hpins, ?_⟩
  show account w = it.pins + c
  rw [hs.2] at haccount
  rw [hpins, zero_add]
  exact (add_left_cancel haccount).symm

theorem keeps_round (c : ℤ × ℤ) : Program.Keeps (Kept c) (round S) := by
  intro s hs
  have hread : own s = (.ok s.1, s) := rfl
  unfold round
  rw [Program.bind_ok hread]
  cases hc : s.1.closed with
  | true  => exact hs
  | false =>
    rw [if_neg Bool.false_ne_true]
    cases hleaf : s.1.leaf with
    | none      => exact hs
    | some leaf =>
      cases hentry : leaf.entries[s.1.position]? with
      | some entry =>
        simp only [hentry]
        refine Program.Keeps.bind (keeps_setOwn fun s hs => hs) (fun _ => ?_) s hs
        exact .ite (.pure _) (.ite (.bind (keeps_close c) fun _ => .pure _) (.pure _))
      | none =>
        simp only [hentry]
        cases leaf.rightSibling with
        | none      => exact Program.Keeps.bind (keeps_close c) (fun _ => .pure _) s hs
        | some page =>
          have hload := keeps_load S page c s hc hs.2
          show Kept c ((load S page >>= fun _ => pure (Sum.inl ())) s).2
          cases hr : load S page s with
          | mk r t =>
            rw [hr] at hload
            cases r with
            | error e =>
              rw [Program.bind_error hr]
              exact ⟨fun h => absurd (h.symm.trans hload.1) Bool.noConfusion, hload.2⟩
            | ok u =>
              rw [Program.bind_ok hr]
              exact ⟨fun h => absurd (h.symm.trans hload.1) Bool.noConfusion, hload.2⟩

/-- **A call of the iterator keeps the account**, whether it returns or raises. -/
theorem keeps_next (n : Nat) (c : ℤ × ℤ) : Program.Keeps (Kept c) (next S n) := .loop (fun _ => keeps_round S c) n ()

end RangeIterator
/-! ## Leaves -/

theorem orderly_executor {h : Operator D} {Fine : h.State → Prop} (ho : h.Orderly account Fine) :
    (executor h).Orderly account (h.StageFine Fine) := ho.stage _ _

theorem orderly_values (rows : List (List BoundExpr)) : (values (D := D) A rows).Orderly account fun _ => True := by
  refine Hooks.leaf_orderly trivial rfl (fun c s _ hs => hs) (fun c => .bind (.read _) fun index => ?_) (fun c => .pure _)
    (fun s _ => rfl) fun s _ => rfl
  split
  · exact .pure _
  · exact .bind (keeps_setOwn fun s hs => hs) fun _ => .bind (.ofExcept _) fun _ => .pure _

theorem orderly_seqScan (tableId : Nat) : (seqScan S tableId).Orderly account fun _ => True := by
  have hdata : ∀ {α : Type} (c : ℤ × ℤ) (x : Program Failure D α), Program.Keeps
      (fun s : Option I × World D => True ∧ Hooks.OwnKept account nothing c s) (onData x) :=
    fun c x => keeps_onData (fun _ _ hs => hs) x
  refine Hooks.leaf_orderly trivial rfl (fun c s _ hs => ?_) (fun c => .bind (.read _) fun iterator => ?_)
    (fun c => keeps_setOwn fun s hs => hs) (fun s _ => rfl) fun s _ => rfl
  · exact Program.Keeps.bind (hdata c _) (fun _ => .bind (hdata c _) fun _ => keeps_setOwn fun s hs => hs) s hs
  · split
    · exact .raise _
    · refine .bind (hdata c _) fun p => .bind (keeps_setOwn fun s hs => hs) fun _ => ?_
      split
      · exact .pure _
      · exact .bind (hdata c _) fun _ => .pure _

namespace IndexScan

/-- A range iterator that is closed holds no pin. -/
def Fine (s : IndexScan B) : Prop := ∀ it, s.iterator = some (.range it) → it.closed = true → it.pins = 0

def Kept (c : ℤ × ℤ) (s : IndexScan B × World D) : Prop := Fine s.1 ∧ Hooks.OwnKept account pins c s

theorem keeps_data (c : ℤ × ℤ) (x : Program Failure D α) : Program.Keeps (Kept (B := B) c) (onData x) :=
  keeps_onData (fun _ _ hs => hs) x

theorem keeps_access (tableId : Nat) (c : ℤ × ℤ) : Program.Keeps (Kept c) (access S tableId) :=
  .bind (keeps_data c _) fun _ => .ite (.pure _) (.raise _)

/-- **A range is opened on a scan that holds no pin.** -/
theorem kept_openRange (tree : B) (lower upper : Key) {c : ℤ × ℤ} {s : IndexScan B × World D} (hs : s.1.pins = 0 ∧ Kept c s) :
    Kept c (openRange S tree lower upper s).2 := by
  unfold openRange
  split
  · exact hs.2
  · have hpage : Program.Keeps (fun s : IndexScan B × World D => s.1.pins = 0 ∧ Kept c s) (onData (S.firstLeafPage tree lower)) :=
      keeps_onData (fun _ _ hs => hs) _
    refine hpage.andThen (fun _ hs => hs.2) (fun page s hs => ?_) s hs
    obtain ⟨hp, hfine, haccount⟩ := hs
    have hc : account s.2 = c := by
      rw [show account s.2 = pins s.1 + c from haccount, hp, zero_add]
    obtain ⟨hsame, herror, hok⟩ := pinLeaf_account S tree page s
    cases hl : pinLeaf S tree page s with
    | mk r t =>
      rw [hl] at hsame herror hok
      cases r with
      | error e =>
        rw [Program.bind_error hl]
        refine ⟨show Fine t.1 from hsame ▸ hfine, ?_⟩
        show account t.2 = pins t.1 + c
        rw [herror e rfl, hsame, hp, hc, zero_add]
      | ok leaf =>
        rw [Program.bind_ok hl]
        refine ⟨fun it hit hclosed => ?_, ?_⟩
        · cases hit
          cases hclosed
        · show account t.2 = (0, 1) + c
          rw [hok leaf rfl, hc]

theorem kept_open (tableId indexId : Nat) (lower upper : Key) {c : ℤ × ℤ} {s : IndexScan B × World D}
    (hs : s.1.pins = 0 ∧ Kept c s) :
    Kept c (open_ S tableId indexId lower upper s).2 := by
  have hdata : ∀ {α : Type} (x : Program Failure D α),
    Program.Keeps (fun s : IndexScan B × World D => s.1.pins = 0 ∧ Kept c s) (onData x) :=
    fun x => keeps_onData (fun _ _ hs => hs) x
  refine Program.Keeps.andThen (.bind (hdata _) fun _ => .ite (.pure _) (.raise _)) (fun _ hs => hs.2) (fun _ s hs => ?_) s hs
  refine Program.Keeps.andThen (hdata _) (fun _ hs => hs.2) (fun binding s hs => ?_) s hs
  cases binding with
  | none      => exact hs.2
  | some tree =>
    dsimp only
    split
    · refine Program.Keeps.andThen (hdata _) (fun _ hs => hs.2) (fun tids s hs => ⟨(fun it hit => by cases hit), ?_⟩) s hs
      have haccount : account s.2 = pins s.1 + c := hs.2.2
      rw [hs.1] at haccount
      exact haccount
    · exact kept_openRange S tree lower upper hs

theorem kept_onRange {it : RangeIterator B} {x : Program Failure (RangeIterator B × World D) α} {c : ℤ × ℤ}
    {s : IndexScan B × World D} (hit : s.1.iterator = some (.range it))
    (hx : Program.Keeps (RangeIterator.Kept c) x) (hs : Kept c s) :
    Kept c (onRange it x s).2 := by
  have hpins : pins s.1 = it.pins := by
    unfold pins
    rw [hit]
  obtain ⟨hfine, haccount⟩ := hx (it, s.2) ⟨hs.1 it hit, hpins ▸ hs.2⟩
  refine ⟨fun it' hit' => ?_, haccount⟩
  cases hit'
  exact hfine

theorem keeps_advance (c : ℤ × ℤ) : Program.Keeps (Kept c) (advance S n) := by
  intro s hs
  have hread : own s = (.ok s.1, s) := rfl
  unfold advance
  rw [Program.bind_ok hread]
  rcases hit : s.1.iterator with _ | (tids | it)
  · exact hs
  · cases tids with
    | nil => exact hs
    | cons tid tids =>
      refine ⟨(fun it hit => by cases hit), ?_⟩
      have : account s.2 = pins s.1 + c := hs.2
      unfold pins at this
      rw [hit] at this
      exact this
  · have hnext := kept_onRange hit (RangeIterator.keeps_next S n c) hs
    show Kept c ((onRange it (RangeIterator.next S n) >>= fun entry => pure (entry.map Prod.snd)) s).2
    cases hr : onRange it (RangeIterator.next S n) s with
    | mk r t =>
      rw [hr] at hnext
      cases r with
      | error e =>
        rw [Program.bind_error hr]
        exact hnext
      | ok entry =>
        rw [Program.bind_ok hr]
        exact hnext

theorem keeps_resolve (tableId : Nat) (tid : TID) (c : ℤ × ℤ) : Program.Keeps (Kept c) (resolve S tableId tid) := by
  refine .ite (.bind (keeps_data c _) fun found => ?_) (.bind (keeps_data c _) fun _ => .pure _)
  split
  · exact .pure _
  · exact .bind (.read _) fun _ => .ite (.pure _) (.bind (keeps_setOwn fun s hs => hs) fun _ => .pure _)

theorem keeps_next (tableId : Nat) (predicate : Option BoundExpr) (c : ℤ × ℤ) :
    Program.Keeps (Kept c) (next S A n tableId predicate) := by
  refine .bind (keeps_access S tableId c) fun _ => .loop (fun _ => .bind (keeps_advance S n c) fun candidate => ?_) n ()
  split
  · exact .pure _
  · refine .bind (keeps_resolve S tableId _ c) fun found => ?_
    split
    · exact .pure _
    · split
      · exact .pure _
      · exact .bind (.ofExcept _) fun v => .ite (.pure _) (.pure _)

/-- **Closing a scan closes its range iterator**, and cannot raise. -/
theorem close_eq {s : IndexScan B × World D} (hs : Fine s.1) :
    ∃ w, close s = (.ok (), (⟨none, []⟩, w)) ∧ account s.2 = pins s.1 + account w := by
  have hread : own s = (.ok s.1, s) := rfl
  unfold close pins
  rw [Program.bind_ok hread]
  rcases hit : s.1.iterator with _ | (tids | it)
  · exact ⟨s.2, rfl, (zero_add _).symm⟩
  · exact ⟨s.2, rfl, (zero_add _).symm⟩
  · obtain ⟨it', w, hr, -, -, haccount⟩ := RangeIterator.close_eq (it, s.2) (hs it hit)
    have hrange : onRange it RangeIterator.close s =
        (.ok (), (({ s.1 with iterator := some (.range it') } : IndexScan B), w)) := by
      unfold onRange Program.focus
      simp only [hr]
    refine ⟨w, ?_, haccount⟩
    show (onRange it RangeIterator.close >>= fun _ => setOwn fun _ => ⟨none, []⟩) s = _
    rw [Program.bind_ok hrange]
    rfl

end IndexScan

theorem orderly_indexScan (tableId indexId : Nat) (lower upper : Key) (predicate : Option BoundExpr) :
    (indexScan S A n tableId indexId lower upper predicate).Orderly account IndexScan.Fine := by
  refine Hooks.leaf_orderly (fun it hit => by cases hit) rfl
    (fun c s hp hs => IndexScan.kept_open S tableId indexId lower upper ⟨hp, hs⟩)
    (IndexScan.keeps_next S A n tableId predicate) (fun c s hs => ?_) (fun s hs => ?_) fun s hs => ?_
  · obtain ⟨w, hr, haccount⟩ := IndexScan.close_eq hs.1
    rw [hr]
    refine ⟨(fun it hit => by cases hit), ?_⟩
    have : account s.2 = IndexScan.pins s.1 + c := hs.2
    rw [this] at haccount
    show account w = 0 + c
    rw [zero_add]
    exact (add_left_cancel haccount).symm
  · obtain ⟨w, hr, -⟩ := IndexScan.close_eq hs
    rw [hr]
  · obtain ⟨w, hr, -⟩ := IndexScan.close_eq hs
    rw [hr]
    rfl

/-! ## Operators with one child -/

section one

variable {child : Executor D} {Fine : child.State → Prop} {O : Type}

/-- What an operator that holds nothing itself keeps. -/
abbrev Kept (child : Executor D) (Fine : child.State → Prop) (O : Type) (c : ℤ × ℤ) : (O × child.State) × World D → Prop :=
  Hooks.ChildKept account child Fine (nothing (σ := O)) c

theorem keeps_read (c : ℤ × ℤ) : Program.Keeps (Kept child Fine O c) (Hooks.onOwn own) := fun _ hs => hs

theorem keeps_set (f : O → O) (c : ℤ × ℤ) : Program.Keeps (Kept child Fine O c) (Hooks.onOwn (setOwn f)) := fun _ hs => hs

theorem keeps_data (c : ℤ × ℤ) (x : Program Failure D α) : Program.Keeps (Kept child Fine O c) (onData x) :=
  keeps_onData (fun _ _ hs => hs) x

variable (hchild : child.Orderly account Fine)
include hchild

theorem orderly_filter (predicate : BoundExpr) : (filter A n child predicate).Orderly account fun s => Fine s.2 := by
  refine Hooks.unary_orderly_closeChild hchild (Hooks.keeps_onChild hchild.open_) fun c => .loop (fun _ => ?_) n ()
  refine .bind (Hooks.keeps_onChild hchild.next c) fun row => ?_
  cases row with
  | none     => exact .pure _
  | some row => exact .bind (.ofExcept _) fun v => .ite (.pure _) (.pure _)

theorem orderly_project (items : List BoundSelectItem) : (project A child items).Orderly account fun s => Fine s.2 := by
  refine Hooks.unary_orderly_closeChild hchild (Hooks.keeps_onChild hchild.open_) fun c => ?_
  refine .bind (Hooks.keeps_onChild hchild.next c) fun row => ?_
  cases row with
  | none     => exact .pure _
  | some row => exact .bind (.ofExcept _) fun out => .pure _

omit hchild in
theorem keeps_computed (c : ℤ × ℤ) : Program.Keeps (Kept child Fine Computed c) Computed.next := by
  refine .bind (keeps_read c) fun s => ?_
  split
  · exact .pure _
  · exact .bind (keeps_set _ c) fun _ => .pure _

theorem orderly_aggregate (groupBy aggregates : List BoundExpr) :
    (aggregate A n child groupBy aggregates).Orderly account fun s => Fine s.2 := by
  refine Hooks.unary_orderly_closeChild hchild (fun c => .bind (Hooks.keeps_onChild hchild.open_ c) fun _ => ?_) keeps_computed
  refine .bind (.whileSome (Hooks.keeps_onChild hchild.next c) (fun _ _ => .ofExcept _) n []) fun groups => ?_
  exact .bind (.ofExcept _) fun rows => keeps_set _ c

theorem orderly_sort (orderBy : List BoundOrderItem) : (sort A n child orderBy).Orderly account fun s => Fine s.2 := by
  refine Hooks.unary_orderly_closeChild hchild (fun c => .bind (Hooks.keeps_onChild hchild.open_ c) fun _ => ?_) keeps_computed
  refine .bind (.whileSome (Hooks.keeps_onChild hchild.next c) (fun _ _ => keeps_set _ c) n ()) fun _ => ?_
  exact .bind (keeps_read c) fun s => .bind (.ofExcept _) fun rows => keeps_set _ c

theorem orderly_limit (count : Nat) : (limit child count).Orderly account fun s => Fine s.2 := by
  refine Hooks.unary_orderly_closeChild hchild (Hooks.keeps_onChild hchild.open_) fun c => ?_
  refine .bind (keeps_read c) fun emitted => .ite (.pure _) (.bind (Hooks.keeps_onChild hchild.next c) fun row => ?_)
  exact .ite (.bind (keeps_set _ c) fun _ => .pure _) (.pure _)

/-! ### Modifications -/

theorem keeps_gather {β : Type} (candidate : ExecutionRow → Result β) (c : ℤ × ℤ) :
    Program.Keeps (Kept child Fine Modification c) (gather n child candidate) := by
  refine .bind (Hooks.keeps_onChild hchild.open_ c) fun _ => .finally_ ?_ (Hooks.keeps_onChild hchild.close c)
  exact .whileSome (Hooks.keeps_onChild hchild.next c) (fun _ _ => .bind (.ofExcept _) fun _ => .pure _) n []

omit hchild in
theorem keeps_modification (c : ℤ × ℤ) : Program.Keeps (Kept child Fine Modification c) Modification.next :=
  .bind (keeps_read c) fun _ => .ite (.pure _) (.bind (keeps_set _ c) fun _ => .pure _)

omit hchild in
theorem keeps_versioned (tableId : Nat) (c : ℤ × ℤ) : Program.Keeps (Kept child Fine O c) (versioned S tableId) :=
  .bind (keeps_data c _) fun _ => .pure _

omit hchild in
theorem keeps_insertRows (tableId : Nat) (mvcc : Bool) (c : ℤ × ℤ) : ∀ (candidates : List Values) (inserted : List TID),
    Program.Keeps (Kept child Fine O c) (insertRows S tableId mvcc candidates inserted)
  | [], _                  => .pure _
  | _ :: candidates, inserted => by
    refine .bind (.rescue (keeps_data c _) fun e => .bind (.ite (.pure _) ?_) fun _ => .raise e) fun tid =>
      keeps_insertRows tableId mvcc c candidates (inserted ++ [tid])
    exact .forEach (fun tid => .bind (keeps_data c _) fun _ => .pure _) inserted.reverse

theorem orderly_insert (table : BoundTable) (targetColumns : List Nat) :
    (insert S n child table targetColumns).Orderly account fun s => Fine s.2 := by
  refine Hooks.unary_orderly_closeChild hchild (fun c => ?_) keeps_modification
  refine .bind (keeps_gather n hchild _ c) fun candidates => .bind (keeps_versioned S _ c) fun mvcc => ?_
  exact .bind (keeps_insertRows S _ mvcc c candidates []) fun _ => keeps_set _ c

omit hchild in
theorem keeps_updateRow (tableId : Nat) (mvcc : Bool) (recheck : Option (Values → Result Bool)) (tid : TID)
    (values : Values) (c : ℤ × ℤ) :
    Program.Keeps (Kept child Fine O c) (updateRow S tableId mvcc recheck tid values) := by
  refine .bind (keeps_data c _) fun oldValues => ?_
  cases oldValues with
  | none           => exact .raise _
  | some oldValues =>
    refine .bind (keeps_data c _) fun p => .ite (.pure _) ?_
    split
    · exact .raise _
    · exact .pure _

omit hchild in
theorem keeps_updateRows (tableId : Nat) (mvcc : Bool) (recheck : Option (Values → Result Bool)) (c : ℤ × ℤ) :
    ∀ candidates applied : List (TID × Values), Program.Keeps (Kept child Fine O c)
    (updateRows S tableId mvcc recheck candidates applied)
  | [], _                            => .pure _
  | (tid, values) :: candidates, applied => by
    refine .bind (.rescue (keeps_updateRow S tableId mvcc recheck tid values c) fun e =>
      .bind (.ite (.pure _) ?_) fun _ => .raise e)
      fun change => keeps_updateRows tableId mvcc recheck c candidates (applied ++ change.toList)
    exact .forEach (fun p => .bind (keeps_data c _) fun restored => .ite (.raise _) (.pure _)) applied.reverse

theorem orderly_update (table : BoundTable) (assignments : List BoundAssignment) (recheckPredicate : Option BoundExpr) :
    (update S A n child table assignments recheckPredicate).Orderly account fun s => Fine s.2 := by
  refine Hooks.unary_orderly_closeChild hchild (fun c => ?_) keeps_modification
  refine .bind (keeps_gather n hchild _ c) fun candidates => .bind (keeps_versioned S _ c) fun mvcc => ?_
  exact .bind (keeps_updateRows S _ mvcc _ c candidates []) fun _ => keeps_set _ c

omit hchild in
theorem keeps_deleteRows (tableId : Nat) (mvcc : Bool) (recheck : Option (Values → Result Bool)) (c : ℤ × ℤ) :
    ∀ (tids : List TID) (affected : Nat), Program.Keeps (Kept child Fine O c) (deleteRows S tableId mvcc recheck tids affected)
  | [], _        => .pure _
  | _ :: tids, _ => .bind (keeps_data c _) fun _ => keeps_deleteRows tableId mvcc recheck c tids _

theorem orderly_delete (table : BoundTable) (recheckPredicate : Option BoundExpr) :
    (delete S A n child table recheckPredicate).Orderly account fun s => Fine s.2 := by
  refine Hooks.unary_orderly_closeChild hchild (fun c => ?_) keeps_modification
  refine .bind (keeps_gather n hchild _ c) fun tids => .bind (keeps_versioned S _ c) fun mvcc => ?_
  exact .bind (keeps_deleteRows S _ mvcc _ c tids 0) fun _ => keeps_set _ c

end one

/-! ## Joins -/

section two

variable {left right : Executor D} {FineL : left.State → Prop} {FineR : right.State → Prop} {O : Type}

/-- What a join keeps. -/
abbrev BothKept (left right : Executor D) (FineL : left.State → Prop) (FineR : right.State → Prop) (O : Type) (c : ℤ × ℤ) :
    (O × left.State × right.State) × World D → Prop := Hooks.ChildrenKept account left right FineL FineR c

theorem keeps_readBoth (c : ℤ × ℤ) : Program.Keeps (BothKept left right FineL FineR O c) (Hooks.onOwn own) := fun _ hs => hs

theorem keeps_setBoth (f : O → O) (c : ℤ × ℤ) : Program.Keeps (BothKept left right FineL FineR O c) (Hooks.onOwn (setOwn f)) :=
  fun _ hs => hs

variable (hleft : left.Orderly account FineL) (hright : right.Orderly account FineR)
include hleft hright

theorem orderly_nestedLoopJoin (condition : BoundExpr) :
    (nestedLoopJoin A n left right condition).Orderly account fun s => FineL s.2.1 ∧ FineR s.2.2 := by
  refine Hooks.binary_orderly hleft hright (fun c => ?_) fun c => .loop (fun _ => .bind (keeps_readBoth c) fun s => ?_) n ()
  · refine .bind (Hooks.keeps_onLeft hleft.open_ c) fun _ => .bind (Hooks.keeps_onRight hright.open_ c) fun _ => ?_
    exact .bind (Hooks.keeps_onRight (hright.drain _ n) c) fun rows => keeps_setBoth _ c
  · split
    · exact .bind (Hooks.keeps_onLeft hleft.next c) fun row => .bind (keeps_setBoth _ c) fun _ => .ite (.pure _) (.pure _)
    · split
      · exact .bind (keeps_setBoth _ c) fun _ => .pure _
      · refine .bind (keeps_setBoth _ c) fun _ => .bind (.ofExcept _) fun merged => ?_
        exact .bind (.ofExcept _) fun v => .ite (.pure _) (.pure _)

theorem orderly_hashJoin (leftKey rightKey condition : BoundExpr) :
    (hashJoin A n left right leftKey rightKey condition).Orderly account fun s => FineL s.2.1 ∧ FineR s.2.2 := by
  refine Hooks.binary_orderly hleft hright (fun c => ?_) fun c => .loop (fun _ => .bind (keeps_readBoth c) fun s => ?_) n ()
  · refine .bind (Hooks.keeps_onLeft hleft.open_ c) fun _ => .bind (Hooks.keeps_onRight hright.open_ c) fun _ => ?_
    exact .whileSome (Hooks.keeps_onRight hright.next c) (fun _ _ => .bind (.ofExcept _) fun key => keeps_setBoth _ c) n ()
  · split
    · exact .bind (keeps_setBoth _ c) fun _ => .pure _
    · refine .bind (Hooks.keeps_onLeft hleft.next c) fun row => ?_
      cases row with
      | none         => exact .pure _
      | some leftRow =>
        refine .bind (.ofExcept _) fun key => .bind (keeps_setBoth _ c) fun _ => .bind ?_ fun _ =>
          .bind (keeps_setBoth _ c) fun _ => .pure _
        refine .forEach (fun rightRow => .bind (.ofExcept _) fun merged => .bind (.ofExcept _) fun v => ?_) _
        exact .ite (keeps_setBoth _ c) (.pure _)

end two

/-! ## Instrumentation -/

namespace Instrumented

theorem account_openCount (w : World D) : account { w with openCount := w.openCount + 1 } = (1, 0) + account w := by
  unfold account
  ext
  · simp only [Nat.cast_add, Nat.cast_one, Prod.fst_add]
    omega
  · simp

theorem account_closeCount (w : World D) : (1, 0) + account { w with closeCount := w.closeCount + 1 } = account w := by
  unfold account
  ext
  · simp only [Nat.cast_add, Nat.cast_one, Prod.fst_add]
    omega
  · simp

theorem kept_register {c : ℤ × ℤ} {s : Instrumented × World D} (ho : s.1.owes = 0) (hs : Hooks.OwnKept account owes c s) :
    Hooks.OwnKept account owes c (register s).2 := by
  show account { s.2 with openCount := s.2.openCount + 1 } = (1, 0) + c
  rw [account_openCount, show account s.2 = s.1.owes + c from hs, ho, zero_add]

theorem unregister_eq (s : Instrumented × World D) :
    ∃ t, unregister s = (.ok (), t) ∧ t.1.owes = 0 ∧ account s.2 = s.1.owes + account t.2 := by
  obtain ⟨⟨registeredOpen, actualRows⟩, w⟩ := s
  cases registeredOpen with
  | true  => exact ⟨_, rfl, rfl, (account_closeCount w).symm⟩
  | false => exact ⟨_, rfl, rfl, (zero_add _).symm⟩

theorem keeps_unregister (c : ℤ × ℤ) : Program.Keeps (Hooks.OwnKept account owes c) (unregister (D := D)) := by
  intro s hs
  obtain ⟨t, hr, ho, haccount⟩ := unregister_eq s
  rw [hr]
  show account t.2 = t.1.owes + c
  rw [show account s.2 = s.1.owes + c from hs] at haccount
  rw [ho, zero_add]
  exact (add_left_cancel haccount).symm

end Instrumented

/-- **An instrumented executor counts as many closes as opens.** -/
theorem orderly_instrumented {delegate : Executor D} {Fine : delegate.State → Prop} (hd : delegate.Orderly account Fine) :
    (instrumented delegate).Orderly account fun s => Fine s.2 := by
  have hclose : ∀ s : (Instrumented × delegate.State) × World D, Fine s.1.2 →
      (instrumented delegate).close s = (.ok (), ((instrumented delegate).close s).2) ∧
        delegate.closed ((instrumented delegate).close s).2.1.2 = true ∧ ((instrumented delegate).close s).2.1.1.owes = 0 := by
    intro s hs
    have hreturns := hd.returns (s.1.2, s.2) hs
    obtain ⟨t, hr, ho, -⟩ := Instrumented.unregister_eq (s.1.1, (delegate.close (s.1.2, s.2)).2.2)
    have hown : Hooks.onOwn (C := delegate.State) Instrumented.unregister (Hooks.onChild delegate.close s).2 =
        (.ok (), ((t.1, (delegate.close (s.1.2, s.2)).2.1), t.2)) := by
      unfold Hooks.onOwn Hooks.onChild Program.focus
      simp only [hr]
    show Program.finally_ (Hooks.onChild delegate.close) (Hooks.onOwn Instrumented.unregister) s = (.ok (), _) ∧ _
    have heq := Program.finally_ok (x := Hooks.onChild delegate.close) (congrArg Prod.fst hown)
    rw [hown, show (Hooks.onChild delegate.close s).1 = .ok () from hreturns] at heq
    have hhook : (instrumented delegate).close s = (.ok (), ((t.1, (delegate.close (s.1.2, s.2)).2.1), t.2)) := heq
    rw [hhook]
    exact ⟨heq, hd.closes (s.1.2, s.2) hs, ho⟩
  refine Hooks.unary_orderly hd rfl (fun c s ho hs => ?_) (fun c => ?_) (fun c => ?_)
    (fun s hs => (congrArg Prod.fst (hclose s hs).1))
    (fun s hs => (hclose s hs).2.1) fun s hs => (hclose s hs).2.2
  · have hregister := Instrumented.kept_register (s := (s.1.1, s.2)) (c := total (delegate.report s.1.2) + c) ho (by
      show account s.2 = s.1.1.owes + _
      rw [hs.2, add_assoc])
    exact Hooks.keeps_onChild hd.open_ c (Hooks.onOwn Instrumented.register s).2 ⟨hs.1, by
      show account (Instrumented.register (s.1.1, s.2)).2.2 = _
      rw [hregister, ← add_assoc]
      rfl⟩
  · refine .bind (Hooks.keeps_onChild hd.next c) fun row => ?_
    exact .ite (.bind (Hooks.keeps_onOwn (fun c => fun _ hs => hs) c) fun _ => .pure _) (.pure _)
  · exact .finally_ (Hooks.keeps_onChild hd.close c) (Hooks.keeps_onOwn Instrumented.keeps_unregister c)

/-! ## Plans -/

theorem orderly_wrap (session : Bool) {h : Operator D} {Fine : h.State → Prop} (ho : h.Orderly account Fine) :
    ∃ Fine, (wrap session (executor h)).Orderly account Fine := by
  cases session with
  | true  => exact ⟨_, orderly_executor (orderly_instrumented (orderly_executor ho))⟩
  | false => exact ⟨_, orderly_executor ho⟩

theorem except_bind_eq_ok {α β : Type 1} {x : Except Error α} {f : α → Except Error β} {b : β} :
    (x >>= f) = .ok b ↔ ∃ a, x = .ok a ∧ f a = .ok b := by
  cases x with
  | error e => exact ⟨fun h => (by cases h), fun h => (by obtain ⟨a, ha, -⟩ := h; cases ha)⟩
  | ok a    => exact ⟨fun h => ⟨a, rfl, h⟩, fun h => (by obtain ⟨a', ha, h⟩ := h; cases ha; exact h)⟩

/-- **Every plan builds an orderly executor.** -/
theorem orderly_build (session : Bool) : ∀ {plan : PhysicalPlan} {e : Executor D}, build S A n session plan = .ok e →
    ∃ Fine, e.Orderly account Fine
  | .values rows, _, h => by
    cases h
    exact orderly_wrap session (orderly_values A rows)
  | .seqScan table, _, h => by
    cases h
    exact orderly_wrap session (orderly_seqScan S table.tableId)
  | .indexScan table indexId predicate (some lowerKey) (some upperKey), _, h => by
    cases h
    exact orderly_wrap session (orderly_indexScan S A n table.tableId indexId lowerKey upperKey predicate)
  | .indexScan _ _ _ none _, _, h => by cases h
  | .indexScan _ _ _ (some _) none, _, h => by cases h
  | .filter child predicate, _, h => by
    obtain ⟨child', hb, h⟩ := except_bind_eq_ok.1 h
    obtain ⟨Fine, hc⟩ := orderly_build session hb
    cases h
    exact orderly_wrap session (orderly_filter A n hc predicate)
  | .project child items, _, h => by
    obtain ⟨child', hb, h⟩ := except_bind_eq_ok.1 h
    obtain ⟨Fine, hc⟩ := orderly_build session hb
    cases h
    exact orderly_wrap session (orderly_project A hc items)
  | .nestedLoopJoin left right condition, _, h => by
    obtain ⟨left', hbl, h⟩ := except_bind_eq_ok.1 h
    obtain ⟨right', hbr, h⟩ := except_bind_eq_ok.1 h
    obtain ⟨FineL, hl⟩ := orderly_build session hbl
    obtain ⟨FineR, hr⟩ := orderly_build session hbr
    cases h
    exact orderly_wrap session (orderly_nestedLoopJoin A n hl hr condition)
  | .hashJoin left right leftKey rightKey condition, _, h => by
    obtain ⟨left', hbl, h⟩ := except_bind_eq_ok.1 h
    obtain ⟨right', hbr, h⟩ := except_bind_eq_ok.1 h
    obtain ⟨FineL, hl⟩ := orderly_build session hbl
    obtain ⟨FineR, hr⟩ := orderly_build session hbr
    cases h
    exact orderly_wrap session (orderly_hashJoin A n hl hr leftKey rightKey condition)
  | .aggregate child groupBy aggregates, _, h => by
    obtain ⟨child', hb, h⟩ := except_bind_eq_ok.1 h
    obtain ⟨Fine, hc⟩ := orderly_build session hb
    cases h
    exact orderly_wrap session (orderly_aggregate A n hc groupBy aggregates)
  | .sort child orderBy, _, h => by
    obtain ⟨child', hb, h⟩ := except_bind_eq_ok.1 h
    obtain ⟨Fine, hc⟩ := orderly_build session hb
    cases h
    exact orderly_wrap session (orderly_sort A n hc orderBy)
  | .limit child count, _, h => by
    obtain ⟨child', hb, h⟩ := except_bind_eq_ok.1 h
    obtain ⟨Fine, hc⟩ := orderly_build session hb
    cases h
    exact orderly_wrap session (orderly_limit hc count)
  | .modifyTable operation table child targetColumns assignments recheckPredicate, _, h => by
    obtain ⟨child', hb, h⟩ := except_bind_eq_ok.1 h
    obtain ⟨Fine, hc⟩ := orderly_build session hb
    cases h
    cases operation with
    | insert => exact orderly_wrap session (orderly_insert S n hc table targetColumns)
    | update => exact orderly_wrap session (orderly_update S A n hc table assignments recheckPredicate)
    | delete => exact orderly_wrap session (orderly_delete S A n hc table recheckPredicate)

/-- **Executor trees always clean up**: when `collect` has returned or raised, every executor that was started has run its close
hook once and has closed its children, the tracker counts as many closes as opens, and every pin of a range iterator is back. -/
theorem collect_cleans_up {session : Bool} {plan : PhysicalPlan} {e : Executor D}
    (h : build S A n session plan = .ok e) (w : World D) :
    (∀ r ∈ e.report (e.collect .interrupted n (e.init, w)).2.1, r.started = true → r.closeRuns = 1 ∧ r.childrenClosed = true) ∧
      (e.collect .interrupted n (e.init, w)).2.2.openCount + w.closeCount =
        (e.collect .interrupted n (e.init, w)).2.2.closeCount + w.openCount ∧
      (e.collect .interrupted n (e.init, w)).2.2.pinned + w.released =
        (e.collect .interrupted n (e.init, w)).2.2.released + w.pinned := by
  obtain ⟨Fine, he⟩ := orderly_build S A n session h
  obtain ⟨hended, haccount⟩ := he.collect .interrupted n w
  have hopens := congrArg Prod.fst haccount
  have hpins := congrArg Prod.snd haccount
  unfold account at hopens hpins
  refine ⟨fun r hr => (hended r hr).1, ?_, ?_⟩
  · simp only at hopens
    omega
  · simp only at hpins
    omega

/-- An index with a leaf, and a right sibling of it that is corrupt. -/
def brokenIndex : Storage Unit Unit Unit where
  hasMvcc         := true
  table _         := pure true
  scan _          := pure ()
  scanMvcc _      := pure ()
  iterate _       := pure (none, ())
  findIndex _ _   := pure (some ())
  search _ _      := pure []
  firstLeafPage _ _ := pure 0
  fetchPage _ _   := pure ()
  decodeLeaf _ page :=
    if page = 0 then pure ⟨[⟨[1], ⟨0, 0⟩⟩], none, some 1⟩ else raised .corruptPage "BTree page 1 is not a leaf"
  resolveMvcc _ tid := pure (some (tid, [.int 5]))
  fetch _ _       := pure (some [.int 5])
  fetchMvcc _ _   := pure (some [.int 5])
  insert _ _      := pure ⟨0, 0⟩
  insertMvcc _ _  := pure ⟨0, 0⟩
  replace _ _ _   := pure none
  replaceMvcc _ _ _ _ := pure (none, true)
  delete _ _      := pure true
  deleteMvcc _ _ _ := pure true

/-- A range over both leaves raises at the second, and is cleaned up. -/
theorem collect_cleans_up_broken : ∃ e, build brokenIndex FloatArith.unused 9 true
    (.limit (.indexScan ⟨1, ⟨[⟨['v'], .int64, true⟩]⟩⟩ 0 none (some [0]) (some [9])) 5) = .ok e ∧
      (∀ r ∈ e.report (e.collect .interrupted 9 (e.init, ⟨(), 0, 0, 0, 0⟩)).2.1, r.started = true → r.closeRuns = 1 ∧
        r.childrenClosed = true) ∧
      (e.collect .interrupted 9 (e.init, ⟨(), 0, 0, 0, 0⟩)).2.2.pinned + 0 =
        (e.collect .interrupted 9 (e.init, ⟨(), 0, 0, 0, 0⟩)).2.2.released + 0 := by
  have h : ∃ e, build brokenIndex FloatArith.unused 9 true
      (.limit (.indexScan ⟨1, ⟨[⟨['v'], .int64, true⟩]⟩⟩ 0 none (some [0]) (some [9])) 5) = .ok e := ⟨_, rfl⟩
  obtain ⟨e, he⟩ := h
  obtain ⟨hended, -, hpins⟩ := collect_cleans_up brokenIndex FloatArith.unused 9 he ⟨(), 0, 0, 0, 0⟩
  exact ⟨e, he, hended, hpins⟩

end Executors
end MiniPostgres
