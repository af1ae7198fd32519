import MiniPostgres.Lib.Program
import Mathlib.Algebra.BigOperators.Group.List.Basic
import Mathlib.Tactic.Abel
/-!
# Stages — stages that are opened, pulled and closed, one above the other

A stage supplies three hooks; the base class runs them in order, and the close hook once, also when the open hook raises.  What
the stages of a tree draw from a shared account they give back in their close hooks.  A stage is `Orderly` when its calls keep
that account and close everything below; hooks that are orderly make an orderly stage (`Hooks.Orderly.stage`), so a tree is
orderly as soon as the hooks of each node are, for orderly children.
-/

namespace Stages

/-- What is to be said of one stage of a tree; `owes` is what it has drawn and not given back. -/
structure Record (G : Type) where
  started        : Bool
  closeRuns      : Nat
  childrenClosed : Bool
  owes           : G

/-- The calls of a stage, on its state and a world that it shares. -/
structure Stage (ε W ρ G : Type) where
  State  : Type
  init   : State
  open_  : Program ε (State × W) Unit
  next   : Program ε (State × W) (Option ρ)
  close  : Program ε (State × W) Unit
  closed : State → Bool
  /-- The stage and all below. -/
  report : State → List (Record G)

/-- What a kind of stage supplies: its hooks, on its own fields and its children. -/
structure Hooks (ε W ρ G : Type) where
  State          : Type
  init           : State
  open_          : Program ε (State × W) Unit
  next           : Program ε (State × W) (Option ρ)
  close          : Program ε (State × W) Unit
  childrenClosed : State → Bool
  owes           : State → G
  below          : State → List (Record G)

/-- The flags of the base class, and whether the open hook was started and how often the close hook has run. -/
structure Life where
  opened    : Bool
  closed    : Bool
  started   : Bool
  closeRuns : Nat
  deriving DecidableEq

variable {ε W ρ G α : Type}

/-! ## The base class -/

namespace Hooks

variable (h : Hooks ε W ρ G)

def onHooks (x : Program ε (h.State × W) α) : Program ε ((Life × h.State) × W) α :=
  .focus (fun s => (s.1.2, s.2)) (fun t s => ((s.1.1, t.1), t.2)) x

def setLife (f : Life → Life) : Program ε ((Life × h.State) × W) Unit := .modify fun s => ((f s.1.1, s.1.2), s.2)

def runClose : Program ε ((Life × h.State) × W) Unit := do
  h.setLife fun l => { l with closeRuns := l.closeRuns + 1 }
  h.onHooks h.close

/-- The stage with these hooks, and the exceptions of its base class. -/
def stage (reopened notOpen : ε) : Stage ε W ρ G where
  State := Life × h.State
  init  := (⟨false, false, false, 0⟩, h.init)
  open_ := do
    let l ← .read fun s => s.1.1
    if l.opened then pure ()
    else if l.closed then .raise reopened
    else do
      h.setLife fun l => { l with started := true }
      .rescue (h.onHooks h.open_) fun e => do
        .finally_ h.runClose (h.setLife fun l => { l with closed := true })
        .raise e
      h.setLife fun l => { l with opened := true }
  next := do
    let l ← .read fun s => s.1.1
    if !l.opened || l.closed then .raise notOpen else h.onHooks h.next
  close := do
    let l ← .read fun s => s.1.1
    if l.closed then pure ()
    else .finally_ (if l.opened then h.runClose else pure ()) (h.setLife fun l => { l with closed := true })
  closed := fun s => s.1.closed
  report := fun s => ⟨s.1.started, s.1.closeRuns, h.childrenClosed s.2, h.owes s.2⟩ :: h.below s.2

variable {h} {reopened notOpen : ε}

theorem runClose_eq (l : Life) (s : h.State) (w : W) : h.runClose ((l, s), w) =
    ((h.close (s, w)).1, (({ l with closeRuns := l.closeRuns + 1 }, (h.close (s, w)).2.1), (h.close (s, w)).2.2)) := rfl

theorem open_ok {s : h.State} {w : W} {t : h.State × W} (ho : h.open_ (s, w) = (.ok (), t)) :
    (h.stage reopened notOpen).open_ ((⟨false, false, false, 0⟩, s), w) = (.ok (), ((⟨true, false, true, 0⟩, t.1), t.2)) := by
  have hhook : h.onHooks h.open_ (((⟨false, false, true, 0⟩ : Life), s), w) =
      (.ok (), ((⟨false, false, true, 0⟩, t.1), t.2)) := by
    unfold onHooks Program.focus
    simp only [ho]
  show (Program.rescue (h.onHooks h.open_) _ >>= _) (((⟨false, false, true, 0⟩ : Life), s), w) = _
  rw [Program.bind_ok (a := ()) (t := ((⟨false, false, true, 0⟩, t.1), t.2)) (by unfold Program.rescue; rw [hhook])]
  rfl

theorem open_error {s : h.State} {w : W} {e : ε} {t : h.State × W} (ho : h.open_ (s, w) = (.error e, t))
    (hc : (h.close t).1 = .ok ()) : (h.stage reopened notOpen).open_ ((⟨false, false, false, 0⟩, s), w) =
      (.error e, ((⟨false, true, true, 1⟩, (h.close t).2.1), (h.close t).2.2)) := by
  have hhook : h.onHooks h.open_ (((⟨false, false, true, 0⟩ : Life), s), w) =
      (.error e, ((⟨false, false, true, 0⟩, t.1), t.2)) := by
    unfold onHooks Program.focus
    simp only [ho]
  show (Program.rescue (h.onHooks h.open_) _ >>= _) (((⟨false, false, true, 0⟩ : Life), s), w) = _
  rw [Program.bind_error (e := e) (t := ((⟨false, true, true, 1⟩, (h.close t).2.1), (h.close t).2.2))]
  unfold Program.rescue
  rw [hhook]
  show (Program.finally_ h.runClose _ >>= _) _ = _
  rw [Program.bind_ok (a := ()) (t := ((⟨false, true, true, 1⟩, (h.close t).2.1), (h.close t).2.2))]
  · rfl
  · unfold Program.finally_
    rw [runClose_eq, hc]
    rfl

theorem close_running {s : h.State} {w : W} (hc : (h.close (s, w)).1 = .ok ()) :
    (h.stage reopened notOpen).close ((⟨true, false, true, 0⟩, s), w) =
      (.ok (), ((⟨true, true, true, 1⟩, (h.close (s, w)).2.1), (h.close (s, w)).2.2)) := by
  show Program.finally_ h.runClose (h.setLife fun l => { l with closed := true }) ((⟨true, false, true, 0⟩, s), w) = _
  unfold Program.finally_
  rw [runClose_eq, hc]
  rfl

end Hooks

/-! ## What is kept -/

variable [AddCommGroup G]

def total (records : List (Record G)) : G := (records.map Record.owes).sum

/-- The stage has not been opened. -/
def Record.Untouched (r : Record G) : Prop := r.started = false ∧ r.owes = 0

/-- **A stage that was started has run its close hook once, and its children are closed**; it owes nothing. -/
def Record.Ended (r : Record G) : Prop := (r.started = true → r.closeRuns = 1 ∧ r.childrenClosed = true) ∧ r.owes = 0

theorem Record.Untouched.ended {r : Record G} (h : r.Untouched) : r.Ended :=
  ⟨fun hs => absurd (hs.symm.trans h.1) Bool.noConfusion, h.2⟩

theorem total_eq_zero : ∀ {records : List (Record G)}, (∀ r ∈ records, r.owes = 0) → total records = 0
  | [], _           => rfl
  | r :: records, h => by
    unfold total
    rw [List.map_cons, List.sum_cons, h r List.mem_cons_self, zero_add]
    exact total_eq_zero fun r' hr => h r' (List.mem_cons_of_mem _ hr)

variable (account : W → G)

/-- The state is fine, and the account stands `c` above what the stages owe. -/
def Stage.Balanced (m : Stage ε W ρ G) (Fine : m.State → Prop) (c : G) (s : m.State × W) : Prop :=
  Fine s.1 ∧ account s.2 = total (m.report s.1) + c

def Hooks.Balanced (h : Hooks ε W ρ G) (Fine : h.State → Prop) (c : G) (s : h.State × W) : Prop :=
  Fine s.1 ∧ account s.2 = h.owes s.1 + total (h.below s.1) + c

structure Stage.Orderly (m : Stage ε W ρ G) (Fine : m.State → Prop) : Prop where
  init      : Fine m.init
  untouched : ∀ r ∈ m.report m.init, r.Untouched
  open_     : ∀ c, Program.Keeps (m.Balanced account Fine c) m.open_
  next      : ∀ c, Program.Keeps (m.Balanced account Fine c) m.next
  close     : ∀ c, Program.Keeps (m.Balanced account Fine c) m.close
  /-- A stage that cannot be opened is closed. -/
  refused   : ∀ s e, Fine s.1 → (m.open_ s).1 = .error e → m.closed (m.open_ s).2.1 = true
  returns   : ∀ s, Fine s.1 → (m.close s).1 = .ok ()
  closes    : ∀ s, Fine s.1 → m.closed (m.close s).2.1 = true
  ended     : ∀ s, Fine s → m.closed s = true → ∀ r ∈ m.report s, r.Ended

structure Hooks.Orderly (h : Hooks ε W ρ G) (Fine : h.State → Prop) : Prop where
  init      : Fine h.init
  owes      : h.owes h.init = 0
  untouched : ∀ r ∈ h.below h.init, r.Untouched
  /-- The open hook runs on a stage that has drawn nothing. -/
  open_     : ∀ c s, h.owes s.1 = 0 → h.Balanced account Fine c s → h.Balanced account Fine c (h.open_ s).2
  next      : ∀ c, Program.Keeps (h.Balanced account Fine c) h.next
  close     : ∀ c, Program.Keeps (h.Balanced account Fine c) h.close
  returns   : ∀ s, Fine s.1 → (h.close s).1 = .ok ()
  closes    : ∀ s, Fine s.1 → h.childrenClosed (h.close s).2.1 = true
  settles   : ∀ s, Fine s.1 → h.owes (h.close s).2.1 = 0
  ended     : ∀ s, Fine s → h.childrenClosed s = true → ∀ r ∈ h.below s, r.Ended

variable {account}

/-! ## Orderly hooks make an orderly stage -/

namespace Hooks

variable {h : Hooks ε W ρ G} {Fine : h.State → Prop} {reopened notOpen : ε}

/-- Where a stage stands between two calls. -/
inductive Phase (h : Hooks ε W ρ G) : Life → h.State → Prop
  | idle {closed : Bool} {s : h.State} (ho : h.owes s = 0) (hu : ∀ r ∈ h.below s, r.Untouched) :
    Phase h ⟨false, closed, false, 0⟩ s
  | running {s : h.State} : Phase h ⟨true, false, true, 0⟩ s
  | done {opened : Bool} {s : h.State} (ho : h.owes s = 0) (hc : h.childrenClosed s = true) : Phase h ⟨opened, true, true, 1⟩ s

def StageFine (h : Hooks ε W ρ G) (Fine : h.State → Prop) (s : Life × h.State) : Prop := Fine s.2 ∧ h.Phase s.1 s.2

theorem total_stage (s : (h.stage reopened notOpen).State) :
    total ((h.stage reopened notOpen).report s) = h.owes s.2 + total (h.below s.2) := by
  show total (_ :: _) = _
  unfold total
  rw [List.map_cons, List.sum_cons]

theorem balanced_stage {c : G} {s : (h.stage reopened notOpen).State × W} :
    (h.stage reopened notOpen).Balanced account (h.StageFine Fine) c s ↔
      h.Balanced account Fine c (s.1.2, s.2) ∧ h.Phase s.1.1 s.1.2 := by
  unfold Stage.Balanced Balanced StageFine
  rw [total_stage]
  tauto

namespace Orderly

variable (ho : h.Orderly account Fine)
include ho

theorem after_open {c : G} {s : (h.stage reopened notOpen).State × W} (hb : h.Balanced account Fine c (s.1.2, s.2))
    (hp : h.Phase s.1.1 s.1.2) :
    h.Balanced account Fine c (((h.stage reopened notOpen).open_ s).2.1.2, ((h.stage reopened notOpen).open_ s).2.2) ∧
      h.Phase ((h.stage reopened notOpen).open_ s).2.1.1 ((h.stage reopened notOpen).open_ s).2.1.2 ∧
      ∀ e, ((h.stage reopened notOpen).open_ s).1 = .error e → ((h.stage reopened notOpen).open_ s).2.1.1.closed = true := by
  obtain ⟨⟨l, s⟩, w⟩ := s
  cases hp with
  | @idle closed s howes hu =>
    cases closed with
    | true  => exact ⟨hb, .idle howes hu, fun _ _ => rfl⟩
    | false =>
      have hopen := ho.open_ c _ howes hb
      cases hr : h.open_ (s, w) with
      | mk r t =>
        rw [hr] at hopen
        cases r with
        | ok u =>
          rw [open_ok hr]
          exact ⟨hopen, .running, fun e he => by cases he⟩
        | error e =>
          rw [open_error hr (ho.returns t hopen.1)]
          exact ⟨ho.close c t hopen, .done (ho.settles t hopen.1) (ho.closes t hopen.1), fun _ _ => rfl⟩
  | running => exact ⟨hb, .running, fun e he => by cases he⟩
  | @done opened s howes hc =>
    cases opened with
    | true  => exact ⟨hb, .done howes hc, fun e he => by cases he⟩
    | false => exact ⟨hb, .done howes hc, fun _ _ => rfl⟩

theorem after_close {c : G} {s : (h.stage reopened notOpen).State × W} (hb : h.Balanced account Fine c (s.1.2, s.2))
    (hp : h.Phase s.1.1 s.1.2) :
    h.Balanced account Fine c (((h.stage reopened notOpen).close s).2.1.2, ((h.stage reopened notOpen).close s).2.2) ∧
      h.Phase ((h.stage reopened notOpen).close s).2.1.1 ((h.stage reopened notOpen).close s).2.1.2 ∧
      ((h.stage reopened notOpen).close s).1 = .ok () ∧ ((h.stage reopened notOpen).close s).2.1.1.closed = true := by
  obtain ⟨⟨l, s⟩, w⟩ := s
  cases hp with
  | @idle closed s howes hu =>
    cases closed with
    | true  => exact ⟨hb, .idle howes hu, rfl, rfl⟩
    | false => exact ⟨hb, .idle howes hu, rfl, rfl⟩
  | running =>
    rw [close_running (ho.returns _ hb.1)]
    exact ⟨ho.close c _ hb, .done (ho.settles _ hb.1) (ho.closes _ hb.1), rfl, rfl⟩
  | @done opened s howes hc => exact ⟨hb, .done howes hc, rfl, rfl⟩

/-- **Orderly hooks make an orderly stage.** -/
theorem stage (reopened notOpen : ε) : (h.stage reopened notOpen).Orderly account (h.StageFine Fine) where
  init      := ⟨ho.init, .idle ho.owes ho.untouched⟩
  untouched := fun r hr => by
    rcases List.mem_cons.1 hr with rfl | hr
    · exact ⟨rfl, ho.owes⟩
    · exact ho.untouched r hr
  open_ := fun c s hs => by
    rw [balanced_stage] at hs ⊢
    obtain ⟨hb, hp, -⟩ := ho.after_open hs.1 hs.2
    exact ⟨hb, hp⟩
  next := fun c s hs => by
    rw [balanced_stage] at hs ⊢
    obtain ⟨⟨l, s⟩, w⟩ := s
    obtain ⟨hb, hp⟩ := hs
    cases hp with
    | idle howes hu => exact ⟨hb, .idle howes hu⟩
    | running       => exact ⟨ho.next c _ hb, .running⟩
    | @done opened s howes hc => cases opened <;> exact ⟨hb, .done howes hc⟩
  close := fun c s hs => by
    rw [balanced_stage] at hs ⊢
    obtain ⟨hb, hp, -⟩ := ho.after_close hs.1 hs.2
    exact ⟨hb, hp⟩
  refused := fun s e hs he => by
    obtain ⟨-, -, hclosed⟩ := ho.after_open (c := account s.2 - (h.owes s.1.2 + total (h.below s.1.2))) ⟨hs.1, by abel⟩ hs.2
    exact hclosed e he
  returns := fun s hs =>
    (ho.after_close (c := account s.2 - (h.owes s.1.2 + total (h.below s.1.2))) ⟨hs.1, by abel⟩ hs.2).2.2.1
  closes := fun s hs =>
    (ho.after_close (c := account s.2 - (h.owes s.1.2 + total (h.below s.1.2))) ⟨hs.1, by abel⟩ hs.2).2.2.2
  ended := fun s hs hc r hr => by
    obtain ⟨l, s⟩ := s
    obtain ⟨hf, hp⟩ := hs
    cases hp with
    | idle howes hu =>
      rcases List.mem_cons.1 hr with rfl | hr
      · exact ⟨fun hstarted => absurd hstarted Bool.false_ne_true, howes⟩
      · exact (hu r hr).ended
    | running => cases hc
    | done howes hclosed =>
      rcases List.mem_cons.1 hr with rfl | hr
      · exact ⟨fun _ => ⟨rfl, hclosed⟩, howes⟩
      · exact ho.ended s hf hclosed r hr

end Orderly
end Hooks

/-! ## Hooks with no, one and two children

The hooks of a stage with fields `O` run on these, on the calls of the children, and on the world. -/

namespace Hooks

variable {O C L R : Type}

def onOwn (x : Program ε (O × W) α) : Program ε ((O × C) × W) α :=
  .focus (fun s => (s.1.1, s.2)) (fun t s => ((t.1, s.1.2), t.2)) x

def onChild (x : Program ε (C × W) α) : Program ε ((O × C) × W) α :=
  .focus (fun s => (s.1.2, s.2)) (fun t s => ((s.1.1, t.1), t.2)) x

def onLeft (x : Program ε (L × W) α) : Program ε ((O × L × R) × W) α :=
  .focus (fun s => (s.1.2.1, s.2)) (fun t s => ((s.1.1, t.1, s.1.2.2), t.2)) x

def onRight (x : Program ε (R × W) α) : Program ε ((O × L × R) × W) α :=
  .focus (fun s => (s.1.2.2, s.2)) (fun t s => ((s.1.1, s.1.2.1, t.1), t.2)) x

def leaf (own : O) (owes : O → G) (open_ : Program ε (O × W) Unit) (next : Program ε (O × W) (Option ρ))
    (close : Program ε (O × W) Unit) : Hooks ε W ρ G where
  State          := O
  init           := own
  open_          := open_
  next           := next
  close          := close
  childrenClosed := fun _ => true
  owes           := owes
  below          := fun _ => []

def unary (child : Stage ε W ρ G) (own : O) (owes : O → G) (open_ : Program ε ((O × child.State) × W) Unit)
    (next : Program ε ((O × child.State) × W) (Option ρ)) (close : Program ε ((O × child.State) × W) Unit) : Hooks ε W ρ G where
  State          := O × child.State
  init           := (own, child.init)
  open_          := open_
  next           := next
  close          := close
  childrenClosed := fun s => child.closed s.2
  owes           := fun s => owes s.1
  below          := fun s => child.report s.2

def binary (left right : Stage ε W ρ G) (own : O) (open_ : Program ε ((O × left.State × right.State) × W) Unit)
    (next : Program ε ((O × left.State × right.State) × W) (Option ρ))
    (close : Program ε ((O × left.State × right.State) × W) Unit) : Hooks ε W ρ G where
  State          := O × left.State × right.State
  init           := (own, left.init, right.init)
  open_          := open_
  next           := next
  close          := close
  childrenClosed := fun s => left.closed s.2.1 && right.closed s.2.2
  owes           := fun _ => 0
  below          := fun s => left.report s.2.1 ++ right.report s.2.2

theorem total_append (rs rs' : List (Record G)) : total (rs ++ rs') = total rs + total rs' := by
  unfold total
  rw [List.map_append, List.sum_append]

variable (account) in
/-- What programs on a leaf keep. -/
def OwnKept (owes : O → G) (c : G) (s : O × W) : Prop := account s.2 = owes s.1 + c

variable (account) in
/-- What programs on a stage and its child keep. -/
def ChildKept (child : Stage ε W ρ G) (Fine : child.State → Prop) (owes : O → G) (c : G) (s : (O × child.State) × W) : Prop :=
  Fine s.1.2 ∧ account s.2 = owes s.1.1 + total (child.report s.1.2) + c

variable (account) in
/-- What programs on a stage and its children keep. -/
def ChildrenKept (left right : Stage ε W ρ G) (FineL : left.State → Prop) (FineR : right.State → Prop) (c : G)
    (s : (O × left.State × right.State) × W) : Prop :=
  (FineL s.1.2.1 ∧ FineR s.1.2.2) ∧ account s.2 = total (left.report s.1.2.1) + total (right.report s.1.2.2) + c

theorem leaf_orderly {own : O} {owes : O → G} {open_ : Program ε (O × W) Unit} {next : Program ε (O × W) (Option ρ)}
    {close : Program ε (O × W) Unit} {Fine : O → Prop} (hinit : Fine own) (howes : owes own = 0)
    (hopen : ∀ c s, owes s.1 = 0 → Fine s.1 ∧ OwnKept account owes c s → Fine (open_ s).2.1 ∧ OwnKept account owes c (open_ s).2)
    (hnext : ∀ c, Program.Keeps (fun s => Fine s.1 ∧ OwnKept account owes c s) next)
    (hclose : ∀ c, Program.Keeps (fun s => Fine s.1 ∧ OwnKept account owes c s) close)
    (hreturns : ∀ s, Fine s.1 → (close s).1 = .ok ()) (hsettles : ∀ s, Fine s.1 → owes (close s).2.1 = 0) :
    (leaf own owes open_ next close).Orderly account Fine := by
  have hkept : ∀ {c : G} {s : O × W}, (leaf own owes open_ next close).Balanced account Fine c s ↔
      Fine s.1 ∧ OwnKept account owes c s := by
    intro c s
    show Fine s.1 ∧ account s.2 = owes s.1 + 0 + c ↔ _
    rw [add_zero]
    rfl
  exact ⟨hinit, howes, fun r hr => absurd hr List.not_mem_nil, fun c s ho h => hkept.2 (hopen c s ho (hkept.1 h)),
    fun c s h => hkept.2 (hnext c s (hkept.1 h)), fun c s h => hkept.2 (hclose c s (hkept.1 h)), hreturns, fun _ _ => rfl,
    hsettles, fun _ _ _ r hr => absurd hr List.not_mem_nil⟩

section one

variable {child : Stage ε W ρ G} {Fine : child.State → Prop} {owes : O → G}

theorem keeps_onChild {x : Program ε (child.State × W) α} (h : ∀ c, Program.Keeps (child.Balanced account Fine c) x) (c : G) :
    Program.Keeps (ChildKept account child Fine owes c) (onChild x) := by
  refine .focus (fun s => child.Balanced account Fine (owes s.1.1 + c)) (fun s => h _)
    (fun s hs => ⟨hs.1, ?_⟩) fun s t _ ht => ⟨ht.1, ?_⟩
  · rw [hs.2]
    abel
  · rw [ht.2]
    abel

theorem keeps_onOwn {x : Program ε (O × W) α} (h : ∀ c, Program.Keeps (OwnKept account owes c) x) (c : G) :
    Program.Keeps (ChildKept account child Fine owes c) (onOwn x) := by
  refine .focus (fun s => OwnKept account owes (total (child.report s.1.2) + c)) (fun s => h _)
    (fun s hs => ?_) fun s t hs ht => ⟨hs.1, ?_⟩
  · unfold OwnKept
    rw [hs.2]
    abel
  · rw [show account t.2 = _ from ht]
    abel

theorem unary_orderly {own : O} {open_ : Program ε ((O × child.State) × W) Unit}
    {next : Program ε ((O × child.State) × W) (Option ρ)} {close : Program ε ((O × child.State) × W) Unit}
    (hchild : child.Orderly account Fine) (howes : owes own = 0)
    (hopen : ∀ c s, owes s.1.1 = 0 → ChildKept account child Fine owes c s → ChildKept account child Fine owes c (open_ s).2)
    (hnext : ∀ c, Program.Keeps (ChildKept account child Fine owes c) next)
    (hclose : ∀ c, Program.Keeps (ChildKept account child Fine owes c) close)
    (hreturns : ∀ s, Fine s.1.2 → (close s).1 = .ok ()) (hcloses : ∀ s, Fine s.1.2 → child.closed (close s).2.1.2 = true)
    (hsettles : ∀ s, Fine s.1.2 → owes (close s).2.1.1 = 0) :
    (unary child own owes open_ next close).Orderly account fun s => Fine s.2 where
  init      := hchild.init
  owes      := howes
  untouched := hchild.untouched
  open_     := hopen
  next      := hnext
  close     := hclose
  returns   := hreturns
  closes    := hcloses
  settles   := hsettles
  ended     := fun s hs => hchild.ended s.2 hs

/-- `child.close()`, and then what the stage does with its own fields. -/
def closeChild (child : Stage ε W ρ G) (finish : O → O) : Program ε ((O × child.State) × W) Unit := do
  onChild child.close
  onOwn (.modify fun s => (finish s.1, s.2))

theorem closeChild_eq (hchild : child.Orderly account Fine) (finish : O → O) {s : (O × child.State) × W} (hs : Fine s.1.2) :
    closeChild child finish s = (.ok (), ((finish s.1.1, (child.close (s.1.2, s.2)).2.1), (child.close (s.1.2, s.2)).2.2)) := by
  unfold closeChild
  rw [Program.bind_ok (a := ()) (t := ((s.1.1, (child.close (s.1.2, s.2)).2.1), (child.close (s.1.2, s.2)).2.2))]
  · rfl
  · unfold onChild Program.focus
    rw [hchild.returns (s.1.2, s.2) hs]

/-- **A stage that owes nothing itself and closes its child is orderly** when its hooks are. -/
theorem unary_orderly_closeChild {own : O} {open_ : Program ε ((O × child.State) × W) Unit}
    {next : Program ε ((O × child.State) × W) (Option ρ)} {finish : O → O} (hchild : child.Orderly account Fine)
    (hopen : ∀ c, Program.Keeps (ChildKept account child Fine (fun _ : O => 0) c) open_)
    (hnext : ∀ c, Program.Keeps (ChildKept account child Fine (fun _ : O => 0) c) next) :
    (unary child own (fun _ => 0) open_ next (closeChild child finish)).Orderly account fun s => Fine s.2 := by
  refine unary_orderly hchild rfl (fun c s _ => hopen c s) hnext (fun c => ?_) (fun s hs => ?_) (fun s hs => ?_) fun _ _ => rfl
  · exact .bind (keeps_onChild hchild.close c) fun _ => keeps_onOwn (fun c => .modify fun s hs => hs) c
  · rw [closeChild_eq hchild finish hs]
  · rw [closeChild_eq hchild finish hs]
    exact hchild.closes (s.1.2, s.2) hs

end one

section two

variable {left right : Stage ε W ρ G} {FineL : left.State → Prop} {FineR : right.State → Prop}

theorem keeps_onLeft {x : Program ε (left.State × W) α} (h : ∀ c, Program.Keeps (left.Balanced account FineL c) x) (c : G) :
    Program.Keeps (ChildrenKept (O := O) account left right FineL FineR c) (onLeft x) := by
  refine .focus (fun s => left.Balanced account FineL (total (right.report s.1.2.2) + c)) (fun s => h _)
    (fun s hs => ⟨hs.1.1, ?_⟩)
    fun s t hs ht => ⟨⟨ht.1, hs.1.2⟩, ?_⟩
  · rw [hs.2, add_assoc]
  · rw [ht.2, ← add_assoc]

theorem keeps_onRight {x : Program ε (right.State × W) α} (h : ∀ c, Program.Keeps (right.Balanced account FineR c) x) (c : G) :
    Program.Keeps (ChildrenKept (O := O) account left right FineL FineR c) (onRight x) := by
  refine .focus (fun s => right.Balanced account FineR (total (left.report s.1.2.1) + c)) (fun s => h _)
    (fun s hs => ⟨hs.1.2, ?_⟩)
    fun s t hs ht => ⟨⟨hs.1.1, ht.1⟩, ?_⟩
  · rw [hs.2]
    abel
  · rw [ht.2]
    abel

theorem keeps_onBoth {x : Program ε (O × W) α} (h : ∀ c, Program.Keeps (fun s => account s.2 = c) x) (c : G) :
    Program.Keeps (ChildrenKept account left right FineL FineR c) (onOwn x) :=
  .focus (fun s t => account t.2 = total (left.report s.1.2.1) + total (right.report s.1.2.2) + c)
    (fun _ => h _) (fun _ hs => hs.2)
    fun _ _ hs ht => ⟨hs.1, ht⟩

/-- `left.close()`, `right.close()`, and then what the stage does with its own fields. -/
def closeChildren (left right : Stage ε W ρ G) (finish : O → O) : Program ε ((O × left.State × right.State) × W) Unit := do
  onLeft left.close
  onRight right.close
  onOwn (.modify fun s => (finish s.1, s.2))

theorem closeChildren_closes (hleft : left.Orderly account FineL) (hright : right.Orderly account FineR) (finish : O → O)
    {s : (O × left.State × right.State) × W} (hl : FineL s.1.2.1) (hr : FineR s.1.2.2) :
    (closeChildren left right finish s).1 = .ok () ∧ left.closed (closeChildren left right finish s).2.1.2.1 = true ∧
      right.closed (closeChildren left right finish s).2.1.2.2 = true := by
  obtain ⟨⟨o, l, r⟩, w⟩ := s
  have hlret := hleft.returns (l, w) hl
  have hlclosed := hleft.closes (l, w) hl
  unfold closeChildren
  rw [Program.bind_ok (a := ()) (t := ((o, (left.close (l, w)).2.1, r), (left.close (l, w)).2.2))
    (by unfold onLeft Program.focus; rw [hlret])]
  generalize (left.close (l, w)).2 = t at hlclosed
  have hrret := hright.returns (r, t.2) hr
  rw [Program.bind_ok (a := ()) (t := ((o, t.1, (right.close (r, t.2)).2.1), (right.close (r, t.2)).2.2))
    (by unfold onRight Program.focus; rw [hrret])]
  exact ⟨rfl, hlclosed, hright.closes (r, t.2) hr⟩

/-- **A stage that closes both children is orderly** when its hooks are. -/
theorem binary_orderly {own : O} {open_ : Program ε ((O × left.State × right.State) × W) Unit}
    {next : Program ε ((O × left.State × right.State) × W) (Option ρ)} {finish : O → O} (hleft : left.Orderly account FineL)
    (hright : right.Orderly account FineR) (hopen : ∀ c, Program.Keeps (ChildrenKept account left right FineL FineR c) open_)
    (hnext : ∀ c, Program.Keeps (ChildrenKept account left right FineL FineR c) next) :
    (binary left right own open_ next (closeChildren left right finish)).Orderly account fun s => FineL s.2.1 ∧ FineR s.2.2 := by
  have hkept : ∀ {c : G} {s : (O × left.State × right.State) × W},
      (binary left right own open_ next (closeChildren left right finish)).Balanced account
        (fun s => FineL s.2.1 ∧ FineR s.2.2) c s ↔
        ChildrenKept account left right FineL FineR c s := by
    intro c s
    show (FineL s.1.2.1 ∧ FineR s.1.2.2) ∧ account s.2 = 0 + total (left.report s.1.2.1 ++ right.report s.1.2.2) + c ↔ _
    rw [total_append, zero_add]
    rfl
  refine ⟨⟨hleft.init, hright.init⟩, rfl, fun r hr => ?_, fun c s _ h => hkept.2 (hopen c s (hkept.1 h)),
    fun c s h => hkept.2 (hnext c s (hkept.1 h)), fun c s h => hkept.2 ?_, fun s hs => ?_, fun s hs => ?_, fun _ _ => rfl, ?_⟩
  · exact (List.mem_append.1 hr).elim (hleft.untouched r) (hright.untouched r)
  · refine Program.Keeps.bind (keeps_onLeft hleft.close c) (fun _ => ?_) s (hkept.1 h)
    exact .bind (keeps_onRight hright.close c) fun _ => keeps_onBoth (fun c => .modify fun s hs => hs) c
  · exact (closeChildren_closes hleft hright finish hs.1 hs.2).1
  · obtain ⟨-, hl, hr⟩ := closeChildren_closes hleft hright finish hs.1 hs.2
    exact Bool.and_eq_true_iff.2 ⟨hl, hr⟩
  · intro s hs hc r hr
    obtain ⟨hl, hr'⟩ := Bool.and_eq_true_iff.1 hc
    exact (List.mem_append.1 hr).elim (hleft.ended _ hs.1 hl r) (hright.ended _ hs.2 hr' r)

end two
end Hooks

/-! ## Running a tree -/

namespace Stage

/-- `while (row := stage.next()) is not None: rows.append(row)` -/
def drain (m : Stage ε W ρ G) (stop : ε) (n : Nat) : Program ε (m.State × W) (List ρ) :=
  .whileSome stop m.next (fun rows row => pure (rows ++ [row])) n []

/-- `with stage:` around its rows, which are drained. -/
def collect (m : Stage ε W ρ G) (stop : ε) (n : Nat) : Program ε (m.State × W) (List ρ) := do
  m.open_
  .finally_ (m.drain stop n) m.close

theorem Orderly.drain {m : Stage ε W ρ G} {Fine : m.State → Prop} (hm : m.Orderly account Fine) (stop : ε) (n : Nat) (c : G) :
    Program.Keeps (m.Balanced account Fine c) (m.drain stop n) :=
  .whileSome (hm.next c) (fun _ _ => .pure _) n []

/-- **A tree that was collected has cleaned up**, whether it returned or raised: every stage that was started has run its close
hook once and has closed its children, and what was drawn from the account is back. -/
theorem Orderly.collect {m : Stage ε W ρ G} {Fine : m.State → Prop} (hm : m.Orderly account Fine) (stop : ε) (n : Nat) (w : W) :
    (∀ r ∈ m.report (m.collect stop n (m.init, w)).2.1, r.Ended) ∧ account (m.collect stop n (m.init, w)).2.2 = account w := by
  have hinit : m.Balanced account Fine (account w) (m.init, w) := by
    refine ⟨hm.init, ?_⟩
    rw [total_eq_zero fun r hr => (hm.untouched r hr).2, zero_add]
  have hopen := hm.open_ _ _ hinit
  have hend : ∀ s, m.Balanced account Fine (account w) s → m.closed s.1 = true →
      (∀ r ∈ m.report s.1, r.Ended) ∧ account s.2 = account w := by
    intro s hs hc
    have hended := hm.ended s.1 hs.1 hc
    refine ⟨hended, ?_⟩
    rw [hs.2, total_eq_zero fun r hr => (hended r hr).2, zero_add]
  have hrefused := hm.refused (m.init, w)
  unfold Stage.collect
  cases hr : m.open_ (m.init, w) with
  | mk r t =>
    rw [hr] at hopen hrefused
    cases r with
    | error e =>
      rw [Program.bind_error hr]
      exact hend t hopen (hrefused e hm.init rfl)
    | ok u =>
      rw [Program.bind_ok hr]
      have hdrained := hm.drain stop n _ t hopen
      rw [Program.finally_ok (hm.returns _ hdrained.1)]
      exact hend _ (hm.close _ _ hdrained) (hm.closes _ hdrained.1)

end Stage
end Stages
