import Mathlib
/-!
# SearchTrees — trees of numbered nodes, with separators between the children

A tree has its entries in leaves of one depth; a node above them has one separator less than children.  `Bounded` says that every
separator bounds what stands on its two sides, which makes the entries sorted.  A `Context` is a tree with a hole: the nodes on
the way down to it, with what stands left and right.  Going up one node is one rule for each of the notions here, so that an
argument about a walk to the root is an induction on the context.
-/
namespace SearchTree

structure Leaf (E : Type) where
  id      : Nat
  entries : List E

structure Node (K C : Type) where
  id       : Nat
  keys     : List K
  children : List C

/-- The trees of one height. -/
def Subtree (K E : Type) : Nat → Type
  | 0     => Leaf E
  | n + 1 => Node K (Subtree K E n)

variable {K E : Type}

namespace Subtree

def leaf (id : Nat) (entries : List E) : Subtree K E 0 := (⟨id, entries⟩ : Leaf E)

def node {n : Nat} (id : Nat) (keys : List K) (children : List (Subtree K E n)) : Subtree K E (n + 1) :=
  (⟨id, keys, children⟩ : Node K (Subtree K E n))

def id : {n : Nat} → Subtree K E n → Nat
  | 0, t     => Leaf.id t
  | _ + 1, t => Node.id t

/-- The leaves, from left to right. -/
def leaves : {n : Nat} → Subtree K E n → List (Leaf E)
  | 0, t     => [t]
  | _ + 1, t => (Node.children t).flatMap leaves

def entries {n : Nat} (t : Subtree K E n) : List E := t.leaves.flatMap Leaf.entries

/-- How many nodes and leaves have a number. -/
def count (x : Nat) : {n : Nat} → Subtree K E n → Nat
  | 0, t     => if Leaf.id t = x then 1 else 0
  | _ + 1, t => (if Node.id t = x then 1 else 0) + ((Node.children t).map (count x)).sum

@[simp] theorem leaves_leaf (i : Nat) (es : List E) : (leaf i es : Subtree K E 0).leaves = [⟨i, es⟩] := rfl

@[simp] theorem leaves_node {n : Nat} (i : Nat) (ks : List K) (cs : List (Subtree K E n)) :
    (node i ks cs).leaves = cs.flatMap leaves := rfl

@[simp] theorem count_leaf (x i : Nat) (es : List E) : (leaf i es : Subtree K E 0).count x = if i = x then 1 else 0 := rfl

@[simp] theorem count_node {n : Nat} (x i : Nat) (ks : List K) (cs : List (Subtree K E n)) :
    (node i ks cs).count x = (if i = x then 1 else 0) + (cs.map (count x)).sum := rfl

@[simp] theorem entries_leaf (i : Nat) (es : List E) : (leaf i es : Subtree K E 0).entries = es := List.append_nil es

theorem entries_node {n : Nat} (i : Nat) (ks : List K) (cs : List (Subtree K E n)) :
    (node i ks cs).entries = cs.flatMap entries :=
  List.flatMap_assoc

theorem count_id : ∀ {n : Nat} (t : Subtree K E n), 1 ≤ t.count t.id
  | 0, t     => by
    show 1 ≤ if Leaf.id t = Leaf.id t then 1 else 0
    exact Nat.le_of_eq (if_pos rfl).symm
  | _ + 1, t => by
    show 1 ≤ (if Node.id t = Node.id t then 1 else 0) + _
    rw [if_pos rfl]
    exact Nat.le_add_right 1 _

theorem count_leaves (x : Nat) : ∀ {n : Nat} (t : Subtree K E n), (t.leaves.map Leaf.id).count x ≤ t.count x
  | 0, ⟨i, es⟩         => by
    show ([i].count x) ≤ if i = x then 1 else 0
    rw [List.count_singleton]
    simp only [beq_iff_eq]
    exact Nat.le_refl _
  | n + 1, ⟨i, ks, cs⟩ => by
    have hsum : ∀ cs : List (Subtree K E n), ((cs.flatMap leaves).map Leaf.id).count x ≤ (cs.map (count x)).sum := by
      intro cs
      induction cs with
      | nil          => exact Nat.le_refl 0
      | cons c cs ih =>
        rw [List.flatMap_cons, List.map_append, List.count_append, List.map_cons, List.sum_cons]
        exact Nat.add_le_add (count_leaves x c) ih
    exact Nat.le_trans (hsum cs) (Nat.le_add_left _ _)

end Subtree

/-! ## Trees with a hole -/

/-- **The way from a subtree up to the root**: at each node the separators and children left and right of it. -/
inductive Context (K E : Type) : Nat → Type
  | root {n : Nat} : Context K E n
  | frame {n : Nat} (id : Nat) (ks₁ : List K) (cs₁ : List (Subtree K E n)) (ks₂ : List K) (cs₂ : List (Subtree K E n))
      (up : Context K E (n + 1)) : Context K E n

namespace Context

/-- The node of a frame, with a subtree in its hole. -/
def fill {n : Nat} (id : Nat) (ks₁ : List K) (cs₁ : List (Subtree K E n)) (ks₂ : List K)
    (cs₂ : List (Subtree K E n)) (t : Subtree K E n) :
    Subtree K E (n + 1) :=
  .node id (ks₁ ++ ks₂) (cs₁ ++ t :: cs₂)

def leavesBefore : {n : Nat} → Context K E n → List (Leaf E)
  | _, root                     => []
  | _, frame _ _ cs₁ _ _ up => up.leavesBefore ++ cs₁.flatMap Subtree.leaves

def leavesAfter : {n : Nat} → Context K E n → List (Leaf E)
  | _, root                     => []
  | _, frame _ _ _ _ cs₂ up => cs₂.flatMap Subtree.leaves ++ up.leavesAfter

def count (x : Nat) : {n : Nat} → Context K E n → Nat
  | _, root                         => 0
  | _, frame id _ cs₁ _ cs₂ up =>
    (if id = x then 1 else 0) + (cs₁.map (Subtree.count x)).sum + (cs₂.map (Subtree.count x)).sum + up.count x

/-- Each node on the way, with the position of the hole among its children; the lowest first. -/
def path : {n : Nat} → Context K E n → List (Nat × Nat)
  | _, root                      => []
  | _, frame id _ cs₁ _ _ up => (id, cs₁.length) :: up.path

/-- **Up one node**: the leaves. -/
theorem leaves_fill {n : Nat} (id : Nat) (ks₁ : List K) (cs₁ : List (Subtree K E n)) (ks₂ : List K) (cs₂ : List (Subtree K E n))
    (up : Context K E (n + 1)) (t : Subtree K E n) :
    (frame id ks₁ cs₁ ks₂ cs₂ up).leavesBefore ++ t.leaves ++ (frame id ks₁ cs₁ ks₂ cs₂ up).leavesAfter =
      up.leavesBefore ++ (fill id ks₁ cs₁ ks₂ cs₂ t).leaves ++ up.leavesAfter := by
  simp only [leavesBefore, leavesAfter, fill, Subtree.leaves_node, List.flatMap_append, List.flatMap_cons, List.append_assoc]

/-- **Up one node**: the numbers. -/
theorem count_fill {n : Nat} (x id : Nat) (ks₁ : List K) (cs₁ : List (Subtree K E n)) (ks₂ : List K) (cs₂ : List (Subtree K E n))
    (up : Context K E (n + 1)) (t : Subtree K E n) :
    (frame id ks₁ cs₁ ks₂ cs₂ up).count x + t.count x = up.count x + (fill id ks₁ cs₁ ks₂ cs₂ t).count x := by
  simp only [count, fill, Subtree.count_node, List.map_append, List.map_cons, List.sum_append, List.sum_cons]
  omega

end Context

/-! ## Separators -/

section
variable [LinearOrder K] {C : Type} {P : Option K → Option K → C → Prop}

/-- A lower and an upper bound, where there are any, leave room. -/
def Meets (lo hi : Option K) : Prop := ∀ l ∈ lo, ∀ h ∈ hi, l ≤ h

theorem Meets.trans {lo hi : Option K} {k : K} (h₁ : Meets lo (some k)) (h₂ : Meets (some k) hi) : Meets lo hi :=
  fun l hl h hh => le_trans (h₁ l hl k rfl) (h₂ k rfl h hh)

theorem meets_some {k l : K} : Meets (some k) (some l) ↔ k ≤ l :=
  ⟨fun h => h k rfl l rfl, fun h _ ha _ hb => Option.mem_some_iff.1 ha ▸ Option.mem_some_iff.1 hb ▸ h⟩

/-- `k` is below the bound. -/
def Before (k : K) (hi : Option K) : Prop := ∀ h ∈ hi, k < h

theorem Before.meets {k : K} {hi : Option K} (h : Before k hi) : Meets (some k) hi :=
  fun _ ha b hb => Option.mem_some_iff.1 ha ▸ le_of_lt (h b hb)

/-- **The separators cut a range between the children**, and each child keeps to its part. -/
def Cuts (P : Option K → Option K → C → Prop) : Option K → List K → List C → Option K → Prop
  | lo, [], [c], hi          => Meets lo hi ∧ P lo hi c
  | lo, k :: ks, c :: cs, hi => Meets lo (some k) ∧ P lo (some k) c ∧ Cuts P (some k) ks cs hi
  | _, _, _, _               => False

/-- Children and the separators behind them, up to a bound. -/
def CutsLeft (P : Option K → Option K → C → Prop) : Option K → List K → List C → Option K → Prop
  | lo, [], [], hi           => hi = lo
  | lo, k :: ks, c :: cs, hi => Meets lo (some k) ∧ P lo (some k) c ∧ CutsLeft P (some k) ks cs hi
  | _, _, _, _               => False

/-- Children and the separators before them, from a bound on. -/
def CutsRight (P : Option K → Option K → C → Prop) : Option K → List K → List C → Option K → Prop
  | lo, [], [], hi      => lo = hi
  | lo, k :: ks, cs, hi => lo = some k ∧ Cuts P (some k) ks cs hi
  | _, _, _, _          => False

theorem Cuts.meets : ∀ {lo hi : Option K} {ks : List K} {cs : List C}, Cuts P lo ks cs hi → Meets lo hi
  | _, _, [], [_], h        => h.1
  | _, _, _ :: _, _ :: _, h => h.1.trans h.2.2.meets
  | _, _, [], [], h         => h.elim
  | _, _, [], _ :: _ :: _, h => h.elim
  | _, _, _ :: _, [], h     => h.elim

theorem Cuts.length : ∀ {lo hi : Option K} {ks : List K} {cs : List C}, Cuts P lo ks cs hi → cs.length = ks.length + 1
  | _, _, [], [_], _        => rfl
  | _, _, _ :: _, _ :: _, h => congrArg (· + 1) h.2.2.length
  | _, _, [], [], h         => h.elim
  | _, _, [], _ :: _ :: _, h => h.elim
  | _, _, _ :: _, [], h     => h.elim

theorem Cuts.child : ∀ {lo hi : Option K} {ks : List K} {cs : List C}, Cuts P lo ks cs hi → ∀ c ∈ cs, ∃ a b, P a b c
  | _, _, [], [_], h, _, hc         => ⟨_, _, List.mem_singleton.1 hc ▸ h.2⟩
  | _, _, k :: ks, d :: ds, h, c, hc => by
    rcases List.mem_cons.1 hc with rfl | hc
    · exact ⟨_, _, h.2.1⟩
    · exact h.2.2.child c hc
  | _, _, [], [], h, _, _            => h.elim
  | _, _, [], _ :: _ :: _, h, _, _   => h.elim
  | _, _, _ :: _, [], h, _, _        => h.elim

theorem cuts_head {c : C} {cs : List C} {lo hi : Option K} : ∀ {ks : List K},
    Cuts P lo ks (c :: cs) hi ↔ ∃ b, Meets lo b ∧ P lo b c ∧ CutsRight P b ks cs hi
  | []      => by
    constructor
    · intro h
      cases cs with
      | nil       => exact ⟨hi, h.1, h.2, rfl⟩
      | cons d ds => exact h.elim
    · rintro ⟨b, hm, hp, hr⟩
      cases cs with
      | nil       =>
        have hb : b = hi := hr
        exact hb ▸ ⟨hm, hp⟩
      | cons d ds => exact hr.elim
  | k :: ks => by
    constructor
    · intro h
      exact ⟨some k, h.1, h.2.1, rfl, h.2.2⟩
    · rintro ⟨b, hm, hp, rfl, hr⟩
      exact ⟨hm, hp, hr⟩

/-- **One child among the others.** -/
theorem cuts_iff {c : C} {cs₂ : List C} {ks₂ : List K} {hi : Option K} : ∀ {lo : Option K} {ks₁ : List K} {cs₁ : List C},
    cs₁.length = ks₁.length →
    (Cuts P lo (ks₁ ++ ks₂) (cs₁ ++ c :: cs₂) hi ↔
      ∃ a b, CutsLeft P lo ks₁ cs₁ a ∧ Meets a b ∧ P a b c ∧ CutsRight P b ks₂ cs₂ hi)
  | lo, [], [], _           => by
    rw [List.nil_append, List.nil_append, cuts_head]
    constructor
    · rintro ⟨b, h⟩
      exact ⟨lo, b, rfl, h⟩
    · rintro ⟨a, b, rfl, h⟩
      exact ⟨b, h⟩
  | lo, k :: ks, d :: ds, h => by
    have ih : Cuts P (some k) (ks ++ ks₂) (ds ++ c :: cs₂) hi ↔ _ := cuts_iff (Nat.succ_inj.1 h)
    constructor
    · rintro ⟨hm, hp, hc⟩
      rcases ih.1 hc with ⟨a, b, hl, hrest⟩
      exact ⟨a, b, ⟨hm, hp, hl⟩, hrest⟩
    · rintro ⟨a, b, ⟨hm, hp, hl⟩, hrest⟩
      exact ⟨hm, hp, ih.2 ⟨a, b, hl, hrest⟩⟩
  | _, [], _ :: _, h        => absurd h (Nat.succ_ne_zero _)
  | _, _ :: _, [], h        => absurd h.symm (Nat.succ_ne_zero _)

/-- **A cut in two**, at any separator. -/
theorem cuts_append {c : C} {cs₁ cs₂ : List C} {k : K} {ks₁ ks₂ : List K} {lo hi : Option K} (h : cs₁.length = ks₁.length) :
    Cuts P lo (ks₁ ++ k :: ks₂) (cs₁ ++ c :: cs₂) hi ↔ Cuts P lo ks₁ (cs₁ ++ [c]) (some k) ∧ Cuts P (some k) ks₂ cs₂ hi := by
  rw [cuts_iff h]
  have hleft : Cuts P lo (ks₁ ++ []) (cs₁ ++ [c]) (some k) ↔ _ := cuts_iff h
  rw [List.append_nil] at hleft
  rw [hleft]
  constructor
  · rintro ⟨a, b, hl, hm, hp, rfl, hr⟩
    exact ⟨⟨a, some k, hl, hm, hp, rfl⟩, hr⟩
  · rintro ⟨⟨a, b, hl, hm, hp, hb⟩, hr⟩
    have hb : b = some k := hb
    exact ⟨a, b, hl, hm, hp, hb, hr⟩

theorem CutsLeft.lo {k : K} : ∀ {lo a : Option K} {ks : List K} {cs : List C}, CutsLeft P lo ks cs a → Meets lo (some k) →
    (∀ l ∈ ks, l ≤ k) → Meets a (some k)
  | _, _, [], [], h, hlo, _          => by
    have h : _ = _ := h
    exact h ▸ hlo
  | _, _, l :: ks, _ :: _, h, _, hks => h.2.2.lo (meets_some.2 (hks l List.mem_cons_self)) fun m hm =>
    hks m (List.mem_cons_of_mem l hm)
  | _, _, [], _ :: _, h, _, _        => h.elim
  | _, _, _ :: _, [], h, _, _        => h.elim

theorem CutsRight.before {k : K} {b hi : Option K} {cs : List C} : ∀ {ks : List K}, CutsRight P b ks cs hi → Before k hi →
    (∀ l ∈ ks.head?, k < l) → Before k b
  | [], h, hhi, _      => by
    cases cs with
    | nil       =>
      have h : b = hi := h
      exact h ▸ hhi
    | cons d ds => exact h.elim
  | l :: ks, h, _, hks => by
    obtain ⟨rfl, _⟩ := h
    exact fun m hm => Option.mem_some_iff.1 hm ▸ hks l rfl

variable {f : C → List E} {key : E → K}

theorem Cuts.within (hP : ∀ {lo hi c}, P lo hi c → ∀ e ∈ f c, Meets lo (some (key e)) ∧ Meets (some (key e)) hi) :
    ∀ {lo hi : Option K} {ks : List K} {cs : List C}, Cuts P lo ks cs hi →
      ∀ e ∈ cs.flatMap f, Meets lo (some (key e)) ∧ Meets (some (key e)) hi
  | _, _, [], [c], h, e, he          => by
    rw [List.flatMap_singleton] at he
    exact hP h.2 e he
  | _, _, k :: ks, c :: cs, h, e, he => by
    rw [List.flatMap_cons, List.mem_append] at he
    rcases he with he | he
    · exact ⟨(hP h.2.1 e he).1, (hP h.2.1 e he).2.trans h.2.2.meets⟩
    · exact ⟨h.1.trans (h.2.2.within hP e he).1, (h.2.2.within hP e he).2⟩
  | _, _, [], [], h, _, _            => h.elim
  | _, _, [], _ :: _ :: _, h, _, _   => h.elim
  | _, _, _ :: _, [], h, _, _        => h.elim

/-- **Sorted children make a sorted whole.** -/
theorem Cuts.sorted (hP : ∀ {lo hi c}, P lo hi c → ∀ e ∈ f c, Meets lo (some (key e)) ∧ Meets (some (key e)) hi)
    (hs : ∀ {lo hi c}, P lo hi c → (f c).Pairwise (fun a b => key a ≤ key b)) :
    ∀ {lo hi : Option K} {ks : List K} {cs : List C}, Cuts P lo ks cs hi → (cs.flatMap f).Pairwise (fun a b => key a ≤ key b)
  | _, _, [], [c], h          => by
    rw [List.flatMap_singleton]
    exact hs h.2
  | _, _, k :: ks, c :: cs, h => by
    rw [List.flatMap_cons, List.pairwise_append]
    refine ⟨hs h.2.1, h.2.2.sorted hP hs, ?_⟩
    intro a ha b hb
    exact le_trans (meets_some.1 (hP h.2.1 a ha).2) (meets_some.1 (h.2.2.within (f := f) hP b hb).1)
  | _, _, [], [], h           => h.elim
  | _, _, [], _ :: _ :: _, h  => h.elim
  | _, _, _ :: _, [], h       => h.elim

end

/-! ## Search trees -/

variable [LinearOrder K]

/-- **A search tree**: the entries of a leaf are sorted, and every separator bounds what stands on its two sides. -/
def Subtree.Bounded (key : E → K) : {n : Nat} → Option K → Option K → Subtree K E n → Prop
  | 0, lo, hi, t     =>
    (Leaf.entries t).Pairwise (fun a b => key a ≤ key b) ∧ ∀ e ∈ Leaf.entries t, Meets lo (some (key e)) ∧ Meets (some (key e)) hi
  | _ + 1, lo, hi, t => Cuts (fun lo hi c => c.Bounded key lo hi) lo (Node.keys t) (Node.children t) hi

namespace Subtree

variable {key : E → K}

theorem bounded_node {n : Nat} {i : Nat} {ks : List K} {cs : List (Subtree K E n)} {lo hi : Option K} :
    (node i ks cs).Bounded key lo hi ↔ Cuts (fun lo hi c => c.Bounded key lo hi) lo ks cs hi := Iff.rfl

theorem Bounded.within : ∀ {n : Nat} {t : Subtree K E n} {lo hi : Option K}, t.Bounded key lo hi →
    ∀ e ∈ t.entries, Meets lo (some (key e)) ∧ Meets (some (key e)) hi
  | 0, ⟨i, es⟩, _, _, h, e, he         => by
    have he : e ∈ (leaf i es : Subtree K E 0).entries := he
    rw [entries_leaf] at he
    exact h.2 e he
  | n + 1, ⟨i, ks, cs⟩, _, _, h, e, he => by
    have he : e ∈ (node i ks cs).entries := he
    rw [entries_node] at he
    exact Cuts.within (fun h => h.within) (bounded_node.1 h) e he

theorem Bounded.sorted : ∀ {n : Nat} {t : Subtree K E n} {lo hi : Option K}, t.Bounded key lo hi →
    t.entries.Pairwise (fun a b => key a ≤ key b)
  | 0, ⟨i, es⟩, _, _, h         => by
    show (leaf i es : Subtree K E 0).entries.Pairwise _
    rw [entries_leaf]
    exact h.1
  | n + 1, ⟨i, ks, cs⟩, _, _, h => by
    show (node i ks cs).entries.Pairwise _
    rw [entries_node]
    exact Cuts.sorted (fun h => h.within) (fun h => h.sorted) (bounded_node.1 h)

end Subtree

/-! ## The bounds of a hole -/

namespace Context

/-- **What the hole is bounded by.** -/
def Bounded (key : E → K) : {n : Nat} → Context K E n → Option K → Option K → Prop
  | _, root, lo, hi                         => lo = none ∧ hi = none
  | _, frame _ ks₁ cs₁ ks₂ cs₂ up, lo, hi => ∃ lo₀ hi₀, up.Bounded key lo₀ hi₀ ∧ cs₁.length = ks₁.length ∧
      CutsLeft (fun lo hi c => c.Bounded key lo hi) lo₀ ks₁ cs₁ lo ∧ CutsRight (fun lo hi c => c.Bounded key lo hi) hi ks₂ cs₂ hi₀

variable {key : E → K}

/-- **Up one node**: the bounds. -/
theorem bounded_fill {n : Nat} {id : Nat} {ks₁ : List K} {cs₁ : List (Subtree K E n)} {ks₂ : List K} {cs₂ : List (Subtree K E n)}
    {up : Context K E (n + 1)} {t : Subtree K E n} {lo hi : Option K} (hc : (frame id ks₁ cs₁ ks₂ cs₂ up).Bounded key lo hi)
    (hm : Meets lo hi) (ht : t.Bounded key lo hi) :
    ∃ lo₀ hi₀, up.Bounded key lo₀ hi₀ ∧ Meets lo₀ hi₀ ∧ (fill id ks₁ cs₁ ks₂ cs₂ t).Bounded key lo₀ hi₀ := by
  rcases hc with ⟨lo₀, hi₀, hup, hlen, hl, hr⟩
  have hcuts := (cuts_iff hlen).2 ⟨lo, hi, hl, hm, ht, hr⟩
  exact ⟨lo₀, hi₀, hup, hcuts.meets, Subtree.bounded_node.2 hcuts⟩

/-- **Down one node**, to the child between the separators that are not above `k` and those that are. -/
theorem Bounded.down {n : Nat} {c : Context K E (n + 1)} {id : Nat} {ks₁ ks₂ : List K}
    {cs₁ cs₂ : List (Subtree K E n)} {t : Subtree K E n}
    {lo hi : Option K} {k : K} (h : c.Bounded key lo hi) (hlo : Meets lo (some k)) (hhi : Before k hi)
    (hlen : cs₁.length = ks₁.length)
    (ht : (fill id ks₁ cs₁ ks₂ cs₂ t).Bounded key lo hi) (h₁ : ∀ l ∈ ks₁, l ≤ k) (h₂ : ∀ l ∈ ks₂.head?, k < l) :
    ∃ a b, (frame id ks₁ cs₁ ks₂ cs₂ c).Bounded key a b ∧ Meets a (some k) ∧ Before k b ∧ t.Bounded key a b := by
  rcases (cuts_iff hlen).1 (Subtree.bounded_node.1 ht) with ⟨a, b, hl, -, ht, hr⟩
  exact ⟨a, b, ⟨lo, hi, h, hlen, hl, hr⟩, hl.lo hlo h₁, hr.before hhi h₂, ht⟩

/-- **Two children for one**, with a separator between them. -/
theorem Bounded.two {n : Nat} {up : Context K E (n + 1)} {id : Nat} {ks₁ ks₂ : List K}
    {cs₁ cs₂ : List (Subtree K E n)} {l r : Subtree K E n}
    {lo hi : Option K} {k : K} (h : (frame id ks₁ cs₁ ks₂ cs₂ up).Bounded key lo hi) (hlo : Meets lo (some k))
    (hhi : Meets (some k) hi)
    (hl : l.Bounded key lo (some k)) (hr : r.Bounded key (some k) hi) :
    ∃ lo₀ hi₀, up.Bounded key lo₀ hi₀ ∧ Meets lo₀ hi₀ ∧
      (Subtree.node id (ks₁ ++ k :: ks₂) (cs₁ ++ l :: r :: cs₂)).Bounded key lo₀ hi₀ := by
  rcases h with ⟨lo₀, hi₀, hup, hlen, hleft, hright⟩
  have hcuts : Cuts (fun lo hi c => Subtree.Bounded key lo hi c) lo₀ (ks₁ ++ k :: ks₂) (cs₁ ++ l :: r :: cs₂) hi₀ :=
    (cuts_iff hlen).2 ⟨lo, some k, hleft, hlo, hl, rfl, cuts_head.2 ⟨hi, hhi, hr, hright⟩⟩
  exact ⟨lo₀, hi₀, hup, hcuts.meets, Subtree.bounded_node.2 hcuts⟩

end Context

namespace Subtree

variable {key : E → K}

/-- **A node in two**, at one of its separators. -/
theorem Bounded.split {n : Nat} {id₁ id₂ id : Nat} {ks₁ ks₂ : List K} {cs₁ cs₂ : List (Subtree K E n)} {c : Subtree K E n} {k : K}
    {lo hi : Option K} (hlen : cs₁.length = ks₁.length) (h : (node id (ks₁ ++ k :: ks₂) (cs₁ ++ c :: cs₂)).Bounded key lo hi) :
    (node id₁ ks₁ (cs₁ ++ [c])).Bounded key lo (some k) ∧ (node id₂ ks₂ cs₂).Bounded key (some k) hi ∧
      Meets lo (some k) ∧ Meets (some k) hi := by
  have hcuts := (cuts_append hlen).1 (bounded_node.1 h)
  exact ⟨bounded_node.2 hcuts.1, bounded_node.2 hcuts.2, hcuts.1.meets, hcuts.2.meets⟩

/-- **A leaf in two**, at one of its entries. -/
theorem Bounded.splitLeaf {id₁ id₂ id : Nat} {es₁ es₂ : List E} {e : E} {lo hi : Option K}
    (h : (leaf id (es₁ ++ e :: es₂) : Subtree K E 0).Bounded key lo hi) :
    (leaf id₁ es₁ : Subtree K E 0).Bounded key lo (some (key e)) ∧
      (leaf id₂ (e :: es₂) : Subtree K E 0).Bounded key (some (key e)) hi ∧
      Meets lo (some (key e)) ∧ Meets (some (key e)) hi := by
  have hsorted := List.pairwise_append.1 h.1
  have hrest := List.pairwise_cons.1 hsorted.2.1
  have hmem : e ∈ es₁ ++ e :: es₂ := List.mem_append_right es₁ List.mem_cons_self
  refine ⟨⟨hsorted.1, ?_⟩, ⟨hsorted.2.1, ?_⟩, h.2 e hmem⟩
  · intro a ha
    exact ⟨(h.2 a (List.mem_append_left _ ha)).1, meets_some.2 (hsorted.2.2 a ha e List.mem_cons_self)⟩
  · intro a ha
    refine ⟨?_, (h.2 a (List.mem_append_right _ ha)).2⟩
    rcases List.mem_cons.1 ha with rfl | ha
    · exact meets_some.2 (le_refl _)
    · exact meets_some.2 (hrest.1 a ha)

/-! ## Separators made anew -/

def firstKey (key : E → K) : {n : Nat} → Subtree K E n → Option K
  | 0, t     => (Leaf.entries t).head?.map key
  | _ + 1, t => (Node.children t).head?.bind fun c => c.firstKey key

def refresh (key : E → K) : {n : Nat} → Subtree K E n → Subtree K E n
  | 0, t     => t
  | _ + 1, t => node (Node.id t) ((Node.children t).tail.filterMap (firstKey key)) ((Node.children t).map fun c => c.refresh key)

/-- There is a first key behind every separator. -/
def Filled (key : E → K) : {n : Nat} → Subtree K E n → Prop
  | 0, _     => True
  | _ + 1, t => Node.children t ≠ [] ∧ (∀ c ∈ (Node.children t).tail, (firstKey key c).isSome) ∧
    ∀ c ∈ Node.children t, c.Filled key

omit [LinearOrder K] in
theorem firstKey_eq_some :
    ∀ {n : Nat} {t : Subtree K E n} {k : K}, t.firstKey key = some k → ∃ e es, t.entries = e :: es ∧ key e = k
  | 0, ⟨i, es⟩, k, h         => by
    cases es with
    | nil       => exact absurd h (Option.some_ne_none k).symm
    | cons e es => exact ⟨e, es, List.append_nil _, Option.some_inj.1 h⟩
  | n + 1, ⟨i, ks, cs⟩, k, h => by
    cases cs with
    | nil       => exact absurd h (Option.some_ne_none k).symm
    | cons c cs =>
      rcases firstKey_eq_some (t := c) h with ⟨e, es, hes, hk⟩
      refine ⟨e, es ++ cs.flatMap entries, ?_, hk⟩
      show (node i ks (c :: cs)).entries = _
      rw [entries_node, List.flatMap_cons, hes]
      rfl

omit [LinearOrder K] in
theorem id_refresh : ∀ {n : Nat} (t : Subtree K E n), (t.refresh key).id = t.id
  | 0, _     => rfl
  | _ + 1, _ => rfl

omit [LinearOrder K] in
theorem leaves_refresh : ∀ {n : Nat} (t : Subtree K E n), (t.refresh key).leaves = t.leaves
  | 0, _              => rfl
  | n + 1, ⟨i, ks, cs⟩ => by
    show (cs.map fun c => c.refresh key).flatMap leaves = cs.flatMap leaves
    rw [List.flatMap_map]
    exact congrArg (fun g => cs.flatMap g) (funext fun c => leaves_refresh c)

omit [LinearOrder K] in
theorem count_refresh (x : Nat) : ∀ {n : Nat} (t : Subtree K E n), (t.refresh key).count x = t.count x
  | 0, _              => rfl
  | n + 1, ⟨i, ks, cs⟩ => by
    show (if i = x then 1 else 0) + ((cs.map fun c => c.refresh key).map (count x)).sum = _
    rw [List.map_map]
    exact congrArg (fun g => (if i = x then 1 else 0) + (cs.map g).sum) (funext fun c => count_refresh x c)

theorem cuts_refresh {n : Nat}
    (ih : ∀ {t : Subtree K E n} {lo hi : Option K}, t.Filled key → t.entries.Pairwise (fun a b => key a ≤ key b) →
    (∀ e ∈ t.entries, Meets lo (some (key e)) ∧ Meets (some (key e)) hi) → Meets lo hi →
      (t.refresh key).Bounded key lo hi) {hi : Option K} :
    ∀ {cs : List (Subtree K E n)} {c : Subtree K E n} {lo : Option K}, (∀ d ∈ cs, (firstKey key d).isSome) →
      (∀ d ∈ c :: cs, d.Filled key) →
      ((c :: cs).flatMap entries).Pairwise (fun a b => key a ≤ key b) →
      (∀ e ∈ (c :: cs).flatMap entries, Meets lo (some (key e)) ∧ Meets (some (key e)) hi) → Meets lo hi →
      Cuts (fun lo hi t => t.Bounded key lo hi) lo (cs.filterMap (firstKey key)) ((c :: cs).map fun t => t.refresh key) hi
  | [], c, lo, _, hf, hs, hw, hm          => by
    rw [List.flatMap_singleton] at hs hw
    exact ⟨hm, ih (hf c List.mem_cons_self) hs hw hm⟩
  | d :: ds, c, lo, hfirst, hf, hs, hw, hm => by
    rcases Option.isSome_iff_exists.1 (hfirst d List.mem_cons_self) with ⟨k, hk⟩
    rcases firstKey_eq_some hk with ⟨e, es, hes, rfl⟩
    rw [List.flatMap_cons, List.pairwise_append] at hs
    have hmem : e ∈ (d :: ds).flatMap entries := by
      rw [List.flatMap_cons, hes]
      exact List.mem_cons_self
    have hmemAll : e ∈ (c :: d :: ds).flatMap entries := by
      rw [List.flatMap_cons]
      exact List.mem_append_right _ hmem
    have hbehind : ∀ a ∈ (d :: ds).flatMap entries, Meets (some (key e)) (some (key a)) := by
      intro a ha
      have hcons := hs.2.1
      rw [List.flatMap_cons, hes] at hcons ha
      rcases List.mem_cons.1 ha with rfl | ha
      · exact meets_some.2 (le_refl _)
      · exact meets_some.2 ((List.pairwise_cons.1 hcons).1 a ha)
    rw [List.filterMap_cons_some hk, List.map_cons]
    refine ⟨(hw e hmemAll).1, ih (hf c List.mem_cons_self) hs.1 ?_ (hw e hmemAll).1, ?_⟩
    · intro a ha
      refine ⟨(hw a ?_).1, meets_some.2 (hs.2.2 a ha e hmem)⟩
      rw [List.flatMap_cons]
      exact List.mem_append_left _ ha
    · refine cuts_refresh ih (fun b hb => hfirst b (List.mem_cons_of_mem d hb))
        (fun b hb => hf b (List.mem_cons_of_mem c hb)) hs.2.1 ?_
        (hw e hmemAll).2
      intro a ha
      refine ⟨hbehind a ha, (hw a ?_).2⟩
      rw [List.flatMap_cons]
      exact List.mem_append_right _ ha

/-- **With its separators made anew, a sorted tree is a search tree.** -/
theorem bounded_refresh :
    ∀ {n : Nat} {t : Subtree K E n} {lo hi : Option K}, t.Filled key → t.entries.Pairwise (fun a b => key a ≤ key b) →
    (∀ e ∈ t.entries, Meets lo (some (key e)) ∧ Meets (some (key e)) hi) → Meets lo hi → (t.refresh key).Bounded key lo hi
  | 0, ⟨i, es⟩, _, _, _, hs, hw, _           => by
    have hes : Subtree.entries (⟨i, es⟩ : Leaf E) (K := K) (n := 0) = es := entries_leaf i es
    rw [hes] at hs hw
    exact ⟨hs, hw⟩
  | n + 1, ⟨i, ks, cs⟩, lo, hi, hf, hs, hw, hm => by
    have hes : Subtree.entries (⟨i, ks, cs⟩ : Node K (Subtree K E n)) (n := n + 1) = cs.flatMap entries := entries_node i ks cs
    rw [hes] at hs hw
    cases cs with
    | nil       => exact absurd rfl hf.1
    | cons c cs => exact bounded_node.2 (cuts_refresh bounded_refresh hf.2.1 hf.2.2 hs hw hm)

omit [LinearOrder K] in
/-- **No leaf is empty**, when there is a first key. -/
theorem Filled.leaves : ∀ {n : Nat} {t : Subtree K E n}, t.Filled key → (t.firstKey key).isSome → ∀ l ∈ t.leaves, l.entries ≠ []
  | 0, ⟨i, es⟩, _, hk, l, hl         => by
    cases List.mem_singleton.1 hl
    rintro rfl
    exact Bool.noConfusion hk
  | n + 1, ⟨i, ks, cs⟩, hf, hk, l, hl => by
    rcases List.mem_flatMap.1 hl with ⟨c, hc, hl⟩
    refine Filled.leaves (hf.2.2 c hc) ?_ l hl
    cases cs with
    | nil       => exact absurd hc List.not_mem_nil
    | cons d ds =>
      rcases List.mem_cons.1 hc with rfl | hc
      · exact hk
      · exact hf.2.1 c hc

omit [LinearOrder K] in
/-- **At most the first leaf is empty.** -/
theorem Filled.leaves_tail : ∀ {n : Nat} {t : Subtree K E n}, t.Filled key → ∀ l ∈ t.leaves.tail, l.entries ≠ []
  | 0, _, _, l, hl                => absurd hl List.not_mem_nil
  | n + 1, ⟨i, ks, cs⟩, hf, l, hl => by
    cases cs with
    | nil       => exact absurd rfl hf.1
    | cons d ds =>
      have hl : l ∈ (d.leaves ++ ds.flatMap Subtree.leaves).tail := hl
      have hrest : ∀ l ∈ ds.flatMap Subtree.leaves, l.entries ≠ [] := by
        intro l hl
        rcases List.mem_flatMap.1 hl with ⟨c, hc, hl⟩
        exact (hf.2.2 c (List.mem_cons_of_mem d hc)).leaves (hf.2.1 c hc) l hl
      cases hd : d.leaves with
      | nil       =>
        rw [hd, List.nil_append] at hl
        exact hrest l (List.mem_of_mem_tail hl)
      | cons a as =>
        rw [hd, List.cons_append, List.tail_cons] at hl
        rcases List.mem_append.1 hl with hl | hl
        · refine Filled.leaves_tail (hf.2.2 d List.mem_cons_self) l ?_
          rw [hd]
          exact hl
        · exact hrest l hl

end Subtree
end SearchTree
