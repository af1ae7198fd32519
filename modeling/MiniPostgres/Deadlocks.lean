import MiniPostgres.LockWaits
import Mathlib.Logic.Relation
/-!
# Deadlocks — the search finds a cycle whenever there is one

The stack of `visit` is a path of waits, so a node that is met on it closes a simple cycle.  A node that is left without a cycle
has only such nodes behind it, and none of them waits for itself; at the end these are all the nodes that wait.
-/
namespace MiniPostgres

open Relation (TransGen)

namespace WaitForGraph

variable {g : WaitForGraph}

/-- The first transaction waits for the second. -/
def Edge (g : WaitForGraph) (x y : Nat) : Prop := ∃ e ∈ g.edges, e.1 = x ∧ y ∈ e.2

/-- Distinct transactions, each waiting for the next and the last for the first. -/
def SimpleCycle (g : WaitForGraph) (c : List Nat) : Prop := c ≠ [] ∧ c.Nodup ∧ (c ++ c.head?.toList).IsChain g.Edge

theorem mem_targets_iff {x y : Nat} : y ∈ g.targets x ↔ g.Edge x y := mem_targets

/-! ## A cycle on the stack -/

/-- **The part of the stack down to a node that the top waits for is a simple cycle.** -/
theorem simpleCycle_take {stack : List Nat} {node : Nat}
    (hc : (node :: stack).IsChain (fun a b => g.Edge b a)) (hnd : stack.Nodup)
    (hn : node ∈ stack) : g.SimpleCycle (stack.take (stack.idxOf node + 1)).reverse := by
  have hlt := List.idxOf_lt_length_of_mem hn
  have hlast : (stack.take (stack.idxOf node + 1)).getLast? = some node := by
    rw [List.getLast?_take, if_neg (Nat.succ_ne_zero _), Nat.add_sub_cancel, List.getElem?_eq_getElem hlt, List.getElem_idxOf hlt]
    rfl
  refine ⟨fun he => ?_, ?_, ?_⟩
  · rw [List.reverse_eq_nil_iff] at he
    rw [he] at hlast
    cases hlast
  · rw [List.nodup_reverse]
    exact hnd.sublist (List.take_sublist _ _)
  · rw [List.head?_reverse, hlast, Option.toList_some, ← List.reverse_cons, List.isChain_reverse]
    have htake := hc.take (stack.idxOf node + 1 + 1)
    rw [List.take_succ_cons] at htake
    exact htake

theorem visit_cycle {cycle : List Nat} : ∀ {depth : Nat} {stack visited : List Nat} {node : Nat},
    (node :: stack).IsChain (fun a b => g.Edge b a) → stack.Nodup → (g.visit depth stack visited node).2 = some cycle →
      g.SimpleCycle cycle.reverse
  | 0, _, _, _, _, _, h => by cases h
  | depth + 1, stack, visited, node, hc, hnd, h => by
    unfold visit at h
    split at h
    · rename_i hn
      cases h
      exact simpleCycle_take hc hnd hn
    · rename_i hn
      split at h
      · cases h
      · obtain ⟨v, t, ht, hv⟩ := visitEach_some h
        exact visit_cycle (List.isChain_cons_cons.2 ⟨mem_targets_iff.1 ht, hc⟩) (List.nodup_cons.2 ⟨hn, hnd⟩) hv

/-! ## Nodes left without a cycle -/

/-- The nodes that have been left: what they wait for has been left too, and none waits for itself. -/
def Left (g : WaitForGraph) (stack visited : List Nat) : Prop :=
  ∀ x ∈ visited, x ∉ stack → (∀ y, g.Edge x y → y ∈ visited ∧ y ∉ stack) ∧ ¬TransGen g.Edge x x

/-- What a call of `visit` that meets no cycle does. -/
structure Leaves (g : WaitForGraph) (stack visited visited' : List Nat) (node : Nat) : Prop where
  grows : visited ⊆ visited'
  mem   : node ∈ visited'
  off   : node ∉ stack
  left  : g.Left stack visited'

theorem transGen_closed {p : Nat → Prop} (hp : ∀ x y, p x → g.Edge x y → p y) {x y : Nat} (hx : p x)
    (h : TransGen g.Edge x y) : p y := by
  induction h with
  | single hxy => exact hp _ _ hx hxy
  | tail _ hyz ih => exact hp _ _ ih hyz

/-- **A node whose targets have been left may be left**: a walk from it back to itself would come from one of them. -/
theorem Left.pop {stack visited : List Nat} {node : Nat} (h : g.Left (node :: stack) visited)
    (ht : ∀ y, g.Edge node y → y ∈ visited ∧ y ∉ node :: stack) : g.Left stack visited := by
  intro x hx hxs
  have hoff : ∀ {y}, y ∉ node :: stack → y ∉ stack := fun hy hys => hy (List.mem_cons_of_mem _ hys)
  by_cases hxn : x = node
  · subst hxn
    refine ⟨fun y hy => ⟨(ht y hy).1, hoff (ht y hy).2⟩, fun hwalk => ?_⟩
    have hclosed : ∀ y z, (y ∈ visited ∧ y ∉ x :: stack) → g.Edge y z → z ∈ visited ∧ z ∉ x :: stack :=
      fun y z hy hyz => (h y hy.1 hy.2).1 z hyz
    obtain ⟨y, hxy, hyx⟩ := TransGen.head'_iff.1 hwalk
    rcases Relation.reflTransGen_iff_eq_or_transGen.1 hyx with he | hyx
    · rw [← he] at hxy
      exact (ht x hxy).2 List.mem_cons_self
    · exact (transGen_closed hclosed (ht y hxy) hyx).2 List.mem_cons_self
  · have hxt : x ∉ node :: stack := fun hm => (List.mem_cons.1 hm).elim hxn hxs
    obtain ⟨h1, h2⟩ := h x hx hxt
    exact ⟨fun y hy => ⟨(h1 y hy).1, hoff (h1 y hy).2⟩, h2⟩

theorem visitEach_leaves {f : List Nat → Nat → List Nat × Option (List Nat)} {stack : List Nat} : ∀ {rest visited : List Nat},
    (∀ t ∈ rest, ∀ v, stack ⊆ v → g.Left stack v → (f v t).2 = none → g.Leaves stack v (f v t).1 t) → stack ⊆ visited →
      g.Left stack visited → (visitEach f visited rest).2 = none → visited ⊆ (visitEach f visited rest).1 ∧
        g.Left stack (visitEach f visited rest).1 ∧ ∀ t ∈ rest, t ∈ (visitEach f visited rest).1 ∧ t ∉ stack
  | [], visited, _, _, hl, _ => ⟨fun _ h => h, hl, fun t ht => (by cases ht)⟩
  | target :: rest, visited, hf, hs, hl, h => by
    unfold visitEach at h ⊢
    split at h
    · cases h
    · rename_i v heq
      have hleaves := hf target List.mem_cons_self visited hs hl (by rw [heq])
      rw [heq] at hleaves
      obtain ⟨h1, h2, h3⟩ :=
        visitEach_leaves (fun t ht => hf t (List.mem_cons_of_mem _ ht)) (List.Subset.trans hs hleaves.grows) hleaves.left h
      refine ⟨List.Subset.trans hleaves.grows h1, h2, fun t ht => ?_⟩
      rcases List.mem_cons.1 ht with rfl | ht
      · exact ⟨h1 hleaves.mem, hleaves.off⟩
      · exact h3 t ht

/-- All transactions of the graph. -/
def vertices (g : WaitForGraph) : List Nat := g.edges.flatMap (fun e => e.1 :: e.2)

theorem depth_eq : g.depth = g.vertices.length + 1 := by
  simp only [depth, vertices, List.length_flatMap, List.length_cons]

theorem mem_vertices {x y : Nat} (h : g.Edge x y) : x ∈ g.vertices ∧ y ∈ g.vertices := by
  obtain ⟨e, he, rfl, hy⟩ := h
  exact ⟨List.mem_flatMap.2 ⟨e, he, List.mem_cons_self⟩, List.mem_flatMap.2 ⟨e, he, List.mem_cons_of_mem _ hy⟩⟩

/-- **A call without a cycle leaves its node.**  The stack has distinct nodes of the graph, so the depth does not run out. -/
theorem visit_leaves : ∀ {depth : Nat} {stack visited : List Nat} {node : Nat}, g.vertices.length < depth + stack.length →
    stack.Nodup → stack ⊆ g.vertices → node ∈ g.vertices → stack ⊆ visited → g.Left stack visited →
      (g.visit depth stack visited node).2 = none → g.Leaves stack visited (g.visit depth stack visited node).1 node
  | 0, stack, _, _, hd, hnd, hsub, _, _, _, _ => by
    have := (hnd.subperm hsub).length_le
    omega
  | depth + 1, stack, visited, node, hd, hnd, hsub, hv, hin, hl, h => by
    unfold visit at h ⊢
    split at h
    · cases h
    · rename_i hn
      rw [if_neg hn]
      split at h
      · rename_i hseen
        rw [if_pos hseen]
        exact ⟨fun _ h => h, hseen, hn, hl⟩
      · rename_i hseen
        rw [if_neg hseen]
        have hpush : g.Left (node :: stack) (node :: visited) := by
          intro x hx hxs
          have hxn : x ≠ node := fun he => hxs (by rw [he]; exact List.mem_cons_self)
          have hxv : x ∈ visited := (List.mem_cons.1 hx).resolve_left hxn
          obtain ⟨h1, h2⟩ := hl x hxv (fun hm => hxs (List.mem_cons_of_mem _ hm))
          refine ⟨fun y hy => ⟨List.mem_cons_of_mem _ (h1 y hy).1, fun hm => ?_⟩, h2⟩
          rcases List.mem_cons.1 hm with rfl | hm
          · exact hseen (h1 y hy).1
          · exact (h1 y hy).2 hm
        have hcall : ∀ t ∈ g.targets node, ∀ v, node :: stack ⊆ v → g.Left (node :: stack) v →
            (g.visit depth (node :: stack) v t).2 = none →
              g.Leaves (node :: stack) v (g.visit depth (node :: stack) v t).1 t := by
          intro t ht v hsv hlv hvis
          refine visit_leaves ?_ (List.nodup_cons.2 ⟨hn, hnd⟩) (List.cons_subset.2 ⟨hv, hsub⟩)
            (mem_vertices (mem_targets_iff.1 ht)).2 hsv hlv hvis
          rw [List.length_cons]
          omega
        obtain ⟨h1, h2, h3⟩ := visitEach_leaves hcall (List.cons_subset_cons _ hin) hpush h
        exact ⟨fun x hx => h1 (List.mem_cons_of_mem _ hx), h1 List.mem_cons_self, hn,
          h2.pop (fun y hy => h3 y (mem_targets_iff.2 hy))⟩

/-! ## The victim -/

theorem mem_nodes {x y : Nat} (h : g.Edge x y) : x ∈ g.nodes := by
  obtain ⟨e, he, rfl, -⟩ := h
  rw [nodes, mem_sortedSet]
  exact List.mem_map_of_mem he

theorem search_none (h : (visitEach (g.visit g.depth []) [] g.nodes).2 = none) (x : Nat) : ¬TransGen g.Edge x x := by
  intro hwalk
  have hcall : ∀ t ∈ g.nodes, ∀ v, [] ⊆ v → g.Left [] v → (g.visit g.depth [] v t).2 = none →
      g.Leaves [] v (g.visit g.depth [] v t).1 t := by
    intro t ht v hsv hlv hvis
    refine visit_leaves ?_ List.nodup_nil (List.nil_subset _) ?_ hsv hlv hvis
    · rw [depth_eq, List.length_nil]
      omega
    · rw [nodes, mem_sortedSet, List.mem_map] at ht
      obtain ⟨e, he, rfl⟩ := ht
      exact List.mem_flatMap.2 ⟨e, he, List.mem_cons_self⟩
  obtain ⟨-, hl, hall⟩ := visitEach_leaves hcall (List.nil_subset _) (fun x hx => (by cases hx)) h
  obtain ⟨y, hxy, -⟩ := TransGen.head'_iff.1 hwalk
  exact (hl x (hall x (mem_nodes hxy)).1 (by simp)).2 hwalk

theorem search_some {cycle : List Nat} (h : (visitEach (g.visit g.depth []) [] g.nodes).2 = some cycle) :
    g.SimpleCycle cycle.reverse := by
  obtain ⟨v, node, -, hv⟩ := visitEach_some h
  exact visit_cycle (List.isChain_singleton _) List.nodup_nil hv

theorem SimpleCycle.walk {c : List Nat} (h : g.SimpleCycle c) : ∃ x, TransGen g.Edge x x := by
  obtain ⟨hne, -, hchain⟩ := h
  cases c with
  | nil => exact absurd rfl hne
  | cons x rest =>
    refine ⟨x, ?_⟩
    have hx : (x :: (rest ++ [x])).IsChain (TransGen g.Edge) := hchain.imp (fun _ _ h => .single h)
    have hpair := (List.isChain_iff_pairwise.1 hx)
    exact (List.pairwise_cons.1 hpair).1 x (List.mem_append_right _ (List.mem_singleton_self x))

/-- **Deadlock detection is exact.** -/
theorem deadlockVictim_spec (g : WaitForGraph) : (g.deadlockVictim = none ↔ ∀ x, ¬TransGen g.Edge x x) ∧
    ∀ v, g.deadlockVictim = some v → ∃ c, g.SimpleCycle c ∧ v ∈ c ∧ ∀ x ∈ c, x ≤ v := by
  unfold deadlockVictim
  cases hs : (visitEach (g.visit g.depth []) [] g.nodes).2 with
  | none => exact ⟨⟨fun _ => search_none hs, fun _ => rfl⟩, fun v hv => (by cases hv)⟩
  | some cycle =>
    have hcycle := search_some hs
    refine ⟨⟨fun hmax => ?_, fun hno => ?_⟩, fun v hv => ⟨_, hcycle, ?_, fun x hx => ?_⟩⟩
    · rw [List.max?_eq_none_iff] at hmax
      exact absurd (by rw [hmax]; rfl) hcycle.1
    · obtain ⟨x, hx⟩ := hcycle.walk
      exact absurd hx (hno x)
    · exact List.mem_reverse.2 (List.max?_mem hv)
    · exact (List.max?_eq_some_iff.1 hv).2 x (List.mem_reverse.1 hx)

end WaitForGraph

/-! ## The graph of the lock manager -/

namespace LockManagerState

open WaitForGraph

theorem queueEdges_iff : ∀ {queue blockers : List Nat} {e : Nat × List Nat}, e ∈ queueEdges blockers queue ↔
    ∃ before after, queue = before ++ e.1 :: after ∧ e.2 = blockers ++ before
  | [], blockers, e => by simp [queueEdges]
  | waiter :: queue, blockers, e => by
    rw [queueEdges, List.mem_cons, queueEdges_iff]
    constructor
    · rintro (rfl | ⟨before, after, rfl, he⟩)
      · exact ⟨[], queue, rfl, (List.append_nil _).symm⟩
      · exact ⟨waiter :: before, after, rfl, by rw [he, List.append_assoc]; rfl⟩
    · rintro ⟨before, after, hq, he⟩
      cases before with
      | nil =>
        cases hq
        rw [List.append_nil] at he
        exact .inl (Prod.ext rfl he)
      | cons w before =>
        cases hq
        exact .inr ⟨before, after, rfl, by rw [he, List.append_assoc]; rfl⟩

/-- A queue that is not empty has been made by `setdefault`. -/
def Keyed (s : LockManagerState) : Prop := ∀ r x, x ∈ s.queues r → r ∈ s.queueKeys

variable {s : LockManagerState} {x y : Nat} {r : LockKey} (handler : Bool)

theorem Keyed.leave (h : Keyed s) {state : TransactionState} : Keyed (s.leave x state) :=
  fun r y hy => h r y (List.mem_of_mem_erase hy)

theorem Keyed.enter (h : Keyed s) : Keyed (s.enter x r) := by
  unfold LockManagerState.enter
  simp only
  split
  · exact h
  · intro r' y hy
    simp only [Function.update_apply] at hy
    split at hy
    · rename_i hr
      rw [hr]
      exact List.mem_insert_self
    · exact List.mem_insert_of_mem (h r' y hy)

theorem Keyed.contend (h : Keyed s) : Keyed (s.contend handler x r).1 := by
  unfold LockManagerState.contend
  split
  · intro r' y hy
    simp only [Function.update_apply] at hy
    split at hy
    · rename_i hr
      rw [hr]
      exact h r y (List.mem_of_mem_tail hy)
    · exact h r' y hy
  · split
    · exact h
    · split
      · exact h
      · rename_i s' hv
        unfold abortVictim at hv
        have hs' : Keyed s' := by
          split at hv
          · cases hv
            exact h
          · split at hv
            · exact absurd hv raise_ne_ok
            · cases hv
              exact h.leave
        split <;> exact hs'

theorem Keyed.step (h : Keyed s) (c : LockCall) : Keyed (s.step handler c) := by
  cases c with
  | acquire x r =>
    simp only [LockManagerState.step]
    split
    · exact h
    · split
      · exact h
      · exact (h.enter).contend handler
  | resume x =>
    simp only [LockManagerState.step]
    split
    · split
      · exact h
      · exact h.contend handler
    · exact h
  | release x =>
    simp only [LockManagerState.step]
    split
    · exact h
    · exact h.leave
  | commit x =>
    simp only [LockManagerState.step]
    split
    · exact h
    · exact h.leave
  | rollback x =>
    simp only [LockManagerState.step]
    split
    · exact h
    · exact h.leave
  | fail x =>
    simp only [LockManagerState.step]
    split <;> exact h

theorem keyed_run : ∀ (calls : List LockCall) {s : LockManagerState}, Keyed s → Keyed (s.run handler calls)
  | [], _, h         => h
  | c :: calls, _, h => keyed_run calls (h.step handler c)

/-- **The edges of `_wait_graph`**: from a waiter to the owner of its lock and to the waiters before it. -/
theorem Keyed.waitGraph_edge (h : Keyed s) : s.waitGraph.Edge x y ↔
    ∃ r before after, s.queues r = before ++ x :: after ∧ (s.owners r = some y ∨ y ∈ before) := by
  constructor
  · rintro ⟨e, he, rfl, hy⟩
    obtain ⟨r, -, he⟩ := List.mem_flatMap.1 he
    obtain ⟨before, after, hq, htargets⟩ := queueEdges_iff.1 he
    rw [htargets, List.mem_append, Option.mem_toList] at hy
    exact ⟨r, before, after, hq, hy⟩
  · rintro ⟨r, before, after, hq, hy⟩
    have hkey : r ∈ s.queueKeys := h r x (by rw [hq]; exact List.mem_append_right _ List.mem_cons_self)
    refine ⟨(x, (s.owners r).toList ++ before), List.mem_flatMap.2 ⟨r, hkey, queueEdges_iff.2 ⟨before, after, hq, rfl⟩⟩, rfl, ?_⟩
    rw [List.mem_append, Option.mem_toList]
    exact hy

/-- **The search is exact on every graph, and the lock manager gives it the waits of its queues**, between its calls and when a
call of `acquire` has queued its transaction. -/
theorem deadlock_detection_exact :
    (∀ g : WaitForGraph, (g.deadlockVictim = none ↔ ∀ x, ¬TransGen g.Edge x x) ∧
      ∀ v, g.deadlockVictim = some v → ∃ c, g.SimpleCycle c ∧ v ∈ c ∧ ∀ x ∈ c, x ≤ v) ∧
    ∀ (handler : Bool) (calls : List LockCall) (s : LockManagerState),
      (s = new.run handler calls ∨ ∃ xid resource, s = (new.run handler calls).enter xid resource) → ∀ x y,
        s.waitGraph.Edge x y ↔
          ∃ r before after, s.queues r = before ++ x :: after ∧ (s.owners r = some y ∨ y ∈ before) := by
  refine ⟨deadlockVictim_spec, fun handler calls s hs x y => ?_⟩
  have hrun : Keyed (new.run handler calls) := keyed_run handler calls (fun r x hx => (by cases hx))
  rcases hs with rfl | ⟨xid, resource, rfl⟩
  · exact hrun.waitGraph_edge
  · exact hrun.enter.waitGraph_edge

end LockManagerState
end MiniPostgres
