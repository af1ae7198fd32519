import MiniPostgres.Txn
/-!
# WaitGraph — the wait-for graph and the victim of a deadlock

`transaction/deadlock.py`: a depth-first search over the graph of waiting transactions, in the order of their XIDs, and the
highest XID of the first cycle that it meets.  Each call of `visit` puts a new node on the stack, so the number of nodes bounds
their depth.
-/
namespace MiniPostgres

/-- `edges`: the transactions that block a waiter.  Two entries of one waiter are one set. -/
structure WaitForGraph where
  edges : List (Nat × List Nat)

namespace WaitForGraph

/-- `sorted` of a set. -/
def sortedSet (xs : List Nat) : List Nat := xs.dedup.insertionSort (· ≤ ·)

def targets (g : WaitForGraph) (node : Nat) : List Nat :=
  sortedSet ((g.edges.filter (fun e => decide (e.1 = node))).flatMap (·.2))

def nodes (g : WaitForGraph) : List Nat := sortedSet (g.edges.map (·.1))

/-- A loop over nodes, which ends with the first cycle. -/
def visitEach (visit : List Nat → Nat → List Nat × Option (List Nat)) : List Nat → List Nat → List Nat × Option (List Nat)
  | visited, []              => (visited, none)
  | visited, target :: rest =>
    match visit visited target with
    | (visited, some cycle) => (visited, some cycle)
    | (visited, none)       => visitEach visit visited rest

/-- `visit`, with the stack from its top down; the set `active` is the set of the stack. -/
def visit (g : WaitForGraph) : Nat → List Nat → List Nat → Nat → List Nat × Option (List Nat)
  | 0, _, visited, _             => (visited, none)
  | depth + 1, stack, visited, node =>
    if node ∈ stack then (visited, some (stack.take (stack.idxOf node + 1)))
    else if node ∈ visited then (visited, none)
    else visitEach (visit g depth (node :: stack)) (node :: visited) (g.targets node)

def depth (g : WaitForGraph) : Nat := (g.edges.map (fun e => e.2.length + 1)).sum + 1

def deadlockVictim (g : WaitForGraph) : Option Nat :=
  match (visitEach (g.visit g.depth []) [] g.nodes).2 with
  | some cycle => cycle.max?
  | none       => none

variable {g : WaitForGraph}

theorem mem_sortedSet {xs : List Nat} {x : Nat} : x ∈ sortedSet xs ↔ x ∈ xs := by
  unfold sortedSet
  rw [List.mem_insertionSort, List.mem_dedup]

theorem mem_targets {node x : Nat} : x ∈ g.targets node ↔ ∃ e ∈ g.edges, e.1 = node ∧ x ∈ e.2 := by
  simp only [targets, mem_sortedSet, List.mem_flatMap, List.mem_filter, decide_eq_true_eq, and_assoc]

theorem visitEach_some {f : List Nat → Nat → List Nat × Option (List Nat)} {cycle : List Nat} : ∀ {rest visited : List Nat},
    (visitEach f visited rest).2 = some cycle → ∃ v, ∃ target ∈ rest, (f v target).2 = some cycle
  | [], _, h => by cases h
  | target :: rest, visited, h => by
    unfold visitEach at h
    split at h
    · rename_i hf
      refine ⟨visited, target, List.mem_cons_self, ?_⟩
      rw [hf]
      exact h
    · obtain ⟨v, t, ht, hv⟩ := visitEach_some h
      exact ⟨v, t, List.mem_cons_of_mem _ ht, hv⟩

/-- **Every node of a cycle waits**: the nodes of the stack do, by induction on the calls below them. -/
theorem visit_waits {cycle : List Nat} : ∀ {depth : Nat} {stack visited : List Nat} {node : Nat},
    (∀ n ∈ stack, g.targets n ≠ []) → (g.visit depth stack visited node).2 = some cycle → ∀ n ∈ cycle, g.targets n ≠ []
  | 0, _, _, _, _, h => by cases h
  | depth + 1, stack, visited, node, hs, h => by
    unfold visit at h
    split at h
    · cases h
      exact fun n hn => hs n (List.mem_of_mem_take hn)
    · split at h
      · cases h
      · obtain ⟨v, t, ht, hv⟩ := visitEach_some h
        refine visit_waits (fun n hn => ?_) hv
        rcases List.mem_cons.1 hn with rfl | hn
        · exact List.ne_nil_of_mem ht
        · exact hs n hn

/-- **The victim waits for somebody.** -/
theorem deadlockVictim_waits {v : Nat} (h : g.deadlockVictim = some v) : ∃ e ∈ g.edges, e.1 = v := by
  unfold deadlockVictim at h
  split at h
  · rename_i cycle hc
    obtain ⟨visited, node, -, hv⟩ := visitEach_some hc
    have hw := visit_waits (fun n hn => by cases hn) hv v (List.max?_mem h)
    obtain ⟨x, hx⟩ := List.exists_mem_of_ne_nil _ hw
    obtain ⟨e, he, hev, -⟩ := mem_targets.1 hx
    exact ⟨e, he, hev⟩
  · cases h

end WaitForGraph
end MiniPostgres
