import MiniPostgres.TreeNeighbours
/-!
# TreeDelete — deletion, rebalancing and the separators

`delete` takes an entry out of its leaf, rebalances up to the root, and makes all separators anew.  Until then the pages hold a
tree of the right entries, whatever its separators are (`Loose`); the last step makes a search tree of it, and raises where it
could not.
-/
namespace MiniPostgres

open BTreePages Executors SearchTree

namespace TreeFile

variable {s u : TreeFile} {id n : Nat} {α β : Type}

/-! ## Rebalancing -/

/-- **The pages hold a tree of these entries**, whatever its separators are. -/
def Loose (s : TreeFile) (es : List LeafEntry) : Prop :=
  ∃ (m : Nat) (t : Subtree Key LeafEntry m), Standing s .root t ∧ t.entries = es

theorem Standing.loose {ctx : Context Key LeafEntry n} {t : Subtree Key LeafEntry n} (h : Standing s ctx t) :
    Loose s ((ctx.leavesBefore ++ t.leaves ++ ctx.leavesAfter).flatMap Leaf.entries) := by
  rcases h.rooted with ⟨m, t', hst, hl⟩
  exact ⟨m, t', hst, congrArg (List.flatMap Leaf.entries) hl⟩

/-- All entries, with the children of a node. -/
def entriesWith (up : Context Key LeafEntry (n + 1)) (cs : List (Subtree Key LeafEntry n)) : List LeafEntry :=
  (up.leavesBefore ++ cs.flatMap Subtree.leaves ++ up.leavesAfter).flatMap Leaf.entries

theorem entriesWith_congr (up : Context Key LeafEntry (n + 1)) {cs cs' : List (Subtree Key LeafEntry n)}
    (h : cs.flatMap Subtree.entries = cs'.flatMap Subtree.entries) : entriesWith up cs = entriesWith up cs' := by
  have hflat : ∀ cs : List (Subtree Key LeafEntry n), entriesWith up cs =
      up.leavesBefore.flatMap Leaf.entries ++ cs.flatMap Subtree.entries ++ up.leavesAfter.flatMap Leaf.entries := by
    intro cs
    unfold entriesWith
    rw [List.flatMap_append, List.flatMap_append, List.flatMap_assoc]
    rfl
  rw [hflat, hflat, h]

theorem entriesWith_fill {p : Nat} {ks₁ ks₂ : List Key} {cs₁ cs₂ : List (Subtree Key LeafEntry n)}
    (up : Context Key LeafEntry (n + 1))
    (t : Subtree Key LeafEntry n) : ((Context.frame p ks₁ cs₁ ks₂ cs₂ up).leavesBefore ++ t.leaves ++
      (Context.frame p ks₁ cs₁ ks₂ cs₂ up).leavesAfter).flatMap Leaf.entries = entriesWith up (cs₁ ++ t :: cs₂) := by
  rw [Context.leaves_fill]
  rfl

section
variable {p : Nat} {keys : List Key}

theorem mid_entries {A B C D : List (Subtree Key LeafEntry n)} (h : C.flatMap Subtree.entries = D.flatMap Subtree.entries) :
    (A ++ (C ++ B)).flatMap Subtree.entries = (A ++ (D ++ B)).flatMap Subtree.entries := by
  rw [List.flatMap_append, List.flatMap_append, List.flatMap_append, List.flatMap_append, h]

/-- **Sharing between leaves**, with the left one or the right one. -/
theorem lendLeaf_ok {up : Context Key LeafEntry 1} {cs₁ cs₂ : List (Subtree Key LeafEntry 0)} {i : Nat}
    {es : List LeafEntry} {b : Bool}
    (h : Standing s up (.node p keys (cs₁ ++ .leaf i es :: cs₂)))
    (hrun : borrowLeafLeft i ⟨es, lastId none (leavesLeft up cs₁), firstId (leavesRight up cs₂) none⟩ p cs₁.length
        ⟨keys, (cs₁ ++ .leaf i es :: cs₂).map Subtree.id⟩ s = (.ok b, u) ∨
      borrowLeafRight i ⟨es, lastId none (leavesLeft up cs₁), firstId (leavesRight up cs₂) none⟩ p cs₁.length
        ⟨keys, (cs₁ ++ .leaf i es :: cs₂).map Subtree.id⟩ s = (.ok b, u)) :
    (b = false ∧ u = s) ∨ (b = true ∧ Loose u (entriesWith up (cs₁ ++ .leaf i es :: cs₂))) := by
  have hshare : ∀ {A B : List (Subtree Key LeafEntry 0)} {li ri : Nat} {le re : List LeafEntry},
      ((b = false ∧ u = s) ∨ (b = true ∧ ∃ keys' le' re', le' ++ re' = le ++ re ∧
        Standing u up (.node p keys' (A ++ .leaf li le' :: .leaf ri re' :: B)))) →
      (b = false ∧ u = s) ∨ (b = true ∧ Loose u (entriesWith up (A ++ .leaf li le :: .leaf ri re :: B))) := by
    rintro A B li ri le re (hno | ⟨rfl, keys', le', re', hsame, hst⟩)
    · exact Or.inl hno
    · refine Or.inr ⟨rfl, ?_⟩
      have heq := entriesWith_congr up (mid_entries (A := A) (B := B) (C := [.leaf li le', .leaf ri re'])
        (D := [.leaf li le, .leaf ri re]) (by
          simpa only [List.flatMap_cons, List.flatMap_nil, List.append_nil, Subtree.entries_leaf] using hsame))
      show Loose u (entriesWith up (A ++ ([.leaf li le, .leaf ri re] ++ B)))
      rw [← heq]
      exact hst.loose
  rcases hrun with hrun | hrun
  · rcases List.eq_nil_or_concat' cs₁ with rfl | ⟨A, ⟨li, le⟩, rfl⟩
    · exact Or.inl (pure_eq_ok.1 hrun)
    · have hst : Standing s up (.node p keys (A ++ .leaf li le :: .leaf i es :: cs₂)) := by
        rw [List.append_assoc] at h
        exact h
      have hrun' : borrowLeafLeft i ⟨es, some li, firstId (leavesRight up cs₂) none⟩ p (A.length + 1)
          ⟨keys, (A ++ .leaf li le :: .leaf i es :: cs₂).map Subtree.id⟩ s = (.ok b, u) := by
        have hlen : (A ++ [(Subtree.leaf li le : Subtree Key LeafEntry 0)]).length = A.length + 1 := List.length_append
        have hsplit : A ++ [(Subtree.leaf li le : Subtree Key LeafEntry 0)] ++ .leaf i es :: cs₂ = A ++
          .leaf li le :: .leaf i es :: cs₂ :=
          List.append_assoc _ _ _
        rw [← lastId_leavesLeft up A le, ← hlen, ← hsplit]
        exact hrun
      rw [List.append_assoc]
      exact hshare (borrowLeafLeft_ok hst hrun')
  · rcases cs₂ with _ | ⟨⟨ri, re⟩, B⟩
    · unfold borrowLeafRight at hrun
      rw [if_neg (by simp)] at hrun
      exact Or.inl (pure_eq_ok.1 hrun)
    · exact hshare (borrowLeafRight_ok h hrun)

/-- **Joining leaves**, with the left one or the right one. -/
theorem mergeLeaf_ok {up : Context Key LeafEntry 1} {cs₁ cs₂ : List (Subtree Key LeafEntry 0)} {i : Nat} {es : List LeafEntry}
    {reduced : Option InternalPage} (h : Standing s up (.node p keys (cs₁ ++ .leaf i es :: cs₂)))
    (hrun : mergeLeafLeft ⟨es, lastId none (leavesLeft up cs₁), firstId (leavesRight up cs₂) none⟩ p cs₁.length
        ⟨keys, (cs₁ ++ .leaf i es :: cs₂).map Subtree.id⟩ s = (.ok reduced, u) ∨
      mergeLeafRight i ⟨es, lastId none (leavesLeft up cs₁), firstId (leavesRight up cs₂) none⟩ p cs₁.length
        ⟨keys, (cs₁ ++ .leaf i es :: cs₂).map Subtree.id⟩ s = (.ok reduced, u)) :
    (reduced = none ∧ u = s) ∨ ∃ keys' cs', reduced = some ⟨keys', cs'.map Subtree.id⟩ ∧ Standing u up (.node p keys' cs') ∧
      entriesWith up cs' = entriesWith up (cs₁ ++ .leaf i es :: cs₂) := by
  have hjoin : ∀ {A B : List (Subtree Key LeafEntry 0)} {li ri : Nat} {le re : List LeafEntry},
      ((reduced = none ∧ u = s) ∨ ∃ keys', reduced = some ⟨keys', (A ++ .leaf li (le ++ re) :: B).map Subtree.id⟩ ∧
        Standing u up (.node p keys' (A ++ .leaf li (le ++ re) :: B))) →
      (reduced = none ∧ u = s) ∨ ∃ keys' cs', reduced = some ⟨keys', cs'.map Subtree.id⟩ ∧ Standing u up (.node p keys' cs') ∧
        entriesWith up cs' = entriesWith up (A ++ .leaf li le :: .leaf ri re :: B) := by
    rintro A B li ri le re (hno | ⟨keys', hred, hst⟩)
    · exact Or.inl hno
    · refine Or.inr ⟨keys', _, hred, hst, ?_⟩
      refine entriesWith_congr up (mid_entries (A := A) (B := B) (C := [.leaf li (le ++ re)])
        (D := [.leaf li le, .leaf ri re]) ?_)
      simp only [List.flatMap_cons, List.flatMap_nil, List.append_nil, Subtree.entries_leaf]
  rcases hrun with hrun | hrun
  · rcases List.eq_nil_or_concat' cs₁ with rfl | ⟨A, ⟨li, le⟩, rfl⟩
    · exact Or.inl (pure_eq_ok.1 hrun)
    · have hst : Standing s up (.node p keys (A ++ .leaf li le :: .leaf i es :: cs₂)) := by
        rw [List.append_assoc] at h
        exact h
      have hrun' : mergeLeafLeft ⟨es, some li, firstId (leavesRight up cs₂) none⟩ p (A.length + 1)
          ⟨keys, (A ++ .leaf li le :: .leaf i es :: cs₂).map Subtree.id⟩ s = (.ok reduced, u) := by
        have hlen : (A ++ [(Subtree.leaf li le : Subtree Key LeafEntry 0)]).length = A.length + 1 := List.length_append
        have hsplit : A ++ [(Subtree.leaf li le : Subtree Key LeafEntry 0)] ++ .leaf i es :: cs₂ = A ++
          .leaf li le :: .leaf i es :: cs₂ :=
          List.append_assoc _ _ _
        rw [← lastId_leavesLeft up A le, ← hlen, ← hsplit]
        exact hrun
      rw [List.append_assoc]
      exact hjoin (mergeLeafLeft_ok hst hrun')
  · rcases cs₂ with _ | ⟨⟨ri, re⟩, B⟩
    · unfold mergeLeafRight at hrun
      rw [if_neg (by simp)] at hrun
      exact Or.inl (pure_eq_ok.1 hrun)
    · exact hjoin (mergeLeafRight_ok h hrun)

/-- **Sharing between internal pages**. -/
theorem lendInternal_ok {up : Context Key LeafEntry (n + 2)} {cs₁ cs₂ : List (Subtree Key LeafEntry (n + 1))}
    {i : Nat} {ks : List Key}
    {cs : List (Subtree Key LeafEntry n)} {b : Bool} (h : Standing s up (.node p keys (cs₁ ++ .node i ks cs :: cs₂)))
    (hrun : borrowInternalLeft i ⟨ks, cs.map Subtree.id⟩ p cs₁.length
      ⟨keys, (cs₁ ++ .node i ks cs :: cs₂).map Subtree.id⟩ s = (.ok b, u) ∨
      borrowInternalRight i ⟨ks, cs.map Subtree.id⟩ p cs₁.length ⟨keys,
        (cs₁ ++ .node i ks cs :: cs₂).map Subtree.id⟩ s = (.ok b, u)) :
    (b = false ∧ u = s) ∨ (b = true ∧ Loose u (entriesWith up (cs₁ ++ .node i ks cs :: cs₂))) := by
  have hshare : ∀ {A B : List (Subtree Key LeafEntry
    (n + 1))} {li ri : Nat} {lk rk : List Key} {lc rc : List (Subtree Key LeafEntry n)},
      ((b = false ∧ u = s) ∨ (b = true ∧ ∃ keys' lk' lc' rk' rc', lc' ++ rc' = lc ++ rc ∧
        Standing u up (.node p keys' (A ++ .node li lk' lc' :: .node ri rk' rc' :: B)))) →
      (b = false ∧ u = s) ∨ (b = true ∧ Loose u (entriesWith up (A ++ .node li lk lc :: .node ri rk rc :: B))) := by
    rintro A B li ri lk rk lc rc (hno | ⟨rfl, keys', lk', lc', rk', rc', hsame, hst⟩)
    · exact Or.inl hno
    · refine Or.inr ⟨rfl, ?_⟩
      have heq := entriesWith_congr up (mid_entries (A := A) (B := B) (C := [.node li lk' lc', .node ri rk' rc'])
        (D := [.node li lk lc, .node ri rk rc]) (by
          have hflat := congrArg (List.flatMap Subtree.entries) hsame
          simpa only [List.flatMap_cons, List.flatMap_nil, List.append_nil, Subtree.entries_node,
            List.flatMap_append] using hflat))
      show Loose u (entriesWith up (A ++ ([.node li lk lc, .node ri rk rc] ++ B)))
      rw [← heq]
      exact hst.loose
  rcases hrun with hrun | hrun
  · rcases List.eq_nil_or_concat' cs₁ with rfl | ⟨A, ⟨li, lk, lc⟩, rfl⟩
    · exact Or.inl (pure_eq_ok.1 hrun)
    · have hst : Standing s up (.node p keys (A ++ .node li lk lc :: .node i ks cs :: cs₂)) := by
        rw [List.append_assoc] at h
        exact h
      have hrun' : borrowInternalLeft i ⟨ks, cs.map Subtree.id⟩ p (A.length + 1)
          ⟨keys, (A ++ .node li lk lc :: .node i ks cs :: cs₂).map Subtree.id⟩ s = (.ok b, u) := by
        have hlen : (A ++ [(Subtree.node li lk lc : Subtree Key LeafEntry (n + 1))]).length = A.length + 1 := List.length_append
        have hsplit : A ++ [(Subtree.node li lk lc : Subtree Key LeafEntry (n + 1))] ++ .node i ks cs :: cs₂ =
          A ++ .node li lk lc :: .node i ks cs :: cs₂ := List.append_assoc _ _ _
        rw [← hlen, ← hsplit]
        exact hrun
      rw [List.append_assoc]
      exact hshare (borrowInternalLeft_ok hst hrun')
  · rcases cs₂ with _ | ⟨⟨ri, rk, rc⟩, B⟩
    · unfold borrowInternalRight at hrun
      rw [if_neg (by simp)] at hrun
      exact Or.inl (pure_eq_ok.1 hrun)
    · exact hshare (borrowInternalRight_ok h hrun)

/-- **Joining internal pages**. -/
theorem mergeInternal_ok {up : Context Key LeafEntry (n + 2)} {cs₁ cs₂ : List (Subtree Key LeafEntry (n + 1))}
    {i : Nat} {ks : List Key}
    {cs : List (Subtree Key LeafEntry n)} {reduced : Option InternalPage}
    (h : Standing s up (.node p keys (cs₁ ++ .node i ks cs :: cs₂)))
    (hrun : mergeInternalLeft ⟨ks, cs.map Subtree.id⟩ p cs₁.length ⟨keys, (cs₁ ++ .node i ks cs :: cs₂).map Subtree.id⟩ s =
        (.ok reduced, u) ∨
      mergeInternalRight i ⟨ks, cs.map Subtree.id⟩ p cs₁.length ⟨keys, (cs₁ ++ .node i ks cs :: cs₂).map Subtree.id⟩ s =
        (.ok reduced, u)) :
    (reduced = none ∧ u = s) ∨ ∃ keys' cs', reduced = some ⟨keys', cs'.map Subtree.id⟩ ∧ Standing u up (.node p keys' cs') ∧
      entriesWith up cs' = entriesWith up (cs₁ ++ .node i ks cs :: cs₂) := by
  have hjoin : ∀ {A B : List (Subtree Key LeafEntry
    (n + 1))} {li ri : Nat} {lk rk : List Key} {lc rc : List (Subtree Key LeafEntry n)},
      ((reduced = none ∧ u = s) ∨ ∃ keys' mk, reduced = some ⟨keys', (A ++ .node li mk (lc ++ rc) :: B).map Subtree.id⟩ ∧
        Standing u up (.node p keys' (A ++ .node li mk (lc ++ rc) :: B))) →
      (reduced = none ∧ u = s) ∨ ∃ keys' cs', reduced = some ⟨keys', cs'.map Subtree.id⟩ ∧ Standing u up (.node p keys' cs') ∧
        entriesWith up cs' = entriesWith up (A ++ .node li lk lc :: .node ri rk rc :: B) := by
    rintro A B li ri lk rk lc rc (hno | ⟨keys', mk, hred, hst⟩)
    · exact Or.inl hno
    · refine Or.inr ⟨keys', _, hred, hst, ?_⟩
      refine entriesWith_congr up (mid_entries (A := A) (B := B) (C := [.node li mk (lc ++ rc)])
        (D := [.node li lk lc, .node ri rk rc]) ?_)
      simp only [List.flatMap_cons, List.flatMap_nil, List.append_nil, Subtree.entries_node, List.flatMap_append]
  rcases hrun with hrun | hrun
  · rcases List.eq_nil_or_concat' cs₁ with rfl | ⟨A, ⟨li, lk, lc⟩, rfl⟩
    · exact Or.inl (pure_eq_ok.1 hrun)
    · have hst : Standing s up (.node p keys (A ++ .node li lk lc :: .node i ks cs :: cs₂)) := by
        rw [List.append_assoc] at h
        exact h
      have hrun' : mergeInternalLeft ⟨ks, cs.map Subtree.id⟩ p (A.length + 1)
          ⟨keys, (A ++ .node li lk lc :: .node i ks cs :: cs₂).map Subtree.id⟩ s = (.ok reduced, u) := by
        have hlen : (A ++ [(Subtree.node li lk lc : Subtree Key LeafEntry (n + 1))]).length = A.length + 1 := List.length_append
        have hsplit : A ++ [(Subtree.node li lk lc : Subtree Key LeafEntry (n + 1))] ++ .node i ks cs :: cs₂ =
          A ++ .node li lk lc :: .node i ks cs :: cs₂ := List.append_assoc _ _ _
        rw [← hlen, ← hsplit]
        exact hrun
      rw [List.append_assoc]
      exact hjoin (mergeInternalLeft_ok hst hrun')
  · rcases cs₂ with _ | ⟨⟨ri, rk, rc⟩, B⟩
    · unfold mergeInternalRight at hrun
      rw [if_neg (by simp)] at hrun
      exact Or.inl (pure_eq_ok.1 hrun)
    · exact hjoin (mergeInternalRight_ok h hrun)

end

/-- **The root is the lowest node or on the way to it.** -/
theorem HoldsAround.root : ∀ {n : Nat} {ctx : Context Key LeafEntry n} {hole : Nat}, HoldsAround s ctx hole →
    s.rootPageId = hole ∨ 1 ≤ ctx.count s.rootPageId
  | _, .root, _, h                        => Or.inl h.1
  | _, .frame p ks₁ cs₁ ks₂ cs₂ up, _, h => by
    refine Or.inr ?_
    show 1 ≤ (if p = s.rootPageId then 1 else 0) + (cs₁.map (Subtree.count s.rootPageId)).sum +
      (cs₂.map (Subtree.count s.rootPageId)).sum + up.count s.rootPageId
    rcases h.2.2.2.2.root with hp | hup
    · rw [if_pos hp.symm]
      omega
    · omega

theorem Standing.below_root {p : Nat} {ks₁ ks₂ : List Key} {cs₁ cs₂ : List (Subtree Key LeafEntry n)}
    {up : Context Key LeafEntry (n + 1)}
    {t : Subtree Key LeafEntry n} (h : Standing s (.frame p ks₁ cs₁ ks₂ cs₂ up) t) : t.id ≠ s.rootPageId := by
  intro heq
  have hcount : 1 ≤ Context.count s.rootPageId (.frame p ks₁ cs₁ ks₂ cs₂ up) := by
    show 1 ≤ (if p = s.rootPageId then 1 else 0) + (cs₁.map (Subtree.count s.rootPageId)).sum +
      (cs₂.map (Subtree.count s.rootPageId)).sum + up.count s.rootPageId
    rcases h.around.2.2.2.2.root with hp | hup
    · rw [if_pos hp.symm]
      omega
    · omega
  have hone := h.once s.rootPageId
  have hid := Subtree.count_id t
  rw [heq] at hid
  omega

/-- **The root with one child left.** -/
theorem shrinkRoot_ok {i : Nat} {ks : List Key} {cs : List (Subtree Key LeafEntry n)} (h : Standing s .root (.node i ks cs))
    (hrun : shrinkRoot ⟨ks, cs.map Subtree.id⟩ s = (.ok (), u)) : Loose u (cs.flatMap Subtree.entries) := by
  have hall : Loose s (cs.flatMap Subtree.entries) := ⟨n + 1, _, h, Subtree.entries_node i ks cs⟩
  obtain ⟨height, s₁, hread, hrun₁⟩ := Program.bind_eq_ok.1 hrun
  obtain ⟨rfl, rfl⟩ := read_eq_ok.1 hread
  rcases cs with _ | ⟨c, _ | ⟨d, ds⟩⟩
  · obtain ⟨-, rfl⟩ := pure_eq_ok.1 hrun₁
    exact hall
  · have hrun₁ : (if s₁.height > 1 then (do
        .modify fun s => { s with rootPageId := c.id, height := s.height - 1 }
        writeMeta) else pure () : Action Unit) s₁ = (.ok (), u) := hrun₁
    split at hrun₁
    · obtain ⟨_, s₂, hm, hrun₂⟩ := Program.bind_eq_ok.1 hrun₁
      cases hm
      obtain ⟨hsame, -, -, hroot, hheight, hmeta⟩ := writeMeta_eq_ok hrun₂
      have hkeep : ∀ {x : Nat} {d : Content}, contentAt s₁ x = some d → contentAt u x = some d :=
        fun hd => (hsame _ (ne_zero_of_contentAt h.metapage hd)).trans hd
      have hchild := (holds_node.1 h.holds).2 c List.mem_cons_self
      refine ⟨n, c, ⟨⟨hroot, hheight.trans ?_⟩, hchild.keeps fun x _ p hp => hkeep hp, ?_, fun x => ?_, ?_⟩, ?_⟩
      · show s₁.height - 1 = n + 1
        rw [h.around.2]
        rfl
      · have hs := h.strungRoot.keeps (u := u) fun l _ p hp => hkeep hp
        rw [Subtree.leaves_node, List.flatMap_singleton] at hs
        show Strung u none ([] ++ c.leaves ++ []) none
        rwa [List.nil_append, List.append_nil]
      · have hone := h.once x
        rw [Subtree.count_node, List.map_singleton, List.sum_singleton] at hone
        show 0 + c.count x ≤ 1
        omega
      · rw [hmeta, hroot, hheight]
      · rw [List.flatMap_singleton]
    · obtain ⟨-, rfl⟩ := pure_eq_ok.1 hrun₁
      exact hall
  · obtain ⟨-, rfl⟩ := pure_eq_ok.1 hrun₁
    exact hall

/-- **Share with a neighbour, else join with one**: what holds after each way out holds after all. -/
theorem rebalanced {lendLeft lendRight : Action Bool} {mergeLeft mergeRight : Action (Option InternalPage)}
    {next : InternalPage → Action Unit}
    {P : TreeFile → Prop} (hall : P s)
    (hlend : ∀ {b v}, lendLeft s = (.ok b, v) ∨ lendRight s = (.ok b, v) → (b = false ∧ v = s) ∨ (b = true ∧ P v))
    (hmerge : ∀ {r v}, mergeLeft s = (.ok r, v) ∨ mergeRight s = (.ok r, v) →
      (r = none ∧ v = s) ∨ ∃ page, r = some page ∧ ∀ {w}, next page v = (.ok (), w) → P w)
    (hrun : (do
      if ← lendLeft then pure ()
      else if ← lendRight then pure ()
      else
        match ← mergeLeft with
        | some reduced => next reduced
        | none         =>
          match ← mergeRight with
          | some reduced => next reduced
          | none         => pure () : Action Unit) s = (.ok (), u)) : P u := by
  obtain ⟨b, v, hleft, hrun₁⟩ := Program.bind_eq_ok.1 hrun
  rcases hlend (Or.inl hleft) with ⟨rfl, rfl⟩ | ⟨rfl, hP⟩
  rotate_left
  · obtain ⟨-, rfl⟩ := pure_eq_ok.1 hrun₁
    exact hP
  obtain ⟨b, w, hright, hrun₂⟩ := Program.bind_eq_ok.1 hrun₁
  rcases hlend (Or.inr hright) with ⟨rfl, rfl⟩ | ⟨rfl, hP⟩
  rotate_left
  · obtain ⟨-, rfl⟩ := pure_eq_ok.1 hrun₂
    exact hP
  obtain ⟨reduced, x, hmergeLeft, hrun₃⟩ := Program.bind_eq_ok.1 hrun₂
  rcases hmerge (Or.inl hmergeLeft) with ⟨rfl, rfl⟩ | ⟨page, rfl, hnext⟩
  rotate_left
  · exact hnext hrun₃
  obtain ⟨reduced, y, hmergeRight, hrun₄⟩ := Program.bind_eq_ok.1 hrun₃
  rcases hmerge (Or.inr hmergeRight) with ⟨rfl, rfl⟩ | ⟨page, rfl, hnext⟩
  · obtain ⟨-, rfl⟩ := pure_eq_ok.1 hrun₄
    exact hall
  · exact hnext hrun₄

/-- **`_rebalance_internal`** keeps the entries, up to the root. -/
theorem rebalanceInternal_ok : ∀ {n : Nat} {ctx : Context Key LeafEntry (n + 1)} {i : Nat} {ks : List Key}
    {cs : List (Subtree Key LeafEntry n)} {s u : TreeFile}, Standing s ctx (.node i ks cs) →
    rebalanceInternal i ⟨ks, cs.map Subtree.id⟩ ctx.path s = (.ok (), u) → Loose u (entriesWith ctx cs)
  | n, .root, i, ks, cs, s, u, h, hrun                     => by
    have hall : entriesWith (.root : Context Key LeafEntry (n + 1)) cs = cs.flatMap Subtree.entries := by
      show ([] ++ cs.flatMap Subtree.leaves ++ []).flatMap Leaf.entries = _
      rw [List.nil_append, List.append_nil, List.flatMap_assoc]
      rfl
    rw [hall]
    have hrun : rebalanceInternal i ⟨ks, cs.map Subtree.id⟩ [] s = (.ok (), u) := hrun
    unfold rebalanceInternal at hrun
    obtain ⟨root, s₁, hread, hrun₁⟩ := Program.bind_eq_ok.1 hrun
    obtain ⟨rfl, rfl⟩ := read_eq_ok.1 hread
    rw [if_pos (show i = s₁.rootPageId from h.around.1.symm)] at hrun₁
    exact shrinkRoot_ok h hrun₁
  | n, .frame p ks₁ cs₁ ks₂ cs₂ up, i, ks, cs, s, u, h, hrun => by
    have hfill : entriesWith (.frame p ks₁ cs₁ ks₂ cs₂ up) cs = entriesWith up (cs₁ ++ .node i ks cs :: cs₂) :=
      entriesWith_fill up (.node i ks cs)
    rw [hfill]
    have hup : Standing s up (.node p (ks₁ ++ ks₂) (cs₁ ++ .node i ks cs :: cs₂)) := h.up
    have hrun : rebalanceInternal i ⟨ks, cs.map Subtree.id⟩ ((p, cs₁.length) :: up.path) s = (.ok (), u) := hrun
    unfold rebalanceInternal at hrun
    obtain ⟨root, s₁, hread, hrun₁⟩ := Program.bind_eq_ok.1 hrun
    obtain ⟨rfl, rfl⟩ := read_eq_ok.1 hread
    rw [if_neg (show i ≠ s₁.rootPageId from h.below_root)] at hrun₁
    obtain ⟨full, s₂, hfull, hrun₂⟩ := Program.bind_eq_ok.1 hrun₁
    obtain rfl := halfFull_eq_ok hfull
    split at hrun₂
    · obtain ⟨-, rfl⟩ := pure_eq_ok.1 hrun₂
      exact hup.loose
    obtain ⟨parent, s₃, hparent, hrun₃⟩ := Program.bind_eq_ok.1 hrun₂
    obtain ⟨hpage, rfl⟩ := readInternal_eq_ok.1 hparent
    cases (holds_node.1 hup.holds).1.symm.trans hpage
    refine rebalanced (P := fun v => Loose v (entriesWith up (cs₁ ++ .node i ks cs :: cs₂))) hup.loose
      (lendInternal_ok hup) (fun hm => ?_) hrun₃
    rcases mergeInternal_ok hup hm with hno | ⟨keys', cs', hreduced, hst, heq⟩
    · exact Or.inl hno
    · refine Or.inr ⟨_, hreduced, fun hnext => ?_⟩
      rw [← heq]
      exact rebalanceInternal_ok hst hnext

/-- **`_rebalance_leaf`** keeps the entries. -/
theorem rebalanceLeaf_ok {ctx : Context Key LeafEntry 0} {es : List LeafEntry} (h : Standing s ctx (.leaf id es))
    (hrun : rebalanceLeaf id ⟨es, lastId none ctx.leavesBefore, firstId ctx.leavesAfter none⟩ ctx.path s = (.ok (), u)) :
    Loose u ((ctx.leavesBefore ++ ⟨id, es⟩ :: ctx.leavesAfter).flatMap Leaf.entries) := by
  have hall : Loose s ((ctx.leavesBefore ++ ⟨id, es⟩ :: ctx.leavesAfter).flatMap Leaf.entries) := by
    have hloose := h.loose
    rwa [Subtree.leaves_leaf, List.append_assoc] at hloose
  cases ctx with
  | root                         =>
    obtain ⟨-, rfl⟩ := pure_eq_ok.1 hrun
    exact hall
  | frame p ks₁ cs₁ ks₂ cs₂ up =>
    have hfill : ((Context.frame p ks₁ cs₁ ks₂ cs₂ up).leavesBefore ++ ⟨id, es⟩ ::
        (Context.frame p ks₁ cs₁ ks₂ cs₂ up).leavesAfter).flatMap Leaf.entries = entriesWith up (cs₁ ++ .leaf id es :: cs₂) := by
      rw [← entriesWith_fill (p := p) up, Subtree.leaves_leaf, List.append_assoc, List.singleton_append]
    rw [hfill] at hall ⊢
    have hup : Standing s up (.node p (ks₁ ++ ks₂) (cs₁ ++ .leaf id es :: cs₂)) := h.up
    have hrun : rebalanceLeaf id ⟨es, lastId none (leavesLeft up cs₁), firstId (leavesRight up cs₂) none⟩
      ((p, cs₁.length) :: up.path) s = (.ok (), u) := hrun
    unfold rebalanceLeaf at hrun
    obtain ⟨full, s₂, hfull, hrun₂⟩ := Program.bind_eq_ok.1 hrun
    obtain rfl := halfFull_eq_ok hfull
    split at hrun₂
    · obtain ⟨-, rfl⟩ := pure_eq_ok.1 hrun₂
      exact hall
    obtain ⟨parent, s₃, hparent, hrun₃⟩ := Program.bind_eq_ok.1 hrun₂
    obtain ⟨hpage, rfl⟩ := readInternal_eq_ok.1 hparent
    cases (holds_node.1 hup.holds).1.symm.trans hpage
    refine rebalanced (P := fun v => Loose v (entriesWith up (cs₁ ++ .leaf id es :: cs₂))) hall
      (lendLeaf_ok hup) (fun hm => ?_) hrun₃
    rcases mergeLeaf_ok hup hm with hno | ⟨keys', cs', hreduced, hst, heq⟩
    · exact Or.inl hno
    · refine Or.inr ⟨_, hreduced, fun hnext => ?_⟩
      rw [← heq]
      exact rebalanceInternal_ok hst hnext

/-! ## Where the entry is -/

/-- **The walk to the leaf of an entry.** -/
theorem locate_loop (key : Key) (tid : TID) : ∀ (n : Nat) (before : List (Leaf LeafEntry)) (l : Leaf LeafEntry)
    (after : List (Leaf LeafEntry)), Strung s none (before ++ l :: after) none →
      Ordered (before ++ l :: after) → after.length < n →
    ∃ found, Program.loop Failure.interrupted (fun leafId => (do
        let leaf ← readLeaf leafId
        if ⟨key, tid⟩ ∈ leaf.entries then pure (.inr (some leafId))
        else do
          match ← onRight key leaf with
          | none              => pure (.inr none)
          | some (sibling, _) => pure (.inl sibling) : Action (Nat ⊕ Option Nat))) n l.id s = (.ok found, s) ∧
      (∀ id, found = some id → ∃ m ∈ l :: after, m.id = id ∧ (⟨key, tid⟩ : LeafEntry) ∈ m.entries) ∧
      (found = none → (⟨key, tid⟩ : LeafEntry) ∉ (l :: after).flatMap Leaf.entries)
  | 0, _, _, _, _, _, hn              => absurd hn (Nat.not_lt_zero _)
  | n + 1, before, l, after, hs, ho, hn => by
    unfold Program.loop
    by_cases hin : (⟨key, tid⟩ : LeafEntry) ∈ l.entries
    · refine ⟨some l.id, ?_, fun id hid => ?_, fun hnone => absurd hnone (Option.some_ne_none _)⟩
      · rw [Program.bind_ok (a := .inr (some l.id)) (t := s)]
        · rfl
        · exact (Program.bind_ok hs.page).trans (congrFun (if_pos hin) s)
      · cases hid
        exact ⟨l, List.mem_cons_self, rfl, hin⟩
    · rcases onRight_ok hs ho (k := key) with ⟨hrun, habove⟩ | ⟨m, ms, rfl, hrun⟩
      · refine ⟨none, ?_, fun id hid => absurd hid.symm (Option.some_ne_none _), fun _ hmem => ?_⟩
        · rw [Program.bind_ok (a := .inr none) (t := s)]
          · rfl
          · refine (Program.bind_ok hs.page).trans ((congrFun (if_neg hin) s).trans ?_)
            rw [Program.bind_ok hrun]
            rfl
        · rw [List.flatMap_cons] at hmem
          rcases List.mem_append.1 hmem with hmem | hmem
          · exact hin hmem
          · exact lt_irrefl _ (habove _ hmem)
      · have hsplit : before ++ l :: m :: ms = (before ++ [l]) ++ m :: ms := by
          rw [List.append_assoc]
          rfl
        rw [hsplit] at ho
        have hs' := hs
        rw [hsplit] at hs'
        rw [List.length_cons] at hn
        rcases locate_loop key tid n (before ++ [l]) m ms hs' ho (by omega) with ⟨found, hloop, hsome, hnone⟩
        refine ⟨found, ?_, fun id hid => ?_, fun hno hmem => ?_⟩
        · rw [Program.bind_ok (a := .inl m.id) (t := s)]
          · exact hloop
          · refine (Program.bind_ok hs.page).trans ((congrFun (if_neg hin) s).trans ?_)
            rw [Program.bind_ok hrun]
            rfl
        · obtain ⟨a, ha, hid, he⟩ := hsome id hid
          exact ⟨a, List.mem_cons_of_mem l ha, hid, he⟩
        · rw [List.flatMap_cons] at hmem
          rcases List.mem_append.1 hmem with hmem | hmem
          · exact hin hmem
          · exact hnone hno hmem

theorem mem_pairs {leaves : List (Leaf LeafEntry)} {key : Key} {tid : TID} :
    (key, tid) ∈ pairs leaves ↔ (⟨key, tid⟩ : LeafEntry) ∈ leaves.flatMap Leaf.entries := by
  unfold pairs
  rw [List.mem_map]
  constructor
  · rintro ⟨⟨k, t⟩, hmem, heq⟩
    cases heq
    exact hmem
  · exact fun hmem => ⟨_, hmem, rfl⟩

/-- **`_locate_entry_leaf`** -/
theorem locateEntryLeaf_ok {t : Subtree Key LeafEntry n} (h : Valid s t) (key : Key) (tid : TID) :
    ∃ found, locateEntryLeaf key tid s = (.ok found, s) ∧
      (∀ id, found = some id → ∃ m ∈ t.leaves, m.id = id ∧ (⟨key, tid⟩ : LeafEntry) ∈ m.entries) ∧
      (found = none → (key, tid) ∉ pairs t.leaves) := by
  rcases firstLeaf_ok h key with ⟨before, l, after, hfirst, hsplit, hlt⟩
  have hs := h.standing.strungRoot
  have ho := h.ordered
  have hroom := h.room
  rw [hsplit] at hs ho hroom
  rw [List.length_append, List.length_cons] at hroom
  rcases locate_loop key tid s.pages.length before l after hs ho (by omega) with ⟨found, hloop, hsome, hnone⟩
  have hpage : firstLeafPage key s = (.ok l.id, s) := by
    unfold firstLeafPage
    rw [Program.bind_ok hfirst]
    rfl
  refine ⟨found, (Program.bind_ok hpage).trans hloop, fun id hid => ?_, fun hno hmem => ?_⟩
  · obtain ⟨m, hm, hid, he⟩ := hsome id hid
    exact ⟨m, hsplit ▸ List.mem_append_right before hm, hid, he⟩
  · rw [mem_pairs, hsplit, List.flatMap_append] at hmem
    rcases List.mem_append.1 hmem with hmem | hmem
    · exact lt_irrefl _ (hlt _ hmem)
    · exact hnone hno hmem

/-! ## The way to a leaf -/

theorem firstOf_ok {P : β → Prop} {body : α → Action (Option β)} : ∀ {as : List α} {r : Option β} {s u : TreeFile},
    (∀ a ∈ as, ∀ {r v}, body a s = (.ok r, v) → v = s ∧ ∀ b, r = some b → P b) → firstOf body as s = (.ok r, u) →
    u = s ∧ ∀ b, r = some b → P b
  | [], _, _, _, _, hrun      => by
    obtain ⟨rfl, rfl⟩ := pure_eq_ok.1 hrun
    exact ⟨rfl, fun b hb => absurd hb.symm (Option.some_ne_none b)⟩
  | a :: as, _, _, _, h, hrun => by
    obtain ⟨found, v, hbody, hrest⟩ := Program.bind_eq_ok.1 hrun
    obtain ⟨rfl, hfound⟩ := h a List.mem_cons_self hbody
    cases found with
    | none   => exact firstOf_ok (fun b hb => h b (List.mem_cons_of_mem a hb)) hrest
    | some b =>
      obtain ⟨rfl, rfl⟩ := pure_eq_ok.1 hrest
      exact ⟨rfl, hfound⟩

/-- **The search for a page** finds the way to a leaf. -/
theorem visit_ok {target : Nat} : ∀ {n : Nat} {ctx : Context Key LeafEntry n} {t : Subtree Key LeafEntry n} {lo hi : Option Key}
    {r : Option (List (Nat × Nat))} {s u : TreeFile}, Standing s ctx t → t.Bounded LeafEntry.key lo hi →
    visit target n t.id ctx.path s = (.ok r, u) →
    u = s ∧ ∀ p, r = some p → ∃ (c : Context Key LeafEntry 0) (leaf : Leaf LeafEntry), leaf.id = target ∧ c.path = p ∧
      Standing s c (.leaf leaf.id leaf.entries) ∧
      c.leavesBefore ++ leaf :: c.leavesAfter = ctx.leavesBefore ++ t.leaves ++ ctx.leavesAfter
  | 0, ctx, ⟨i, es⟩, lo, hi, r, s, u, h, _, hrun         => by
    obtain ⟨rfl, rfl⟩ := pure_eq_ok.1 hrun
    refine ⟨rfl, fun p hp => ?_⟩
    split at hp
    · rename_i hid
      cases hp
      refine ⟨ctx, ⟨i, es⟩, hid, rfl, h, ?_⟩
      show _ = ctx.leavesBefore ++ [(⟨i, es⟩ : Leaf LeafEntry)] ++ ctx.leavesAfter
      rw [List.append_assoc]
      rfl
    · cases hp
  | n + 1, ctx, ⟨i, ks, cs⟩, lo, hi, r, s, u, h, ht, hrun => by
    have hstand : Standing s ctx (Subtree.node i ks cs) := h
    have hcuts := Subtree.bounded_node.1 (show (Subtree.node i ks cs).Bounded LeafEntry.key lo hi from ht)
    have hlen := hcuts.length
    have hrun : visit target (n + 1) i ctx.path s = (.ok r, u) := hrun
    unfold visit at hrun
    obtain ⟨internal, v, hread, hrun₁⟩ := Program.bind_eq_ok.1 hrun
    obtain ⟨hpage, rfl⟩ := readInternal_eq_ok.1 hread
    cases (holds_node.1 hstand.holds).1.symm.trans hpage
    refine firstOf_ok (fun a ha r w hbody => ?_) hrun₁
    obtain ⟨child, index⟩ := a
    have hget : (cs.map Subtree.id)[index]? = some child := List.mem_zipIdx_iff_getElem?.1 ha
    rw [List.getElem?_map] at hget
    obtain ⟨c, hc, rfl⟩ := Option.map_eq_some_iff.1 hget
    obtain ⟨hlt, rfl⟩ := List.getElem?_eq_some_iff.1 hc
    have hcs : cs.take index ++ cs[index] :: cs.drop (index + 1) = cs := by
      rw [← List.drop_eq_getElem_cons hlt, List.take_append_drop]
    have hsame : (cs.take index).length = (ks.take index).length := by
      rw [List.length_take, List.length_take]
      omega
    have hfill : Context.fill i (ks.take index) (cs.take index) (ks.drop index) (cs.drop (index + 1)) cs[index] =
        Subtree.node i ks cs := by
      unfold Context.fill
      rw [List.take_append_drop, hcs]
    have hpath : (i, index) :: ctx.path = (Context.frame i (ks.take index) (cs.take index) (ks.drop index)
        (cs.drop (index + 1)) ctx).path := by
      show _ = (i, (cs.take index).length) :: ctx.path
      rw [List.length_take, min_eq_left (le_of_lt hlt)]
    rw [← hfill] at hstand
    obtain ⟨a, b, hbounded⟩ := hcuts.child cs[index] (List.getElem_mem hlt)
    dsimp only at hbody
    rw [hpath] at hbody
    obtain ⟨rfl, hfound⟩ := visit_ok (hstand.down hsame) hbounded hbody
    refine ⟨rfl, fun p hp => ?_⟩
    obtain ⟨c, leaf, hid, hp, hst, hleaves⟩ := hfound p hp
    refine ⟨c, leaf, hid, hp, hst, ?_⟩
    rw [hleaves, Context.leaves_fill, hfill]
    rfl

/-! ## The separators made anew -/

/-- **What making separators leaves as it was.** -/
structure Refreshed (s u : TreeFile) : Prop where
  leaves   : ∀ x p, contentAt s x = some (.leaf p) → contentAt u x = some (.leaf p)
  root     : u.rootPageId = s.rootPageId
  height   : u.height = s.height
  metapage : ∀ m, metaAt s = some m → metaAt u = some m

theorem Refreshed.refl (s : TreeFile) : Refreshed s s := ⟨fun _ _ h => h, rfl, rfl, fun _ h => h⟩

theorem Refreshed.trans {s v u : TreeFile} (h₁ : Refreshed s v) (h₂ : Refreshed v u) : Refreshed s u :=
  ⟨fun x p h => h₂.leaves x p (h₁.leaves x p h), h₂.root.trans h₁.root, h₂.height.trans h₁.height,
    fun m h => h₂.metapage m (h₁.metapage m h)⟩

/-- The leaves of a subtree are in their pages. -/
def LeavesIn (s : TreeFile) (t : Subtree Key LeafEntry n) : Prop :=
  ∀ l ∈ t.leaves, ∃ left right, contentAt s l.id = some (.leaf ⟨l.entries, left, right⟩)

theorem LeavesIn.refreshed {t : Subtree Key LeafEntry n} (h : LeavesIn s t) (hr : Refreshed s u) : LeavesIn u t := by
  intro l hl
  obtain ⟨left, right, hc⟩ := h l hl
  exact ⟨left, right, hr.leaves _ _ hc⟩

/-- What one call does to a subtree. -/
def RefreshedAt (s u : TreeFile) (t : Subtree Key LeafEntry n) : Prop :=
  Refreshed s u ∧ (∀ x, t.count x = 0 → contentAt u x = contentAt s x) ∧
    Holds u (t.refresh LeafEntry.key) ∧ t.Filled LeafEntry.key

theorem mapEach_refresh {m : MetaPage}
    (ih : ∀ {t : Subtree Key LeafEntry n} {s u : TreeFile} {k : Option Key}, metaAt s = some m →
      Holds s t → LeavesIn s t → (∀ x, t.count x ≤ 1) → refreshAllSeparators n t.id s = (.ok k, u) →
      RefreshedAt s u t ∧ k = t.firstKey LeafEntry.key) :
    ∀ {cs : List (Subtree Key LeafEntry n)} {s u : TreeFile} {keys : List (Option Key)},
      metaAt s = some m → (∀ c ∈ cs, Holds s c) →
      (∀ c ∈ cs, LeavesIn s c) → (∀ x, (cs.map (Subtree.count x)).sum ≤ 1) →
      mapEach (refreshAllSeparators n) (cs.map Subtree.id) s = (.ok keys, u) →
      Refreshed s u ∧ (∀ x, (cs.map (Subtree.count x)).sum = 0 → contentAt u x = contentAt s x) ∧
        (∀ c ∈ cs, Holds u (c.refresh LeafEntry.key)) ∧ keys = cs.map (Subtree.firstKey LeafEntry.key) ∧
        ∀ c ∈ cs, c.Filled LeafEntry.key
  | [], s, u, keys, _, _, _, _, hrun             => by
    obtain ⟨rfl, rfl⟩ := pure_eq_ok.1 hrun
    exact ⟨.refl u, fun _ _ => rfl, fun c hc => absurd hc List.not_mem_nil, rfl, fun c hc => absurd hc List.not_mem_nil⟩
  | c :: cs, s, u, keys, hm, hh, hl, honce, hrun => by
    have hsum : ∀ x, ((c :: cs).map (Subtree.count x)).sum = c.count x + (cs.map (Subtree.count x)).sum := fun x => by
      rw [List.map_cons, List.sum_cons]
    obtain ⟨k, v, hone, hrun₁⟩ := Program.bind_eq_ok.1 hrun
    obtain ⟨ks, w, hrest, hrun₂⟩ := Program.bind_eq_ok.1 hrun₁
    obtain ⟨rfl, rfl⟩ := pure_eq_ok.1 hrun₂
    obtain ⟨⟨hr, hother, hheld, hfilled⟩, rfl⟩ := ih hm (hh c List.mem_cons_self) (hl c List.mem_cons_self) (fun x => by
      have := honce x
      rw [hsum] at this
      omega) hone
    obtain ⟨hr', hother', hheld', rfl, hfilled'⟩ :=
      mapEach_refresh ih (hr.metapage m hm) (fun d hd => (hh d (List.mem_cons_of_mem c hd)).keeps
      fun x hx p hp => by
        have hle := count_le_sum hd x
        have hone := honce x
        rw [hsum] at hone
        rwa [hother x (by omega)]) (fun d hd => (hl d (List.mem_cons_of_mem c hd)).refreshed hr) (fun x => by
          have := honce x
          rw [hsum] at this
          omega) hrest
    refine ⟨hr.trans hr', fun x hx => ?_, fun d hd => ?_, by rw [List.map_cons], fun d hd => ?_⟩
    · rw [hsum] at hx
      rw [hother' x (by omega), hother x (by omega)]
    · rcases List.mem_cons.1 hd with rfl | hd
      · refine hheld.keeps fun x hx p hp => ?_
        have := honce x
        rw [hsum] at this
        rw [Subtree.count_refresh] at hx
        rwa [hother' x (by omega)]
      · exact hheld' d hd
    · rcases List.mem_cons.1 hd with rfl | hd
      · exact hfilled
      · exact hfilled' d hd

/-- **`_refresh_all_separators`** makes every separator the first key behind it, or raises. -/
theorem refresh_ok {m : MetaPage} :
    ∀ {n : Nat} {t : Subtree Key LeafEntry n} {s u : TreeFile} {k : Option Key}, metaAt s = some m →
    Holds s t → LeavesIn s t → (∀ x, t.count x ≤ 1) → refreshAllSeparators n t.id s = (.ok k, u) →
    RefreshedAt s u t ∧ k = t.firstKey LeafEntry.key
  | 0, ⟨i, es⟩, s, u, k, _, _, hl, _, hrun             => by
    obtain ⟨leaf, v, hread, hrun₁⟩ := Program.bind_eq_ok.1 hrun
    obtain ⟨hleaf, rfl⟩ := readLeaf_eq_ok.1 hread
    obtain ⟨rfl, rfl⟩ := pure_eq_ok.1 hrun₁
    obtain ⟨left, right, hc⟩ := hl ⟨i, es⟩ (List.mem_singleton_self _)
    cases hc.symm.trans hleaf
    exact ⟨⟨.refl u, fun _ _ => rfl, trivial, trivial⟩, rfl⟩
  | n + 1, ⟨i, ks, cs⟩, s, u, k, hm, hh, hl, honce, hrun => by
    obtain ⟨hpage, hchildren⟩ := holds_node.1 (show Holds s (Subtree.node i ks cs) from hh)
    have hcount : ∀ x, (if i = x then 1 else 0) + (cs.map (Subtree.count x)).sum ≤ 1 := honce
    have hrun : refreshAllSeparators (n + 1) i s = (.ok k, u) := hrun
    unfold refreshAllSeparators at hrun
    obtain ⟨internal, v, hread, hrun₁⟩ := Program.bind_eq_ok.1 hrun
    obtain ⟨hinternal, rfl⟩ := readInternal_eq_ok.1 hread
    cases hpage.symm.trans hinternal
    obtain ⟨firstKeys, w, heach, hrun₂⟩ := Program.bind_eq_ok.1 hrun₁
    obtain ⟨hr, hother, hheld, rfl, hfilled⟩ := mapEach_refresh refresh_ok hm hchildren
      (fun c hc l hmem => hl l (List.mem_flatMap_of_mem hc hmem)) (fun x => by
        have := hcount x
        omega) heach
    have hself : contentAt w i = some (.internal ⟨ks, cs.map Subtree.id⟩) := by
      rw [hother i, hpage]
      have := hcount i
      rw [if_pos rfl] at this
      omega
    split at hrun₂
    · exact absurd hrun₂ raised_ne_ok
    rename_i hsome
    have hkeys : (cs.map (Subtree.firstKey LeafEntry.key)).tail.filterMap (fun k => k) =
        cs.tail.filterMap (Subtree.firstKey LeafEntry.key) := by
      rw [← List.map_tail, List.filterMap_map]
      rfl
    have hids : (cs.map fun c => c.refresh LeafEntry.key).map Subtree.id = cs.map Subtree.id := by
      rw [List.map_map]
      exact List.map_congr_left fun c _ => Subtree.id_refresh c
    have hfirst : ∀ c ∈ cs.tail, (Subtree.firstKey LeafEntry.key c).isSome := by
      intro c hc
      rw [← List.map_tail, List.any_map] at hsome
      by_contra hnone
      refine hsome (List.any_eq_true.2 ⟨c, hc, ?_⟩)
      show (Subtree.firstKey LeafEntry.key c).isNone = true
      rwa [Option.isNone_iff_eq_none, ← Option.not_isSome_iff_eq_none]
    dsimp only at hrun₂
    rw [hkeys] at hrun₂
    -- the page has the new separators, whether it was written or not
    obtain ⟨v', hwritten, hlast⟩ :
      ∃ v', Written w v' i (.internal ⟨cs.tail.filterMap (Subtree.firstKey LeafEntry.key), cs.map Subtree.id⟩) ∧
        (item (cs.map (Subtree.firstKey LeafEntry.key)) 0 : Action (Option Key)) v' = (.ok k, u) := by
      split at hrun₂
      · obtain ⟨_, v', hw, hlast⟩ := Program.bind_eq_ok.1 hrun₂
        exact ⟨v', (writeInternal_eq_ok hw).1, hlast⟩
      · rename_i hsame
        rw [not_not] at hsame
        rw [hsame]
        refine ⟨w, ⟨fun x => ?_, le_refl _, rfl, rfl, fun _ m h => h⟩, hrun₂⟩
        split
        · rename_i hx
          rw [hx, hself]
        · rfl
    obtain ⟨hget, rfl⟩ := item_eq_ok.1 hlast
    have hi : i ≠ 0 := ne_zero_of_contentAt (hr.metapage m hm) hself
    refine ⟨⟨hr.trans ⟨fun x p hp => hwritten.keeps ?_ hp, hwritten.root, hwritten.height, fun m' hm' =>
      hwritten.metapage hi m' hm'⟩,
      fun x hx => ?_, holds_node.2 ⟨?_, fun c hc => ?_⟩, ?_, hfirst, hfilled⟩, ?_⟩
    · rintro rfl
      rw [hself] at hp
      cases hp
    · have hx : (if i = x then 1 else 0) + (cs.map (Subtree.count x)).sum = 0 := hx
      have hne : x ≠ i := by
        rintro rfl
        rw [if_pos rfl] at hx
        omega
      rw [hwritten.content, if_neg hne, hother x (by omega)]
    · rw [hwritten.content, if_pos rfl, hids]
    · obtain ⟨d, hd, rfl⟩ := List.mem_map.1 hc
      refine (hheld d hd).keeps fun x hx p hp => hwritten.keeps ?_ hp
      rintro rfl
      rw [Subtree.count_refresh] at hx
      have hle := count_le_sum (show d ∈ cs from hd) x
      have hone := hcount x
      rw [if_pos rfl] at hone
      omega
    · rintro rfl
      cases hget
    · cases cs with
      | nil       => cases hget
      | cons c cs => exact (Option.some_inj.1 hget).symm

/-! ## `delete` -/

theorem erase_perm {es : List LeafEntry} {before after : List (Leaf LeafEntry)} {leaf : Leaf LeafEntry} {key : Key} {tid : TID}
    (hin : (⟨key, tid⟩ : LeafEntry) ∈ leaf.entries)
    (hes : es = (before ++ ⟨leaf.id, leaf.entries.erase ⟨key, tid⟩⟩ :: after).flatMap Leaf.entries) :
    (es.map fun e => (e.key, e.tid)).Perm ((pairs (before ++ leaf :: after)).erase (key, tid)) := by
  have hperm : (pairs (before ++ leaf :: after)).Perm ((key, tid) :: es.map fun e => (e.key, e.tid)) := by
    unfold pairs
    rw [hes, List.flatMap_append, List.flatMap_cons, List.flatMap_append, List.flatMap_cons]
    have hone := (((List.perm_cons_erase hin).append_right (after.flatMap Leaf.entries)).append_left
      (before.flatMap Leaf.entries))
    exact (hone.trans List.perm_middle).map fun e => (e.key, e.tid)
  have herase := hperm.erase (key, tid)
  rw [List.erase_cons_head] at herase
  exact herase.symm

theorem Strung.leavesIn : ∀ {left right : Option Nat} {ls : List (Leaf LeafEntry)}, Strung s left ls right →
    ∀ l ∈ ls, ∃ left right, contentAt s l.id = some (.leaf ⟨l.entries, left, right⟩)
  | _, _, [], _, _, hl      => absurd hl List.not_mem_nil
  | _, _, m :: _, h, l, hl => by
    rcases List.mem_cons.1 hl with rfl | hl
    · exact ⟨_, _, h.1⟩
    · exact h.2.leavesIn l hl

/-- **With its separators made anew, the tree is valid**, when its entries are sorted. -/
theorem refreshed_valid {t : Subtree Key LeafEntry n} {k : Option Key} (h : Standing s .root t)
    (hsorted : t.entries.Pairwise fun a b => a.key ≤ b.key) (hnodup : (pairs t.leaves).Nodup)
    (hrun : refreshAllSeparators n t.id s = (.ok k, u)) : Valid u (t.refresh LeafEntry.key) := by
  have honce : ∀ x, t.count x ≤ 1 := fun x => le_trans (Nat.le_add_left _ _) (h.once x)
  obtain ⟨⟨hr, -, hheld, hfilled⟩, -⟩ := refresh_ok h.metapage h.holds h.strungRoot.leavesIn honce hrun
  have hleaves : (t.refresh LeafEntry.key).leaves = t.leaves := Subtree.leaves_refresh t
  refine ⟨⟨⟨?_, hr.height.trans h.around.2⟩, hheld, ?_, fun x => ?_, ?_⟩, ?_, ?_, ?_⟩
  · rw [Subtree.id_refresh]
    exact hr.root.trans h.around.1
  · rw [hleaves]
    exact h.strung.keeps fun l _ p hp => hr.leaves _ p hp
  · rw [Subtree.count_refresh]
    exact h.once x
  · rw [hr.metapage _ h.metapage, hr.root, hr.height]
  · exact Subtree.bounded_refresh hfilled hsorted (fun e _ => ⟨fun l hl => absurd hl (Option.not_mem_none l),
      fun _ _ l hl => absurd hl (Option.not_mem_none l)⟩) fun l hl => absurd hl (Option.not_mem_none l)
  · rw [hleaves]
    exact hfilled.leaves_tail
  · rw [hleaves]
    exact hnodup

/-- **`delete` is the deletion from the multimap**, whatever is shared, joined or shrunk. -/
theorem delete_ok {t : Subtree Key LeafEntry n} {key : Key} {tid : TID} {found : Bool} (h : Valid s t)
    (hrun : delete key tid s = (.ok found, u)) :
    found = ((pairs t.leaves).delete key tid).2 ∧
      ∃ (m : Nat) (t' : Subtree Key LeafEntry m), Valid u t' ∧ (pairs t'.leaves).Perm ((pairs t.leaves).delete key tid).1 := by
  unfold delete at hrun
  obtain ⟨located, s₁, hlocate, hrun₁⟩ := Program.bind_eq_ok.1 hrun
  obtain ⟨located', hlocated, hsome, hnone⟩ := locateEntryLeaf_ok h key tid
  rw [hlocated] at hlocate
  cases hlocate
  unfold BTree.delete
  cases located with
  | none        =>
    obtain ⟨rfl, rfl⟩ := pure_eq_ok.1 hrun₁
    rw [if_neg (hnone rfl)]
    exact ⟨rfl, n, t, h, List.Perm.refl _⟩
  | some leafId =>
    obtain ⟨l, hl, rfl, hentry⟩ := hsome leafId rfl
    have hin : (key, tid) ∈ pairs t.leaves := mem_pairs.2 (List.mem_flatMap_of_mem hl hentry)
    rw [if_pos hin]
    obtain ⟨path, s₂, hpath, hrun₂⟩ := Program.bind_eq_ok.1 hrun₁
    have hvisit : visit l.id n t.id [] s = (.ok path, s₂) := by
      have hread : pathToPage l.id s = visit l.id (s.height - 1) s.rootPageId [] s := rfl
      rw [hread, h.standing.around.1, h.standing.around.2] at hpath
      exact hpath
    obtain ⟨rfl, hway⟩ := visit_ok (show Standing s (.root : Context Key LeafEntry n) t from h.standing) h.bounded hvisit
    cases path with
    | none      => exact absurd hrun₂ raised_ne_ok
    | some path =>
      obtain ⟨c, leaf, hid, hp, hst, hleaves⟩ := hway path rfl
      have hleaves : c.leavesBefore ++ leaf :: c.leavesAfter = t.leaves := hleaves.trans (List.append_nil _)
      obtain ⟨page, s₃, hread, hrun₃⟩ := Program.bind_eq_ok.1 hrun₂
      obtain ⟨hpage, rfl⟩ := readLeaf_eq_ok.1 hread
      rw [← hid] at hpage
      cases hst.leafPage.2.1.symm.trans hpage
      dsimp only at hrun₃
      split at hrun₃
      · rename_i hmem
        obtain ⟨_, s₄, hwrite, hrun₄⟩ := Program.bind_eq_ok.1 hrun₃
        obtain ⟨_, s₅, hrebalance, hrun₅⟩ := Program.bind_eq_ok.1 hrun₄
        rw [← hid] at hwrite hrebalance
        rw [← hp] at hrebalance
        have hless := hst.rewritten (writeLeaf_eq_ok hwrite).1
        obtain ⟨m, t', hst', hentries⟩ := rebalanceLeaf_ok hless hrebalance
        obtain ⟨_, s₆, hroot, hrun₆⟩ := Program.bind_eq_ok.1 hrun₅
        obtain ⟨rfl, rfl⟩ := read_eq_ok.1 hroot
        obtain ⟨k, s₇, hrefresh, hrun₇⟩ := Program.bind_eq_ok.1 hrun₆
        obtain ⟨rfl, rfl⟩ := pure_eq_ok.1 hrun₇
        have hrefresh : refreshAllSeparators m t'.id s₆ = (.ok k, u) := by
          have hcall : refreshAllSeparators (s₆.height - 1) s₆.rootPageId s₆ = (.ok k, u) := hrefresh
          rw [hst'.around.1, hst'.around.2] at hcall
          exact hcall
        have hperm : (pairs t'.leaves).Perm ((pairs t.leaves).erase (key, tid)) := by
          rw [← hleaves]
          exact erase_perm hmem hentries
        have hsorted : t'.entries.Pairwise fun a b => a.key ≤ b.key := by
          have hold := h.bounded.sorted
          unfold Subtree.entries at hold
          rw [← hleaves, List.flatMap_append, List.flatMap_cons] at hold
          rw [hentries, List.flatMap_append, List.flatMap_cons]
          exact hold.sublist ((List.Sublist.refl _).append (List.erase_sublist.append (List.Sublist.refl _)))
        refine ⟨rfl, m, _, refreshed_valid hst' hsorted (hperm.nodup_iff.2 (h.nodup.erase _)) hrefresh, ?_⟩
        rw [Subtree.leaves_refresh]
        exact hperm
      · rename_i hmem
        obtain ⟨left, right, hat⟩ := h.standing.strungRoot.leavesIn l hl
        rw [← hid, hst.leafPage.2.1] at hat
        injection hat with hcontent
        injection hcontent with hpages
        injection hpages with hentries
        exact absurd (hentries ▸ hentry) hmem

end TreeFile
end MiniPostgres
