import MiniPostgres.TreeInsert
/-!
# TreeNeighbours — two neighbours under one parent

What deletion writes when two neighbouring pages share what they have, or become one: the parent gets new separators and the
string of the leaves is mended.  The entries keep their order; nothing is said of the separators.
-/
namespace MiniPostgres

open BTreePages Executors SearchTree

namespace TreeFile

variable {s u : TreeFile} {id n : Nat} {α β : Type}

/-! ## What stands in the pages after a change below a node -/

/-- **A subtree is changed**, and the pages around it are not. -/
theorem Standing.changed {ctx : Context Key LeafEntry n} {t t' : Subtree Key LeafEntry n}
    (h : Standing s ctx t) (hid : t'.id = t.id)
    (hroot : u.rootPageId = s.rootPageId) (hheight : u.height = s.height) (hmeta : ∀ m, metaAt s = some m → metaAt u = some m)
    (hholds : Holds u t') (hstrung : Strung u none (ctx.leavesBefore ++ t'.leaves ++ ctx.leavesAfter) none)
    (hcount : ∀ x, t'.count x ≤ t.count x) (hkeep : ∀ x, t.count x = 0 → KeepsInternal s u x) : Standing u ctx t' := by
  refine ⟨?_, hholds, hstrung, fun x => ?_, ?_⟩
  · rw [hid]
    refine h.around.keeps (fun x hx => hkeep x ?_) hroot hheight
    have := h.once x
    omega
  · have := h.once x
    have := hcount x
    omega
  · rw [hmeta _ h.metapage, hroot, hheight]

theorem Standing.rooted : ∀ {n : Nat} {ctx : Context Key LeafEntry n} {t : Subtree Key LeafEntry n}, Standing s ctx t →
    ∃ (m : Nat) (t' : Subtree Key LeafEntry m), Standing s .root t' ∧ t'.leaves = ctx.leavesBefore ++ t.leaves ++ ctx.leavesAfter
  | n, .root, t, h                          => ⟨n, t, h, (List.append_nil t.leaves).symm⟩
  | _, .frame i ks₁ cs₁ ks₂ cs₂ up, t, h => by
    rcases h.up.rooted with ⟨m, t', hst, hl⟩
    exact ⟨m, t', hst, by rw [hl, Context.leaves_fill]⟩

section
variable {p li ri : Nat} {s₁ s₂ : TreeFile} {keys keys' lk lk' rk rk' : List Key} {up : Context Key LeafEntry (n + 2)}
  {cs₁ cs₂ : List (Subtree Key LeafEntry (n + 1))} {lc lc' rc rc' : List (Subtree Key LeafEntry n)}

theorem Standing.neighbours (h : Standing s up (.node p keys (cs₁ ++ .node li lk lc :: .node ri rk rc :: cs₂))) :
    (contentAt s p = some (.internal ⟨keys, (cs₁ ++ .node li lk lc :: .node ri rk rc :: cs₂).map Subtree.id⟩) ∧
      contentAt s li = some (.internal ⟨lk, lc.map Subtree.id⟩) ∧ contentAt s ri = some (.internal ⟨rk, rc.map Subtree.id⟩)) ∧
      p ≠ li ∧ p ≠ ri ∧ li ≠ ri := by
  have honce := h.once
  simp only [Subtree.count_node, List.map_append, List.map_cons, List.sum_append, List.sum_cons] at honce
  obtain ⟨hpage, hchildren⟩ := holds_node.1 h.holds
  refine ⟨⟨hpage, (holds_node.1 (hchildren _ (List.mem_append_right _ List.mem_cons_self))).1,
    (holds_node.1 (hchildren _ (List.mem_append_right _ (List.mem_cons_of_mem _ List.mem_cons_self)))).1⟩, ?_, ?_, ?_⟩
  · rintro rfl
    have := honce p
    rw [if_pos rfl] at this
    omega
  · rintro rfl
    have := honce p
    rw [if_pos rfl] at this
    omega
  · rintro rfl
    have := honce li
    rw [if_pos rfl] at this
    omega

/-- **Two neighbours are regrouped** under their parent, with the children they had. -/
theorem Standing.regrouped (h : Standing s up (.node p keys (cs₁ ++ .node li lk lc :: .node ri rk rc :: cs₂)))
    (mid : List (Subtree Key LeafEntry (n + 1))) (hroot : u.rootPageId = s.rootPageId) (hheight : u.height = s.height)
    (hmeta : ∀ m, metaAt s = some m → metaAt u = some m)
    (hkeep : ∀ x d, x ≠ p → x ≠ li → x ≠ ri → contentAt s x = some d → contentAt u x = some d)
    (hp : contentAt u p = some (.internal ⟨keys', (cs₁ ++ (mid ++ cs₂)).map Subtree.id⟩))
    (hmid : ∀ c ∈ mid, contentAt u (Node.id c) = some (.internal ⟨Node.keys c, (Node.children c).map Subtree.id⟩) ∧
      ∀ g ∈ Node.children c, g ∈ lc ++ rc)
    (hleaves : mid.flatMap Subtree.leaves = (lc ++ rc).flatMap Subtree.leaves)
    (hcount : ∀ x, (mid.map (Subtree.count x)).sum ≤ (Subtree.node li lk lc).count x + (Subtree.node ri rk rc).count x) :
    Standing u up (.node p keys' (cs₁ ++ (mid ++ cs₂))) := by
  have honce := h.once
  simp only [Subtree.count_node, List.map_append, List.map_cons, List.sum_append, List.sum_cons] at honce hcount
  obtain ⟨⟨hpage, hleft, hright⟩, -⟩ := h.neighbours
  obtain ⟨-, hchildren⟩ := holds_node.1 h.holds
  have hp₁ := honce p
  have hl₁ := honce li
  have hr₁ := honce ri
  rw [if_pos rfl] at hp₁ hl₁ hr₁
  have hother : ∀ {m : Nat} {c : Subtree Key LeafEntry m}, Holds s c → c.count p = 0 → c.count li = 0 →
      c.count ri = 0 → Holds u c := by
    intro m c hc hzp hzl hzr
    refine hc.keeps fun x hx q hq => hkeep x _ ?_ ?_ ?_ hq
    all_goals
      rintro rfl
      omega
  have hgrand : ∀ c ∈ lc ++ rc, Holds u c := by
    intro c hc
    have hle := fun x => count_le_sum hc x
    simp only [List.map_append, List.sum_append] at hle
    have hlep := hle p
    have hlel := hle li
    have hler := hle ri
    refine hother ?_ (by omega) (by omega) (by omega)
    rcases List.mem_append.1 hc with hc | hc
    · exact (holds_node.1 (hchildren _ (List.mem_append_right _ List.mem_cons_self))).2 c hc
    · exact (holds_node.1 (hchildren _ (List.mem_append_right _ (List.mem_cons_of_mem _ List.mem_cons_self)))).2 c hc
  have hside : ∀ c, c ∈ cs₁ ∨ c ∈ cs₂ → Holds u c := by
    intro c hc
    have hle : ∀ x, c.count x ≤ (cs₁.map (Subtree.count x)).sum + (cs₂.map (Subtree.count x)).sum := by
      intro x
      rcases hc with hc | hc
      · have := count_le_sum hc x
        omega
      · have := count_le_sum hc x
        omega
    have hlep := hle p
    have hlel := hle li
    have hler := hle ri
    refine hother ?_ (by omega) (by omega) (by omega)
    rcases hc with hc | hc
    · exact hchildren c (List.mem_append_left _ hc)
    · exact hchildren c (List.mem_append_right _ (List.mem_cons_of_mem _ (List.mem_cons_of_mem _ hc)))
  refine h.changed rfl hroot hheight hmeta (holds_node.2 ⟨hp, ?_⟩) ?_ (fun x => ?_) (fun x hx q hq => ?_)
  · intro c hc
    rcases List.mem_append.1 hc with hc | hc
    · exact hside c (Or.inl hc)
    · rcases List.mem_append.1 hc with hc | hc
      · exact ⟨(hmid c hc).1, fun g hg => hgrand g ((hmid c hc).2 g hg)⟩
      · exact hside c (Or.inr hc)
  · have hsame : (Subtree.node p keys' (cs₁ ++ (mid ++ cs₂))).leaves =
        (Subtree.node p keys (cs₁ ++ .node li lk lc :: .node ri rk rc :: cs₂)).leaves := by
      simp only [Subtree.leaves_node, List.flatMap_append, List.flatMap_cons, hleaves, List.append_assoc]
    rw [hsame]
    refine h.strung.keeps fun m _ q hq => hkeep _ _ ?_ ?_ ?_ hq
    · intro heq
      rw [heq, hpage] at hq
      cases hq
    · intro heq
      rw [heq, hleft] at hq
      cases hq
    · intro heq
      rw [heq, hright] at hq
      cases hq
  · have := hcount x
    simp only [Subtree.count_node, List.map_append, List.map_cons, List.sum_append, List.sum_cons]
    omega
  · simp only [Subtree.count_node, List.map_append, List.map_cons, List.sum_append, List.sum_cons] at hx
    refine hkeep x _ ?_ ?_ ?_ hq
    all_goals
      rintro rfl
      rw [if_pos rfl] at hx
      omega

/-- **Two neighbours share their children** anew. -/
theorem Standing.lentInternal (h : Standing s up (.node p keys (cs₁ ++ .node li lk lc :: .node ri rk rc :: cs₂)))
    (hsame : lc' ++ rc' = lc ++ rc) (hl : Written s s₁ li (.internal ⟨lk', lc'.map Subtree.id⟩))
    (hr : Written s₁ s₂ ri (.internal ⟨rk', rc'.map Subtree.id⟩))
    (hp : Written s₂ u p (.internal ⟨keys', (cs₁ ++ .node li lk lc :: .node ri rk rc :: cs₂).map Subtree.id⟩)) :
    Standing u up (.node p keys' (cs₁ ++ .node li lk' lc' :: .node ri rk' rc' :: cs₂)) := by
  obtain ⟨⟨hpage, hleft, hright⟩, hpl, hpr, hlr⟩ := h.neighbours
  refine h.regrouped [.node li lk' lc', .node ri rk' rc'] (hp.root.trans (hr.root.trans hl.root))
    (hp.height.trans (hr.height.trans hl.height)) (fun m hm => ?_)
    (fun x d hxp hxl hxr hd => hp.keeps hxp (hr.keeps hxr (hl.keeps hxl hd))) ?_ (fun c hc => ?_) ?_ (fun x => ?_)
  · exact hp.metapage (ne_zero_of_contentAt h.metapage hpage) m (hr.metapage (ne_zero_of_contentAt h.metapage hright) m
      (hl.metapage (ne_zero_of_contentAt h.metapage hleft) m hm))
  · rw [hp.content, if_pos rfl, List.map_append, List.map_append]
    rfl
  · rw [← hsame]
    rcases List.mem_cons.1 hc with rfl | hc
    · refine ⟨?_, fun g hg => List.mem_append_left _ hg⟩
      show contentAt u li = _
      rw [hp.content, if_neg hpl.symm, hr.content, if_neg hlr, hl.content, if_pos rfl]
      rfl
    · cases List.mem_singleton.1 hc
      refine ⟨?_, fun g hg => List.mem_append_right _ hg⟩
      show contentAt u ri = _
      rw [hp.content, if_neg hpr.symm, hr.content, if_pos rfl]
      rfl
  · rw [← hsame, List.flatMap_cons, List.flatMap_singleton, List.flatMap_append]
    rfl
  · have := congrArg (fun cs => (cs.map (Subtree.count x)).sum) hsame
    simp only [List.map_append, List.sum_append] at this
    simp only [Subtree.count_node, List.map_cons, List.map_nil, List.sum_cons, List.sum_nil]
    omega

/-- **Two neighbours become one.** -/
theorem Standing.mergedInternal (h : Standing s up (.node p keys (cs₁ ++ .node li lk lc :: .node ri rk rc :: cs₂)))
    (hl : Written s s₁ li (.internal ⟨lk', (lc ++ rc).map Subtree.id⟩))
    (hp : Written s₁ u p (.internal ⟨keys', cs₁.map Subtree.id ++ li :: cs₂.map Subtree.id⟩)) :
    Standing u up (.node p keys' (cs₁ ++ .node li lk' (lc ++ rc) :: cs₂)) := by
  obtain ⟨⟨hpage, hleft, hright⟩, hpl, hpr, hlr⟩ := h.neighbours
  refine h.regrouped [.node li lk' (lc ++ rc)] (hp.root.trans hl.root) (hp.height.trans hl.height) (fun m hm => ?_)
    (fun x d hxp hxl _ hd => hp.keeps hxp (hl.keeps hxl hd)) ?_ (fun c hc => ?_) ?_ (fun x => ?_)
  · exact hp.metapage (ne_zero_of_contentAt h.metapage hpage) m (hl.metapage (ne_zero_of_contentAt h.metapage hleft) m hm)
  · rw [hp.content, if_pos rfl, List.map_append, List.map_append]
    rfl
  · cases List.mem_singleton.1 hc
    refine ⟨?_, fun g hg => hg⟩
    show contentAt u li = _
    rw [hp.content, if_neg hpl.symm, hl.content, if_pos rfl]
    rfl
  · rw [List.flatMap_singleton]
    rfl
  · simp only [Subtree.count_node, List.map_cons, List.map_nil, List.map_append, List.sum_append, List.sum_cons, List.sum_nil]
    omega

end

section
variable {p li ri : Nat} {s₁ s₂ : TreeFile} {keys keys' : List Key} {up : Context Key LeafEntry 1}
    {cs₁ cs₂ : List (Subtree Key LeafEntry 0)}
  {le le' re re' : List LeafEntry}

/-- The leaves before those of a node's second half, and behind its first. -/
def leavesLeft (up : Context Key LeafEntry 1) (cs₁ : List (Subtree Key LeafEntry 0)) : List (Leaf LeafEntry) :=
  up.leavesBefore ++ cs₁.flatMap Subtree.leaves

def leavesRight (up : Context Key LeafEntry 1) (cs₂ : List (Subtree Key LeafEntry 0)) : List (Leaf LeafEntry) :=
  cs₂.flatMap Subtree.leaves ++ up.leavesAfter

theorem lastId_leavesLeft (up : Context Key LeafEntry 1) (A : List (Subtree Key LeafEntry 0)) (le : List LeafEntry) :
    lastId none (leavesLeft up (A ++ [.leaf li le])) = some li := by
  unfold leavesLeft
  rw [List.flatMap_append, List.flatMap_singleton, ← List.append_assoc]
  exact lastId_concat none _ ⟨li, le⟩

/-- **Two neighbouring leaves**, in their pages and on the string. -/
structure LeafNeighbours (s : TreeFile) (p li ri : Nat) (keys : List Key) (le re : List LeafEntry) (ids : List Nat)
    (before after : List (Leaf LeafEntry)) : Prop where
  parent  : contentAt s p = some (.internal ⟨keys, ids⟩)
  left    : contentAt s li = some (.leaf ⟨le, lastId none before, some ri⟩)
  right   : contentAt s ri = some (.leaf ⟨re, some li, firstId after none⟩)
  before_ : Strung s none before (some li)
  after_  : Strung s (some ri) after none
  apart   : ∀ m ∈ before, m.id ≠ li ∧ m.id ≠ ri ∧ ∀ b ∈ after, m.id ≠ b.id
  behind  : ∀ b ∈ after, b.id ≠ li ∧ b.id ≠ ri
  nodup   : (after.map Leaf.id).Nodup
  ne      : li ≠ ri

theorem Standing.leafNeighbours (h : Standing s up (.node p keys (cs₁ ++ .leaf li le :: .leaf ri re :: cs₂))) :
    LeafNeighbours s p li ri keys le re ((cs₁ ++ .leaf li le :: .leaf ri re :: cs₂).map Subtree.id) (leavesLeft up cs₁)
      (leavesRight up cs₂) := by
  have hleaves : up.leavesBefore ++ (Subtree.node p keys (cs₁ ++ .leaf li le :: .leaf ri re :: cs₂)).leaves ++ up.leavesAfter =
      leavesLeft up cs₁ ++ ⟨li, le⟩ :: ⟨ri, re⟩ :: leavesRight up cs₂ := by
    unfold leavesLeft leavesRight
    simp only [Subtree.leaves_node, List.flatMap_append, List.flatMap_cons, Subtree.leaves_leaf,
      List.append_assoc, List.singleton_append]
    rfl
  have hs := h.strung
  have hn := h.nodup
  rw [hleaves] at hs hn
  obtain ⟨hbefore, hleft, hright, hafter⟩ := strung_append.1 hs
  rw [List.map_append, List.map_cons, List.map_cons, List.nodup_append, List.nodup_cons, List.nodup_cons] at hn
  obtain ⟨-, ⟨hli, hri, hnodup⟩, hne⟩ := hn
  refine ⟨h.holds.1, hleft, hright, hbefore, hafter, fun m hm => ⟨?_, ?_, fun b hb => ?_⟩, fun b hb => ⟨?_, ?_⟩, hnodup, ?_⟩
  · exact hne m.id (List.mem_map_of_mem hm) li List.mem_cons_self
  · exact hne m.id (List.mem_map_of_mem hm) ri (List.mem_cons_of_mem _ List.mem_cons_self)
  · exact hne m.id (List.mem_map_of_mem hm) b.id (List.mem_cons_of_mem _ (List.mem_cons_of_mem _ (List.mem_map_of_mem hb)))
  · rintro heq
    exact hli (List.mem_cons_of_mem _ (List.mem_map.2 ⟨b, hb, heq⟩))
  · rintro heq
    exact hri (List.mem_map.2 ⟨b, hb, heq⟩)
  · rintro rfl
    exact hli List.mem_cons_self

/-- **Two neighbouring leaves are regrouped** under their parent. -/
theorem Standing.restrung (h : Standing s up (.node p keys (cs₁ ++ .leaf li le :: .leaf ri re :: cs₂)))
    (mid : List (Subtree Key LeafEntry 0)) (hroot : u.rootPageId = s.rootPageId) (hheight : u.height = s.height)
    (hmeta : ∀ m, metaAt s = some m → metaAt u = some m) (hkeep : ∀ x, x ≠ p → KeepsInternal s u x)
    (hp : contentAt u p = some (.internal ⟨keys', (cs₁ ++ (mid ++ cs₂)).map Subtree.id⟩))
    (hstrung : Strung u none (leavesLeft up cs₁ ++ (mid.flatMap Subtree.leaves ++ leavesRight up cs₂)) none)
    (hcount : ∀ x, (mid.map (Subtree.count x)).sum ≤ (if li = x then 1 else 0) + (if ri = x then 1 else 0)) :
    Standing u up (.node p keys' (cs₁ ++ (mid ++ cs₂))) := by
  refine h.changed rfl hroot hheight hmeta (holds_node.2 ⟨hp, fun c _ => trivial⟩) ?_ (fun x => ?_) (fun x hx => hkeep x ?_)
  · have hsame : up.leavesBefore ++ (Subtree.node p keys' (cs₁ ++ (mid ++ cs₂))).leaves ++ up.leavesAfter =
        leavesLeft up cs₁ ++ (mid.flatMap Subtree.leaves ++ leavesRight up cs₂) := by
      unfold leavesLeft leavesRight
      simp only [Subtree.leaves_node, List.flatMap_append, List.append_assoc]
    rw [hsame]
    exact hstrung
  · have := hcount x
    simp only [Subtree.count_node, Subtree.count_leaf, List.map_append, List.map_cons, List.sum_append, List.sum_cons]
    omega
  · rintro rfl
    rw [Subtree.count_node, if_pos rfl] at hx
    omega

/-- **Two neighbouring leaves share their entries** anew. -/
theorem Standing.lentLeaf (h : Standing s up (.node p keys (cs₁ ++ .leaf li le :: .leaf ri re :: cs₂)))
    (hl : Written s s₁ li (.leaf ⟨le', lastId none (leavesLeft up cs₁), some ri⟩))
    (hr : Written s₁ s₂ ri (.leaf ⟨re', some li, firstId (leavesRight up cs₂) none⟩))
    (hp : Written s₂ u p (.internal ⟨keys', (cs₁ ++ .leaf li le :: .leaf ri re :: cs₂).map Subtree.id⟩)) :
    Standing u up (.node p keys' (cs₁ ++ .leaf li le' :: .leaf ri re' :: cs₂)) := by
  have hn := h.leafNeighbours
  have hpl : li ≠ p := by
    rintro rfl
    have := hn.left.symm.trans hn.parent
    cases this
  have hpr : ri ≠ p := by
    rintro rfl
    have := hn.right.symm.trans hn.parent
    cases this
  have hkeep : ∀ {x : Nat} {d : Content}, x ≠ p → x ≠ li → x ≠ ri → contentAt s x = some d → contentAt u x = some d :=
    fun hxp hxl hxr hd => hp.keeps hxp (hr.keeps hxr (hl.keeps hxl hd))
  have hleaf : ∀ {m : Leaf LeafEntry} {q : LeafPage}, m.id ≠ li → m.id ≠ ri → contentAt s m.id = some (.leaf q) →
      contentAt u m.id = some (.leaf q) := by
    intro m q hml hmr hq
    refine hkeep (fun heq => ?_) hml hmr hq
    rw [heq, hn.parent] at hq
    cases hq
  refine h.restrung [.leaf li le', .leaf ri re'] (hp.root.trans (hr.root.trans hl.root))
    (hp.height.trans (hr.height.trans hl.height))
    (fun m hm => ?_) (fun x hx q hq => hkeep hx ?_ ?_ hq) ?_ ?_ (fun x => ?_)
  · exact hp.metapage (ne_zero_of_contentAt h.metapage hn.parent) m (hr.metapage (ne_zero_of_contentAt h.metapage hn.right) m
      (hl.metapage (ne_zero_of_contentAt h.metapage hn.left) m hm))
  · rintro rfl
    rw [hn.left] at hq
    cases hq
  · rintro rfl
    rw [hn.right] at hq
    cases hq
  · rw [hp.content, if_pos rfl, List.map_append, List.map_append]
    rfl
  · refine strung_append.2 ⟨hn.before_.keeps fun m hm q hq => hleaf (hn.apart m hm).1 (hn.apart m hm).2.1 hq, ?_, ?_,
      hn.after_.keeps fun m hm q hq => hleaf (hn.behind m hm).1 (hn.behind m hm).2 hq⟩
    · show contentAt u li = _
      rw [hp.content, if_neg hpl, hr.content, if_neg hn.ne, hl.content, if_pos rfl]
      rfl
    · show contentAt u ri = _
      rw [hp.content, if_neg hpr, hr.content, if_pos rfl]
      rfl
  · simp only [Subtree.count_leaf, List.map_cons, List.map_nil, List.sum_cons, List.sum_nil]
    omega

/-- The leaf behind two that become one is pointed to it. -/
def Relinked (s u : TreeFile) (li : Nat) : List (Leaf LeafEntry) → Prop
  | []      => u = s
  | b :: bs => Written s u b.id (.leaf ⟨b.entries, some li, firstId bs none⟩)

/-- **Two neighbouring leaves become one.** -/
theorem Standing.mergedLeaf (h : Standing s up (.node p keys (cs₁ ++ .leaf li le :: .leaf ri re :: cs₂)))
    (hl : Written s s₁ li (.leaf ⟨le', lastId none (leavesLeft up cs₁), firstId (leavesRight up cs₂) none⟩))
    (hr : Relinked s₁ s₂ li (leavesRight up cs₂))
    (hp : Written s₂ u p (.internal ⟨keys', cs₁.map Subtree.id ++ li :: cs₂.map Subtree.id⟩)) :
    Standing u up (.node p keys' (cs₁ ++ .leaf li le' :: cs₂)) := by
  have hn := h.leafNeighbours
  have hpl : li ≠ p := by
    rintro rfl
    have := hn.left.symm.trans hn.parent
    cases this
  -- what the pointer of the leaf behind leaves as it was
  have hrelink : s₂.rootPageId = s₁.rootPageId ∧ s₂.height = s₁.height ∧ (∀ m, metaAt s = some m → metaAt s₂ = some m) ∧
      (∀ x d, (∀ b ∈ leavesRight up cs₂, x ≠ b.id) → contentAt s₁ x = some d → contentAt s₂ x = some d) ∧
      (∀ x, KeepsInternal s s₂ x) ∧ Strung s₂ (some li) (leavesRight up cs₂) none := by
    have hmeta : ∀ m, metaAt s = some m → metaAt s₁ = some m := hl.metapage (ne_zero_of_contentAt h.metapage hn.left)
    have hinternal : ∀ x, KeepsInternal s s₁ x := hl.keepsInternal fun q hq => by
      rw [hn.left] at hq
      cases hq
    have hafter := hn.after_
    have hbehind := hn.behind
    have hnodup := hn.nodup
    cases hctx : leavesRight up cs₂ with
    | nil       =>
      rw [hctx] at hr
      cases hr
      exact ⟨rfl, rfl, hmeta, fun x d _ hd => hd, hinternal, trivial⟩
    | cons b bs =>
      rw [hctx] at hr hafter hbehind hnodup
      rw [List.map_cons, List.nodup_cons] at hnodup
      have hw : Written s₁ s₂ b.id (.leaf ⟨b.entries, some li, firstId bs none⟩) := hr
      refine ⟨hw.root, hw.height, fun m hm => hw.metapage (ne_zero_of_contentAt h.metapage hafter.1) m (hmeta m hm),
        fun x d hx hd => hw.keeps (hx b List.mem_cons_self) hd, fun x q hq => hw.keeps ?_ (hinternal x q hq), ?_, ?_⟩
      · rintro rfl
        rw [hafter.1] at hq
        cases hq
      · rw [hw.content, if_pos rfl]
      · exact hafter.2.keeps fun m hm q hq => hw.keeps (fun heq => hnodup.1 (List.mem_map.2 ⟨m, hm, heq⟩))
          (hl.keeps (hbehind m (List.mem_cons_of_mem b hm)).1 hq)
  obtain ⟨hroot, hheight, hmeta, hkeep, hinternal, hafter⟩ := hrelink
  have hleaf : ∀ {x : Nat} {q : LeafPage}, (∃ q', contentAt s x = some (.leaf q')) → contentAt s₂ x = some (.leaf q) →
      contentAt u x = some (.leaf q) := by
    rintro x q ⟨q', hq'⟩ hq
    refine hp.keeps (fun heq => ?_) hq
    rw [heq, hn.parent] at hq'
    cases hq'
  refine h.restrung [.leaf li le'] (hp.root.trans (hroot.trans hl.root)) (hp.height.trans (hheight.trans hl.height))
    (fun m hm => hp.metapage (ne_zero_of_contentAt h.metapage hn.parent) m (hmeta m hm))
    (fun x hx q hq => hp.keeps hx (hinternal x q hq)) ?_ ?_ (fun x => ?_)
  · rw [hp.content, if_pos rfl, List.map_append, List.map_append]
    rfl
  · refine strung_append.2 ⟨hn.before_.keeps fun m hm q hq =>
      hleaf ⟨q, hq⟩ (hkeep _ _ (hn.apart m hm).2.2 (hl.keeps (hn.apart m hm).1 hq)),
      ?_, hafter.keeps fun m hm q hq => hleaf (hn.after_.content m hm) hq⟩
    show contentAt u li = _
    rw [hp.content, if_neg hpl, hkeep li _ (fun b hb => (hn.behind b hb).1.symm) (by rw [hl.content, if_pos rfl])]
    rfl
  · simp only [Subtree.count_leaf, List.map_cons, List.map_nil, List.sum_cons, List.sum_nil]
    omega

end

/-! ## Two leaves -/

theorem fits_eq_ok {r : Result ByteString} {b : Bool} (h : fits r s = (.ok b, u)) : u = s := by
  unfold fits at h
  cases r with
  | ok body => exact (pure_eq_ok.1 h).2
  | error e =>
    dsimp only at h
    split at h
    · exact (pure_eq_ok.1 h).2
    · cases h

theorem halfFull_eq_ok {r : Result ByteString} {b : Bool} (h : halfFull r s = (.ok b, u)) : u = s := by
  obtain ⟨body, v, hr, hp⟩ := Program.bind_eq_ok.1 h
  obtain ⟨-, rfl⟩ := returned_eq_ok.1 hr
  exact (pure_eq_ok.1 hp).2

theorem leafCanLend_eq_ok {page : LeafPage} {b : Bool} (h : leafCanLend page s = (.ok b, u)) : u = s := by
  unfold leafCanLend at h
  split at h
  · exact (pure_eq_ok.1 h).2
  · exact halfFull_eq_ok h

theorem internalCanLend_eq_ok {page : InternalPage} {b : Bool} (h : internalCanLend page s = (.ok b, u)) : u = s := by
  unfold internalCanLend at h
  split at h
  · exact (pure_eq_ok.1 h).2
  · exact halfFull_eq_ok h

/-- **Lending is all or nothing.** -/
theorem lend_ok {canLend fit : Action Bool} {write : Action Unit} {b : Bool} (hc : ∀ {a v}, canLend s = (.ok a, v) → v = s)
    (hf : ∀ {a v}, fit s = (.ok a, v) → v = s) (h : lend canLend fit write s = (.ok b, u)) :
    (b = false ∧ u = s) ∨ (b = true ∧ write s = (.ok (), u)) := by
  obtain ⟨may, v, hmay, h₁⟩ := Program.bind_eq_ok.1 h
  obtain rfl := hc hmay
  split at h₁
  · obtain ⟨room, w, hroom, h₂⟩ := Program.bind_eq_ok.1 h₁
    obtain rfl := hf hroom
    split at h₂
    · obtain ⟨_, z, hw, h₃⟩ := Program.bind_eq_ok.1 h₂
      obtain ⟨rfl, rfl⟩ := pure_eq_ok.1 h₃
      exact Or.inr ⟨rfl, hw⟩
    · exact Or.inl (pure_eq_ok.1 h₂)
  · exact Or.inl (pure_eq_ok.1 h₁)

theorem item_left {A B : List (Subtree Key LeafEntry n)} {l : Subtree Key LeafEntry n} {x : Nat}
    (h : (item ((A ++ l :: B).map Subtree.id) A.length : Action Nat) s = (.ok x, u)) : x = l.id ∧ u = s := by
  obtain ⟨hget, rfl⟩ := item_eq_ok.1 h
  rw [List.getElem?_map, List.getElem?_append_right (le_refl _), Nat.sub_self, List.getElem?_cons_zero] at hget
  exact ⟨(Option.some_inj.1 hget).symm, rfl⟩

theorem item_right {A B : List (Subtree Key LeafEntry n)} {l r : Subtree Key LeafEntry n} {x : Nat}
    (h : (item ((A ++ l :: r :: B).map Subtree.id) (A.length + 1) : Action Nat) s = (.ok x, u)) : x = r.id ∧ u = s := by
  obtain ⟨hget, rfl⟩ := item_eq_ok.1 h
  rw [List.getElem?_map, List.getElem?_append_right (Nat.le_succ _), Nat.succ_sub (le_refl _),
    Nat.sub_self, List.getElem?_cons_succ,
    List.getElem?_cons_zero] at hget
  exact ⟨(Option.some_inj.1 hget).symm, rfl⟩

theorem removeParentChild_eq {A B : List (Subtree Key LeafEntry n)} (l l' r : Subtree Key LeafEntry n) (keys : List Key)
    (hid : l'.id = l.id) : removeParentChild ⟨keys, (A ++ l :: r :: B).map Subtree.id⟩ (A.length + 1) =
      ⟨keys.eraseIdx A.length, (A ++ l' :: B).map Subtree.id⟩ := by
  unfold removeParentChild
  dsimp only
  rw [if_pos (Nat.succ_pos _), Nat.add_sub_cancel, List.map_append, List.map_append,
    List.eraseIdx_append_of_length_le (by rw [List.length_map]; exact Nat.le_succ _), List.length_map,
      Nat.succ_sub (le_refl _), Nat.sub_self,
    List.map_cons, List.map_cons, List.map_cons, hid]
  rfl

section
variable {p li ri : Nat} {keys : List Key} {up : Context Key LeafEntry 1}
    {A B : List (Subtree Key LeafEntry 0)} {le re : List LeafEntry}

theorem borrowLeafLeft_ok {b : Bool} (h : Standing s up (.node p keys (A ++ .leaf li le :: .leaf ri re :: B)))
    (hrun : borrowLeafLeft ri ⟨re, some li, firstId (leavesRight up B) none⟩ p (A.length + 1)
      ⟨keys, (A ++ .leaf li le :: .leaf ri re :: B).map Subtree.id⟩ s = (.ok b, u)) :
    (b = false ∧ u = s) ∨ (b = true ∧ ∃ keys' le' re', le' ++ re' = le ++ re ∧
      Standing u up (.node p keys' (A ++ .leaf li le' :: .leaf ri re' :: B))) := by
  have hn := h.leafNeighbours
  unfold borrowLeafLeft at hrun
  rw [if_pos (Nat.succ_pos _)] at hrun
  obtain ⟨leftId, s₁, hitem, hrun₁⟩ := Program.bind_eq_ok.1 hrun
  obtain ⟨rfl, rfl⟩ := item_left hitem
  obtain ⟨left, s₂, hread, hrun₂⟩ := Program.bind_eq_ok.1 hrun₁
  obtain ⟨hleft, rfl⟩ := readLeaf_eq_ok.1 hread
  cases hn.left.symm.trans hleft
  rcases List.eq_nil_or_concat' le with rfl | ⟨rest, borrowed, rfl⟩
  · exact Or.inl (pure_eq_ok.1 hrun₂)
  · dsimp only at hrun₂
    rw [List.getLast?_concat] at hrun₂
    dsimp only at hrun₂
    rw [List.dropLast_concat] at hrun₂
    rcases lend_ok leafCanLend_eq_ok fits_eq_ok hrun₂ with hno | ⟨rfl, hwrite⟩
    · exact Or.inl hno
    · obtain ⟨_, s₃, hl, hwrite₁⟩ := Program.bind_eq_ok.1 hwrite
      obtain ⟨_, s₄, hr, hp⟩ := Program.bind_eq_ok.1 hwrite₁
      refine Or.inr ⟨rfl, _, rest, borrowed :: re, ?_,
        h.lentLeaf (writeLeaf_eq_ok hl).1 (writeLeaf_eq_ok hr).1 (writeInternal_eq_ok hp).1⟩
      rw [List.append_assoc]
      rfl

theorem borrowLeafRight_ok {b : Bool} (h : Standing s up (.node p keys (A ++ .leaf li le :: .leaf ri re :: B)))
    (hrun : borrowLeafRight li ⟨le, lastId none (leavesLeft up A), some ri⟩ p A.length
      ⟨keys, (A ++ .leaf li le :: .leaf ri re :: B).map Subtree.id⟩ s = (.ok b, u)) :
    (b = false ∧ u = s) ∨ (b = true ∧ ∃ keys' le' re', le' ++ re' = le ++ re ∧
      Standing u up (.node p keys' (A ++ .leaf li le' :: .leaf ri re' :: B))) := by
  have hn := h.leafNeighbours
  unfold borrowLeafRight at hrun
  rw [if_pos (by simp)] at hrun
  obtain ⟨rightId, s₁, hitem, hrun₁⟩ := Program.bind_eq_ok.1 hrun
  obtain ⟨rfl, rfl⟩ := item_right hitem
  obtain ⟨right, s₂, hread, hrun₂⟩ := Program.bind_eq_ok.1 hrun₁
  obtain ⟨hright, rfl⟩ := readLeaf_eq_ok.1 hread
  cases hn.right.symm.trans hright
  cases re with
  | nil               => exact Or.inl (pure_eq_ok.1 hrun₂)
  | cons borrowed rest =>
    dsimp only at hrun₂
    rcases lend_ok leafCanLend_eq_ok fits_eq_ok hrun₂ with hno | ⟨rfl, hwrite⟩
    · exact Or.inl hno
    · obtain ⟨_, s₂', hfirst, hwrite₀⟩ := Program.bind_eq_ok.1 hwrite
      obtain ⟨-, rfl⟩ := item_eq_ok.1 hfirst
      obtain ⟨_, s₃, hl, hwrite₁⟩ := Program.bind_eq_ok.1 hwrite₀
      obtain ⟨_, s₄, hr, hp⟩ := Program.bind_eq_ok.1 hwrite₁
      refine Or.inr ⟨rfl, _, le ++ [borrowed], rest, ?_,
        h.lentLeaf (writeLeaf_eq_ok hl).1 (writeLeaf_eq_ok hr).1 (writeInternal_eq_ok hp).1⟩
      rw [List.append_assoc]
      rfl

theorem setLeafLeftSibling_ok {page : LeafPage} (hpage : contentAt s id = some (.leaf page)) {leftId : Nat}
    (hrun : setLeafLeftSibling id leftId s = (.ok (), u)) : Written s u id (.leaf { page with leftSibling := some leftId }) := by
  obtain ⟨leaf, v, hread, hw⟩ := Program.bind_eq_ok.1 hrun
  obtain ⟨hleaf, rfl⟩ := readLeaf_eq_ok.1 hread
  cases hpage.symm.trans hleaf
  exact (writeLeaf_eq_ok hw).1

theorem mergedLeaf_ok {keys' : List Key} {reduced : Option InternalPage}
    (h : Standing s up (.node p keys (A ++ .leaf li le :: .leaf ri re :: B)))
    (hrun : (do
      writeLeaf li ⟨le ++ re, lastId none (leavesLeft up A), firstId (leavesRight up B) none⟩
      match firstId (leavesRight up B) none with
      | none         => pure ()
      | some sibling => setLeafLeftSibling sibling li
      writeInternal p ⟨keys', (A ++ .leaf li (le ++ re) :: B).map Subtree.id⟩
      pure (some ⟨keys', (A ++ .leaf li (le ++ re) :: B).map Subtree.id⟩) : Action (Option InternalPage)) s = (.ok reduced, u)) :
    reduced = some ⟨keys', (A ++ .leaf li (le ++ re) :: B).map Subtree.id⟩ ∧
      Standing u up (.node p keys' (A ++ .leaf li (le ++ re) :: B)) := by
  have hn := h.leafNeighbours
  obtain ⟨_, s₁, hwl, hrun₁⟩ := Program.bind_eq_ok.1 hrun
  have hl := (writeLeaf_eq_ok hwl).1
  have hafter := hn.after_
  have hbehind := hn.behind
  have hfinish : ∀ {s₂ : TreeFile}, Relinked s₁ s₂ li (leavesRight up B) → (do
      writeInternal p ⟨keys', (A ++ .leaf li (le ++ re) :: B).map Subtree.id⟩
      pure (some ⟨keys', (A ++ .leaf li (le ++ re) :: B).map Subtree.id⟩) : Action (Option InternalPage)) s₂ = (.ok reduced, u) →
      reduced = some ⟨keys', (A ++ .leaf li (le ++ re) :: B).map Subtree.id⟩ ∧
        Standing u up (.node p keys' (A ++ .leaf li (le ++ re) :: B)) := by
    intro s₂ hr hlast
    obtain ⟨_, s₃, hwp, hpure⟩ := Program.bind_eq_ok.1 hlast
    obtain ⟨rfl, rfl⟩ := pure_eq_ok.1 hpure
    have hp := (writeInternal_eq_ok hwp).1
    rw [List.map_append, List.map_cons] at hp
    exact ⟨rfl, h.mergedLeaf hl hr hp⟩
  cases hctx : leavesRight up B with
  | nil       =>
    rw [hctx] at hrun₁
    exact hfinish (show Relinked s₁ s₁ li (leavesRight up B) by rw [hctx]; rfl) hrun₁
  | cons b bs =>
    rw [hctx] at hrun₁ hafter hbehind
    obtain ⟨_, s₂, hset, hlast⟩ := Program.bind_eq_ok.1 (show (do
      setLeafLeftSibling b.id li
      writeInternal p ⟨keys', (A ++ .leaf li (le ++ re) :: B).map Subtree.id⟩
      pure (some ⟨keys', (A ++ .leaf li (le ++ re) :: B).map Subtree.id⟩) : Action (Option InternalPage)) s₁ = _ from hrun₁)
    refine hfinish ?_ hlast
    rw [hctx]
    exact setLeafLeftSibling_ok (hl.keeps (hbehind b List.mem_cons_self).1 hafter.1) hset

theorem mergeLeafLeft_ok {reduced : Option InternalPage} (h : Standing s up (.node p keys (A ++ .leaf li le :: .leaf ri re :: B)))
    (hrun : mergeLeafLeft ⟨re, some li, firstId (leavesRight up B) none⟩ p (A.length + 1)
      ⟨keys, (A ++ .leaf li le :: .leaf ri re :: B).map Subtree.id⟩ s = (.ok reduced, u)) :
    (reduced = none ∧ u = s) ∨ ∃ keys', reduced = some ⟨keys', (A ++ .leaf li (le ++ re) :: B).map Subtree.id⟩ ∧
      Standing u up (.node p keys' (A ++ .leaf li (le ++ re) :: B)) := by
  have hn := h.leafNeighbours
  unfold mergeLeafLeft at hrun
  rw [if_pos (Nat.succ_pos _)] at hrun
  obtain ⟨leftId, s₁, hitem, hrun₁⟩ := Program.bind_eq_ok.1 hrun
  obtain ⟨rfl, rfl⟩ := item_left hitem
  obtain ⟨left, s₂, hread, hrun₂⟩ := Program.bind_eq_ok.1 hrun₁
  obtain ⟨hleft, rfl⟩ := readLeaf_eq_ok.1 hread
  cases hn.left.symm.trans hleft
  dsimp only at hrun₂
  obtain ⟨fit, s₃, hfit, hrun₃⟩ := Program.bind_eq_ok.1 hrun₂
  obtain rfl := fits_eq_ok hfit
  split at hrun₃
  · rw [removeParentChild_eq (.leaf leftId le) (.leaf leftId (le ++ re)) (.leaf ri re) keys rfl] at hrun₃
    exact Or.inr ⟨_, mergedLeaf_ok h hrun₃⟩
  · exact Or.inl (pure_eq_ok.1 hrun₃)

theorem mergeLeafRight_ok {reduced : Option InternalPage}
    (h : Standing s up (.node p keys (A ++ .leaf li le :: .leaf ri re :: B)))
    (hrun : mergeLeafRight li ⟨le, lastId none (leavesLeft up A), some ri⟩ p A.length
      ⟨keys, (A ++ .leaf li le :: .leaf ri re :: B).map Subtree.id⟩ s = (.ok reduced, u)) :
    (reduced = none ∧ u = s) ∨ ∃ keys', reduced = some ⟨keys', (A ++ .leaf li (le ++ re) :: B).map Subtree.id⟩ ∧
      Standing u up (.node p keys' (A ++ .leaf li (le ++ re) :: B)) := by
  have hn := h.leafNeighbours
  unfold mergeLeafRight at hrun
  rw [if_pos (by simp)] at hrun
  obtain ⟨rightId, s₁, hitem, hrun₁⟩ := Program.bind_eq_ok.1 hrun
  obtain ⟨rfl, rfl⟩ := item_right hitem
  obtain ⟨right, s₂, hread, hrun₂⟩ := Program.bind_eq_ok.1 hrun₁
  obtain ⟨hright, rfl⟩ := readLeaf_eq_ok.1 hread
  cases hn.right.symm.trans hright
  dsimp only at hrun₂
  obtain ⟨fit, s₃, hfit, hrun₃⟩ := Program.bind_eq_ok.1 hrun₂
  obtain rfl := fits_eq_ok hfit
  split at hrun₃
  · rw [removeParentChild_eq (.leaf li le) (.leaf li (le ++ re)) (.leaf rightId re) keys rfl] at hrun₃
    exact Or.inr ⟨_, mergedLeaf_ok h hrun₃⟩
  · exact Or.inl (pure_eq_ok.1 hrun₃)

end

/-! ## Two internal pages -/

section
variable {p li ri : Nat} {keys lk rk : List Key} {up : Context Key LeafEntry (n + 2)} {A B : List (Subtree Key LeafEntry (n + 1))}
  {lc rc : List (Subtree Key LeafEntry n)}

theorem borrowInternalLeft_ok {b : Bool} (h : Standing s up (.node p keys (A ++ .node li lk lc :: .node ri rk rc :: B)))
    (hrun : borrowInternalLeft ri ⟨rk, rc.map Subtree.id⟩ p (A.length + 1)
      ⟨keys, (A ++ .node li lk lc :: .node ri rk rc :: B).map Subtree.id⟩ s = (.ok b, u)) :
    (b = false ∧ u = s) ∨ (b = true ∧ ∃ keys' lk' lc' rk' rc', lc' ++ rc' = lc ++ rc ∧
      Standing u up (.node p keys' (A ++ .node li lk' lc' :: .node ri rk' rc' :: B))) := by
  obtain ⟨⟨hpage, hleftPage, hrightPage⟩, -⟩ := h.neighbours
  unfold borrowInternalLeft at hrun
  rw [if_pos (Nat.succ_pos _)] at hrun
  obtain ⟨leftId, s₁, hitem, hrun₁⟩ := Program.bind_eq_ok.1 hrun
  obtain ⟨rfl, rfl⟩ := item_left hitem
  obtain ⟨left, s₂, hread, hrun₂⟩ := Program.bind_eq_ok.1 hrun₁
  obtain ⟨hleft, rfl⟩ := readInternal_eq_ok.1 hread
  cases hleftPage.symm.trans hleft
  dsimp only at hrun₂
  cases hk : lk.getLast? with
  | none   =>
    rw [hk] at hrun₂
    exact Or.inl (pure_eq_ok.1 hrun₂)
  | some k =>
    rw [hk] at hrun₂
    obtain ⟨separator, s₃, hsep, hrun₃⟩ := Program.bind_eq_ok.1 hrun₂
    obtain ⟨-, rfl⟩ := item_eq_ok.1 hsep
    obtain ⟨child, s₄, hchild, hrun₄⟩ := Program.bind_eq_ok.1 hrun₃
    obtain ⟨hget, rfl⟩ := item_eq_ok.1 hchild
    rcases List.eq_nil_or_concat' lc with rfl | ⟨rest, last, rfl⟩
    · cases hget
    have hlast : child = last.id := by
      rw [List.map_append, List.map_singleton, List.length_append, List.length_singleton, Nat.add_sub_cancel,
        List.getElem?_concat_length] at hget
      exact (Option.some_inj.1 hget).symm
    subst hlast
    rcases lend_ok internalCanLend_eq_ok fits_eq_ok hrun₄ with hno | ⟨rfl, hwrite⟩
    · exact Or.inl hno
    · obtain ⟨_, s₅, hl, hwrite₁⟩ := Program.bind_eq_ok.1 hwrite
      obtain ⟨_, s₆, hr, hp⟩ := Program.bind_eq_ok.1 hwrite₁
      rw [List.map_append, List.map_singleton, List.dropLast_concat] at hl
      refine Or.inr ⟨rfl, _, _, rest, _, last :: rc, ?_,
        h.lentInternal ?_ (writeInternal_eq_ok hl).1 (writeInternal_eq_ok hr).1 (writeInternal_eq_ok hp).1⟩
      all_goals
        rw [List.append_assoc]
        rfl

theorem borrowInternalRight_ok {b : Bool} (h : Standing s up (.node p keys (A ++ .node li lk lc :: .node ri rk rc :: B)))
    (hrun : borrowInternalRight li ⟨lk, lc.map Subtree.id⟩ p A.length
      ⟨keys, (A ++ .node li lk lc :: .node ri rk rc :: B).map Subtree.id⟩ s = (.ok b, u)) :
    (b = false ∧ u = s) ∨ (b = true ∧ ∃ keys' lk' lc' rk' rc', lc' ++ rc' = lc ++ rc ∧
      Standing u up (.node p keys' (A ++ .node li lk' lc' :: .node ri rk' rc' :: B))) := by
  obtain ⟨⟨hpage, hleftPage, hrightPage⟩, -⟩ := h.neighbours
  unfold borrowInternalRight at hrun
  rw [if_pos (by simp)] at hrun
  obtain ⟨rightId, s₁, hitem, hrun₁⟩ := Program.bind_eq_ok.1 hrun
  obtain ⟨rfl, rfl⟩ := item_right hitem
  obtain ⟨right, s₂, hread, hrun₂⟩ := Program.bind_eq_ok.1 hrun₁
  obtain ⟨hright, rfl⟩ := readInternal_eq_ok.1 hread
  cases hrightPage.symm.trans hright
  dsimp only at hrun₂
  cases rk with
  | nil       => exact Or.inl (pure_eq_ok.1 hrun₂)
  | cons k ks =>
    obtain ⟨separator, s₃, hsep, hrun₃⟩ := Program.bind_eq_ok.1 hrun₂
    obtain ⟨-, rfl⟩ := item_eq_ok.1 hsep
    obtain ⟨child, s₄, hchild, hrun₄⟩ := Program.bind_eq_ok.1 hrun₃
    obtain ⟨hget, rfl⟩ := item_eq_ok.1 hchild
    cases rc with
    | nil             => cases hget
    | cons first rest =>
      cases hget
      rcases lend_ok internalCanLend_eq_ok fits_eq_ok hrun₄ with hno | ⟨rfl, hwrite⟩
      · exact Or.inl hno
      · obtain ⟨_, s₅, hl, hwrite₁⟩ := Program.bind_eq_ok.1 hwrite
        obtain ⟨_, s₆, hr, hp⟩ := Program.bind_eq_ok.1 hwrite₁
        rw [show lc.map Subtree.id ++ [first.id] = (lc ++ [first]).map Subtree.id by rw [List.map_append]; rfl] at hl
        refine Or.inr ⟨rfl, _, _, lc ++ [first], _, rest, ?_,
          h.lentInternal ?_ (writeInternal_eq_ok hl).1 (writeInternal_eq_ok hr).1 (writeInternal_eq_ok hp).1⟩
        all_goals
          rw [List.append_assoc]
          rfl

theorem mergedInternal_ok {keys' mk : List Key} {reduced : Option InternalPage}
    (h : Standing s up (.node p keys (A ++ .node li lk lc :: .node ri rk rc :: B)))
    (hrun : (do
      writeInternal li ⟨mk, (lc ++ rc).map Subtree.id⟩
      writeInternal p ⟨keys', (A ++ .node li mk (lc ++ rc) :: B).map Subtree.id⟩
      pure (some ⟨keys', (A ++ .node li mk (lc ++ rc) :: B).map Subtree.id⟩) :
      Action (Option InternalPage)) s = (.ok reduced, u)) :
    reduced = some ⟨keys', (A ++ .node li mk (lc ++ rc) :: B).map Subtree.id⟩ ∧
      Standing u up (.node p keys' (A ++ .node li mk (lc ++ rc) :: B)) := by
  obtain ⟨_, s₁, hl, hrun₁⟩ := Program.bind_eq_ok.1 hrun
  obtain ⟨_, s₂, hwp, hrun₂⟩ := Program.bind_eq_ok.1 hrun₁
  obtain ⟨rfl, rfl⟩ := pure_eq_ok.1 hrun₂
  have hp := (writeInternal_eq_ok hwp).1
  rw [List.map_append, List.map_cons] at hp
  exact ⟨rfl, h.mergedInternal (writeInternal_eq_ok hl).1 hp⟩

theorem mergeInternalLeft_ok {reduced : Option InternalPage}
    (h : Standing s up (.node p keys (A ++ .node li lk lc :: .node ri rk rc :: B)))
    (hrun : mergeInternalLeft ⟨rk, rc.map Subtree.id⟩ p (A.length + 1)
      ⟨keys, (A ++ .node li lk lc :: .node ri rk rc :: B).map Subtree.id⟩ s = (.ok reduced, u)) :
    (reduced = none ∧ u = s) ∨ ∃ keys' mk, reduced = some ⟨keys', (A ++ .node li mk (lc ++ rc) :: B).map Subtree.id⟩ ∧
      Standing u up (.node p keys' (A ++ .node li mk (lc ++ rc) :: B)) := by
  obtain ⟨⟨hpage, hleftPage, hrightPage⟩, -⟩ := h.neighbours
  unfold mergeInternalLeft at hrun
  rw [if_pos (Nat.succ_pos _)] at hrun
  obtain ⟨leftId, s₁, hitem, hrun₁⟩ := Program.bind_eq_ok.1 hrun
  obtain ⟨rfl, rfl⟩ := item_left hitem
  obtain ⟨left, s₂, hread, hrun₂⟩ := Program.bind_eq_ok.1 hrun₁
  obtain ⟨hleft, rfl⟩ := readInternal_eq_ok.1 hread
  cases hleftPage.symm.trans hleft
  obtain ⟨separator, s₃, hsep, hrun₃⟩ := Program.bind_eq_ok.1 hrun₂
  obtain ⟨-, rfl⟩ := item_eq_ok.1 hsep
  dsimp only at hrun₃
  rw [← List.map_append] at hrun₃
  obtain ⟨fit, s₄, hfit, hrun₄⟩ := Program.bind_eq_ok.1 hrun₃
  obtain rfl := fits_eq_ok hfit
  split at hrun₄
  · rw [removeParentChild_eq (.node leftId lk lc) (.node leftId (lk ++ separator :: rk) (lc ++ rc))
      (.node ri rk rc) keys rfl] at hrun₄
    exact Or.inr ⟨_, _, mergedInternal_ok h hrun₄⟩
  · exact Or.inl (pure_eq_ok.1 hrun₄)

theorem mergeInternalRight_ok {reduced : Option InternalPage}
    (h : Standing s up (.node p keys (A ++ .node li lk lc :: .node ri rk rc :: B)))
    (hrun : mergeInternalRight li ⟨lk, lc.map Subtree.id⟩ p A.length
      ⟨keys, (A ++ .node li lk lc :: .node ri rk rc :: B).map Subtree.id⟩ s = (.ok reduced, u)) :
    (reduced = none ∧ u = s) ∨ ∃ keys' mk, reduced = some ⟨keys', (A ++ .node li mk (lc ++ rc) :: B).map Subtree.id⟩ ∧
      Standing u up (.node p keys' (A ++ .node li mk (lc ++ rc) :: B)) := by
  obtain ⟨⟨hpage, hleftPage, hrightPage⟩, -⟩ := h.neighbours
  unfold mergeInternalRight at hrun
  rw [if_pos (by simp)] at hrun
  obtain ⟨rightId, s₁, hitem, hrun₁⟩ := Program.bind_eq_ok.1 hrun
  obtain ⟨rfl, rfl⟩ := item_right hitem
  obtain ⟨right, s₂, hread, hrun₂⟩ := Program.bind_eq_ok.1 hrun₁
  obtain ⟨hright, rfl⟩ := readInternal_eq_ok.1 hread
  cases hrightPage.symm.trans hright
  obtain ⟨separator, s₃, hsep, hrun₃⟩ := Program.bind_eq_ok.1 hrun₂
  obtain ⟨-, rfl⟩ := item_eq_ok.1 hsep
  dsimp only at hrun₃
  rw [← List.map_append] at hrun₃
  obtain ⟨fit, s₄, hfit, hrun₄⟩ := Program.bind_eq_ok.1 hrun₃
  obtain rfl := fits_eq_ok hfit
  split at hrun₄
  · rw [removeParentChild_eq (.node li lk lc) (.node li (lk ++ separator :: rk) (lc ++ rc))
      (.node rightId rk rc) keys rfl] at hrun₄
    exact Or.inr ⟨_, _, mergedInternal_ok h hrun₄⟩
  · exact Or.inl (pure_eq_ok.1 hrun₄)

end

end TreeFile
end MiniPostgres
