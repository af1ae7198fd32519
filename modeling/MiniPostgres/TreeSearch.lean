import MiniPostgres.TreeShape
/-!
# TreeSearch — searching along the leaves

Over leaves that are strung in the pages, with sorted entries and no empty leaf but the first: the walk to the left stops behind
everything below the key, the walk to the right collects what there is of it.  So `search` gives what the multimap of all entries
gives, and `range` the entries of the range in their order, whatever leaf the descent ends in.
-/
namespace MiniPostgres

open BTreePages Executors SearchTree

namespace TreeFile

variable {s : TreeFile}

/-- The entries of leaves, as the multimap has them. -/
def pairs (leaves : List (Leaf LeafEntry)) : BTree := (leaves.flatMap Leaf.entries).map fun e => (e.key, e.tid)

/-- **Leaves in order**: the entries are sorted, and at most the first leaf is empty. -/
structure Ordered (leaves : List (Leaf LeafEntry)) : Prop where
  sorted : (leaves.flatMap Leaf.entries).Pairwise fun a b => a.key ≤ b.key
  filled : ∀ l ∈ leaves.tail, l.entries ≠ []

def pageOf (before : List (Leaf LeafEntry)) (l : Leaf LeafEntry) (after : List (Leaf LeafEntry)) : LeafPage :=
  ⟨l.entries, lastId none before, firstId after none⟩

theorem Strung.page {before after : List (Leaf LeafEntry)} {l : Leaf LeafEntry} (h : Strung s none (before ++ l :: after) none) :
    readLeaf l.id s = (.ok (pageOf before l after), s) := readLeaf_eq_ok.2 ⟨(strung_append.1 h).2.1, rfl⟩

/-! ## To the left -/

theorem endsFrom_false {k : Key} {before after : List (Leaf LeafEntry)} {l : Leaf LeafEntry} (ho : Ordered (before ++ l :: after))
    (h : endsFrom k l.entries = false) : ∀ e ∈ (before ++ [l]).flatMap Leaf.entries, e.key < k := by
  have hsorted := ho.sorted
  rw [List.flatMap_append, List.flatMap_cons, ← List.append_assoc] at hsorted
  have hleft := (List.pairwise_append.1 hsorted).1
  rw [List.flatMap_append, List.flatMap_singleton]
  rcases List.eq_nil_or_concat' l.entries with hes | ⟨es, last, hes⟩
  · cases before with
    | nil       =>
      rw [hes]
      exact fun e he => absurd he List.not_mem_nil
    | cons b bs => exact absurd hes (ho.filled l (List.mem_append_right bs List.mem_cons_self))
  · unfold endsFrom at h
    rw [hes] at h hleft ⊢
    rw [List.getLast?_concat] at h
    have hlast : last.key < k := not_le.1 (of_decide_eq_false h)
    rw [← List.append_assoc] at hleft ⊢
    intro e he
    rcases List.mem_append.1 he with he | he
    · exact lt_of_le_of_lt ((List.pairwise_append.1 hleft).2.2 e he last (List.mem_singleton_self last)) hlast
    · rw [List.mem_singleton.1 he]
      exact hlast

/-- **The walk to the left.** -/
theorem toLeft_loop {k : Key} (n : Nat) (before : List (Leaf LeafEntry)) : ∀ (l : Leaf LeafEntry) (after : List (Leaf LeafEntry)),
    Strung s none (before ++ l :: after) none → Ordered (before ++ l :: after) → before.length < n →
    ∃ before' l' after', Program.loop Failure.interrupted (fun (p : Nat × LeafPage) =>
        match p.2.leftSibling with
        | none         => (pure (.inr (p.1, p.2)) : Action ((Nat × LeafPage) ⊕ (Nat × LeafPage)))
        | some sibling => do
          let left ← readLeaf sibling
          pure (if endsFrom k left.entries then .inl (sibling, left) else .inr (p.1, p.2))) n (l.id, pageOf before l after) s =
        (.ok (l'.id, pageOf before' l' after'), s) ∧ before ++ l :: after = before' ++ l' :: after' ∧
      ∀ e ∈ before'.flatMap Leaf.entries, e.key < k := by
  induction before using List.reverseRecOn generalizing n with
  | nil             =>
    intro l after hs ho hn
    cases n with
    | zero   => exact absurd hn (Nat.not_lt_zero _)
    | succ n => exact ⟨[], l, after, rfl, rfl, fun e he => absurd he List.not_mem_nil⟩
  | append_singleton before m ih =>
    intro l after hs ho hn
    rw [List.append_assoc, List.cons_append, List.nil_append] at hs ho
    cases n with
    | zero   => exact absurd hn (Nat.not_lt_zero _)
    | succ n =>
      rw [List.length_append, List.length_singleton] at hn
      have hread := hs.page
      have hsib : (pageOf (before ++ [m]) l after).leftSibling = some m.id := lastId_concat none before m
      unfold Program.loop
      dsimp only
      rw [hsib]
      dsimp only
      cases hend : endsFrom k m.entries with
      | true  =>
        rcases ih n m (l :: after) hs ho (by omega) with ⟨before', l', after', hrun, hsplit, hlt⟩
        refine ⟨before', l', after', ?_, ?_, hlt⟩
        · rw [Program.bind_ok (a := .inl (m.id, pageOf before m (l :: after))) (t := s)]
          · exact hrun
          · rw [Program.bind_ok hread]
            show ((.ok (if endsFrom k m.entries then _ else _), s) : Except Failure _ × TreeFile) = _
            rw [hend]
            rfl
        · rw [List.append_assoc, List.cons_append, List.nil_append]
          exact hsplit
      | false =>
        refine ⟨before ++ [m], l, after, ?_, rfl, endsFrom_false ho hend⟩
        rw [Program.bind_ok (a := .inr (l.id, pageOf (before ++ [m]) l after)) (t := s)]
        · rfl
        · rw [Program.bind_ok hread]
          show ((.ok (if endsFrom k m.entries then _ else _), s) : Except Failure _ × TreeFile) = _
          rw [hend]
          rfl

/-! ## To the right -/

theorem above_of_endsAbove {k : Key} {before after : List (Leaf LeafEntry)} {l : Leaf LeafEntry}
    (ho : Ordered (before ++ l :: after))
    (h : endsAbove k l.entries = true) : ∀ e ∈ after.flatMap Leaf.entries, k < e.key := by
  have hsorted := ho.sorted
  rw [List.flatMap_append, List.flatMap_cons, ← List.append_assoc] at hsorted
  have hcross := (List.pairwise_append.1 hsorted).2.2
  unfold endsAbove at h
  obtain ⟨last, hlast, hlt⟩ := (Option.any_eq_true _ _).1 h
  intro e he
  exact lt_of_lt_of_le (of_decide_eq_true hlt) (hcross last (List.mem_append_right _ (List.mem_of_getLast? hlast)) e he)

theorem above_of_startsAbove {k : Key} {before after : List (Leaf LeafEntry)} {l : Leaf LeafEntry}
    (ho : Ordered (before ++ l :: after))
    (h : startsAbove k l.entries = true) : ∀ e ∈ (l :: after).flatMap Leaf.entries, k < e.key := by
  have hsorted := ho.sorted
  rw [List.flatMap_append] at hsorted
  have htail := (List.pairwise_append.1 hsorted).2.1
  unfold startsAbove at h
  obtain ⟨first, hfirst, hlt⟩ := (Option.any_eq_true _ _).1 h
  rw [List.flatMap_cons] at htail ⊢
  cases hes : l.entries with
  | nil       =>
    rw [hes] at hfirst
    cases hfirst
  | cons d ds =>
    rw [hes] at hfirst htail
    cases hfirst
    intro e he
    rcases List.mem_cons.1 he with rfl | he
    · exact of_decide_eq_true hlt
    · exact lt_of_lt_of_le (of_decide_eq_true hlt) ((List.pairwise_cons.1 htail).1 e he)

/-- **One leaf to the right**, or nothing there is of the key any more. -/
theorem onRight_ok {k : Key} {before after : List (Leaf LeafEntry)} {l : Leaf LeafEntry}
    (hs : Strung s none (before ++ l :: after) none) (ho : Ordered (before ++ l :: after)) :
    (onRight k (pageOf before l after) s = (.ok none, s) ∧ ∀ e ∈ after.flatMap Leaf.entries, k < e.key) ∨
    ∃ m ms, after = m :: ms ∧ onRight k (pageOf before l after) s = (.ok (some (m.id, pageOf (before ++ [l]) m ms)), s) := by
  cases after with
  | nil       => exact Or.inl ⟨rfl, fun e he => absurd he List.not_mem_nil⟩
  | cons m ms =>
    have hsplit : before ++ l :: m :: ms = (before ++ [l]) ++ m :: ms := by
      rw [List.append_assoc]
      rfl
    have hread : readLeaf m.id s = (.ok (pageOf (before ++ [l]) m ms), s) := by
      rw [hsplit] at hs
      exact hs.page
    unfold onRight
    show ((if endsAbove k l.entries then (pure none : Action (Option (Nat × LeafPage))) else _) s = _ ∧ _) ∨
      ∃ m' ms', m :: ms = m' :: ms' ∧ (if endsAbove k l.entries then (pure none : Action (Option (Nat × LeafPage))) else _) s = _
    cases hend : endsAbove k l.entries with
    | true  => exact Or.inl ⟨rfl, above_of_endsAbove ho hend⟩
    | false =>
      rw [if_neg Bool.false_ne_true, Program.bind_ok hread]
      cases hstart : startsAbove k m.entries with
      | true  =>
        refine Or.inl ⟨?_, ?_⟩
        · show ((.ok (if startsAbove k m.entries then none else _), s) : Except Failure _ × TreeFile) = _
          rw [hstart]
          rfl
        · rw [hsplit] at ho
          exact above_of_startsAbove ho hstart
      | false =>
        refine Or.inr ⟨m, ms, rfl, ?_⟩
        show ((.ok (if startsAbove k m.entries then none else _), s) : Except Failure _ × TreeFile) = _
        rw [hstart]
        rfl

theorem filter_above {k : Key} {es : List LeafEntry} (h : ∀ e ∈ es, k < e.key) :
    (es.filter fun e => decide (e.key = k)) = [] := by
  refine List.filter_eq_nil_iff.2 fun e he => ?_
  rw [decide_eq_true_eq]
  exact ne_of_gt (h e he)

theorem filter_below {k : Key} {es : List LeafEntry} (h : ∀ e ∈ es, e.key < k) :
    (es.filter fun e => decide (e.key = k)) = [] := by
  refine List.filter_eq_nil_iff.2 fun e he => ?_
  rw [decide_eq_true_eq]
  exact ne_of_lt (h e he)

/-- **The walk to the right** collects all there is. -/
theorem gather_loop {k : Key} : ∀ (n : Nat) (before : List (Leaf LeafEntry)) (l : Leaf LeafEntry) (after : List (Leaf LeafEntry))
    (found : List TID), Strung s none (before ++ l :: after) none → Ordered (before ++ l :: after) → after.length < n →
    Program.loop Failure.interrupted (fun (p : LeafPage × List TID) => (do
      let found := p.2 ++ (p.1.entries.filter fun e => e.key = k).map LeafEntry.tid
      match ← onRight k p.1 with
      | none            => pure (.inr found)
      | some (_, right) => pure (.inl (right, found)) : Action ((LeafPage × List TID) ⊕ List TID))) n
        (pageOf before l after, found) s =
      (.ok (found ++ (((l :: after).flatMap Leaf.entries).filter fun e => e.key = k).map LeafEntry.tid), s)
  | 0, _, _, _, _, _, _, hn                  => absurd hn (Nat.not_lt_zero _)
  | n + 1, before, l, after, found, hs, ho, hn => by
    have hcons : ((l :: after).flatMap Leaf.entries).filter (fun e => decide (e.key = k)) =
        (l.entries.filter fun e => decide (e.key = k)) ++ (after.flatMap Leaf.entries).filter fun e => decide (e.key = k) := by
      rw [List.flatMap_cons, List.filter_append]
    rw [hcons]
    unfold Program.loop
    rcases onRight_ok hs ho (k := k) with ⟨hrun, habove⟩ | ⟨m, ms, rfl, hrun⟩
    · rw [filter_above habove, List.append_nil]
      rw [Program.bind_ok (a := .inr (found ++ (l.entries.filter fun e => decide (e.key = k)).map LeafEntry.tid)) (t := s)]
      · rfl
      · rw [Program.bind_ok hrun]
        rfl
    · have hsplit : before ++ l :: m :: ms = (before ++ [l]) ++ m :: ms := by
        rw [List.append_assoc]
        rfl
      rw [Program.bind_ok (a := .inl (pageOf (before ++ [l]) m ms, found ++
        (l.entries.filter fun e => decide (e.key = k)).map LeafEntry.tid))
        (t := s)]
      · rw [hsplit] at hs ho
        rw [List.length_cons] at hn
        show Program.loop _ _ n _ s = _
        rw [gather_loop n (before ++ [l]) m ms _ hs ho (by omega), List.map_append, List.append_assoc]
      · rw [Program.bind_ok hrun]
        rfl

/-! ## Whole trees -/

/-- **A valid tree**: it stands in the pages and is a search tree, at most its first leaf is empty, and no pair is there twice. -/
structure Valid (s : TreeFile) {n : Nat} (t : Subtree Key LeafEntry n) : Prop where
  standing : Standing s .root t
  bounded  : t.Bounded LeafEntry.key none none
  filled   : ∀ l ∈ t.leaves.tail, l.entries ≠ []
  nodup    : (pairs t.leaves).Nodup

theorem Strung.content : ∀ {left right : Option Nat} {ls : List (Leaf LeafEntry)}, Strung s left ls right →
    ∀ l ∈ ls, ∃ p, contentAt s l.id = some (.leaf p)
  | _, _, [], _, _, hl      => absurd hl List.not_mem_nil
  | _, _, m :: _, h, l, hl => by
    rcases List.mem_cons.1 hl with rfl | hl
    · exact ⟨_, h.1⟩
    · exact h.2.content l hl

variable {n : Nat} {t : Subtree Key LeafEntry n}

theorem Standing.strungRoot (h : Standing s .root t) : Strung s none t.leaves none := by
  have hs := h.strung
  rwa [show Context.leavesBefore (.root : Context Key LeafEntry n) = [] from rfl,
    show Context.leavesAfter (.root : Context Key LeafEntry n) = [] from rfl, List.nil_append, List.append_nil] at hs

theorem Standing.nodup : ∀ {n : Nat} {ctx : Context Key LeafEntry n} {t : Subtree Key LeafEntry n}, Standing s ctx t →
    ((ctx.leavesBefore ++ t.leaves ++ ctx.leavesAfter).map Leaf.id).Nodup
  | _, .root, t, h                            => by
    show (([] ++ t.leaves ++ []).map Leaf.id).Nodup
    rw [List.nil_append, List.append_nil, List.nodup_iff_count_le_one]
    intro x
    have := Subtree.count_leaves x t
    have := h.once x
    omega
  | _, .frame id ks₁ cs₁ ks₂ cs₂ up, t, h => by
    rw [Context.leaves_fill]
    exact h.up.nodup

theorem Valid.ordered (h : Valid s t) : Ordered t.leaves := ⟨h.bounded.sorted, h.filled⟩

theorem Valid.room (h : Valid s t) : t.leaves.length ≤ s.pages.length := by
  have hnodup : (([] ++ t.leaves ++ []).map Leaf.id).Nodup := h.standing.nodup
  rw [List.nil_append, List.append_nil] at hnodup
  have hsub : t.leaves.map Leaf.id ⊆ List.range s.pages.length := by
    intro x hx
    obtain ⟨l, hl, rfl⟩ := List.mem_map.1 hx
    obtain ⟨p, hp⟩ := h.standing.strungRoot.content l hl
    exact List.mem_range.2 (contentAt_lt hp)
  have hle := (List.Nodup.subperm hnodup hsub).length_le
  rwa [List.length_map, List.length_range] at hle

/-- **Where a walk to the right begins.** -/
theorem firstLeaf_ok (h : Valid s t) (k : Key) : ∃ before l after, firstLeaf k s = (.ok (l.id, pageOf before l after), s) ∧
    t.leaves = before ++ l :: after ∧ ∀ e ∈ before.flatMap Leaf.entries, e.key < k := by
  rcases findLeaf_ok (k := k) h.standing h.bounded with ⟨l, c, _, _, hrun, -, -, -, -, -, hleaves⟩
  have hs := h.standing.strungRoot
  have ho := h.ordered
  have hroom := h.room
  rw [← hleaves] at hs ho hroom
  rw [List.length_append, List.length_cons] at hroom
  rcases toLeft_loop (k := k) s.pages.length c.leavesBefore l c.leavesAfter hs ho (by omega) with
    ⟨before, l', after, hloop, hsplit, hlt⟩
  refine ⟨before, l', after, ?_, hleaves ▸ hsplit, hlt⟩
  refine (Program.bind_ok hrun).trans ?_
  show (readLeaf l.id >>= fun leaf => toLeft k l.id leaf) s = _
  rw [Program.bind_ok hs.page]
  exact hloop

/-- **`search` gives what the multimap of the entries gives.** -/
theorem search_ok (h : Valid s t) (k : Key) : search k s = (.ok ((pairs t.leaves).search k), s) := by
  rcases firstLeaf_ok h k with ⟨before, l, after, hfirst, hsplit, hlt⟩
  have hs := h.standing.strungRoot
  have ho := h.ordered
  have hroom := h.room
  rw [hsplit] at hs ho hroom
  rw [List.length_append, List.length_cons] at hroom
  have hgather := gather_loop (k := k) s.pages.length before l after [] hs ho (by omega)
  have hfound : (((pairs t.leaves).filter fun e => e.1 = k).map Prod.snd) =
      (((l :: after).flatMap Leaf.entries).filter fun e => decide (e.key = k)).map LeafEntry.tid := by
    unfold pairs
    rw [hsplit, List.flatMap_append, List.filter_map, List.map_map, List.filter_append]
    have hbelow := filter_below hlt
    show List.map LeafEntry.tid ((before.flatMap Leaf.entries).filter (fun e => decide (e.key = k)) ++ _) = _
    rw [hbelow]
    rfl
  rw [List.nil_append] at hgather
  refine (Program.bind_ok hfirst).trans ((Program.bind_ok (t := s) hgather).trans ?_)
  unfold BTree.search
  rw [hfound]
  rfl

/-! ## Ranges -/

theorem reached_range {lower upper : Key} (hle : lower ≤ upper) : ∀ {es : List LeafEntry},
    es.Pairwise (fun a b => a.key ≤ b.key) →
    ((es.takeWhile fun e => decide (e.key < lower ∨ e.key ≤ upper)).filter fun e => !decide (e.key < lower)) =
      (es.filter fun e => decide (lower ≤ e.key ∧ e.key ≤ upper)) ∧
    ((es.takeWhile fun e => decide (e.key < lower ∨ e.key ≤ upper)).length < es.length ↔ ∃ e ∈ es, upper < e.key)
  | [], _      => ⟨rfl, ⟨fun h => absurd h (lt_irrefl 0), fun ⟨_, he, _⟩ => absurd he List.not_mem_nil⟩⟩
  | e :: es, h => by
    have hcons := List.pairwise_cons.1 h
    have ih := reached_range hle hcons.2
    by_cases hup : e.key ≤ upper
    · have hin : decide (e.key < lower ∨ e.key ≤ upper) = true := decide_eq_true (Or.inr hup)
      rw [List.takeWhile_cons, hin, if_pos rfl]
      constructor
      · rw [List.filter_cons, List.filter_cons, ih.1]
        by_cases hlo : e.key < lower
        · rw [if_neg (by simp [hlo]), if_neg (by simp [hlo])]
        · rw [if_pos (by simp [hlo]), if_pos (by simp [not_lt.1 hlo, hup])]
      · rw [List.length_cons, List.length_cons, Nat.succ_lt_succ_iff, ih.2]
        constructor
        · rintro ⟨d, hd, hlt⟩
          exact ⟨d, List.mem_cons_of_mem e hd, hlt⟩
        · rintro ⟨d, hd, hlt⟩
          rcases List.mem_cons.1 hd with rfl | hd
          · exact absurd hlt (not_lt.2 hup)
          · exact ⟨d, hd, hlt⟩
    · have hup := not_le.1 hup
      have hout : decide (e.key < lower ∨ e.key ≤ upper) = false := by
        refine decide_eq_false ?_
        rintro (hlt | hle')
        · exact absurd (lt_of_lt_of_le hlt hle) (not_lt.2 (le_of_lt hup))
        · exact absurd hle' (not_le.2 hup)
      rw [List.takeWhile_cons, hout, if_neg Bool.false_ne_true]
      constructor
      · symm
        refine List.filter_eq_nil_iff.2 fun d hd => ?_
        rw [decide_eq_true_eq]
        rintro ⟨-, hle'⟩
        rcases List.mem_cons.1 hd with rfl | hd
        · exact absurd hle' (not_le.2 hup)
        · exact absurd (le_trans (hcons.1 d hd) hle') (not_le.2 hup)
      · exact ⟨fun _ => ⟨e, List.mem_cons_self, hup⟩, fun _ => Nat.succ_pos _⟩

def inRange (lower upper : Key) (es : List LeafEntry) : List (Key × TID) :=
  (es.filter fun e => decide (lower ≤ e.key ∧ e.key ≤ upper)).map fun e => (e.key, e.tid)

/-- **The iterator's walk.** -/
theorem range_loop {lower upper : Key} (hle : lower ≤ upper) : ∀ (n : Nat) (before : List (Leaf LeafEntry)) (l : Leaf LeafEntry)
    (after : List (Leaf LeafEntry)) (found : List (Key × TID)), Strung s none (before ++ l :: after) none →
    Ordered (before ++ l :: after) → after.length < n →
    Program.loop Failure.interrupted (fun (p : LeafPage × List (Key × TID)) => (
      let reached := p.1.entries.takeWhile fun e => decide (e.key < lower ∨ e.key ≤ upper)
      let found := p.2 ++ (reached.filter fun e => !decide (e.key < lower)).map fun e => (e.key, e.tid)
      if reached.length < p.1.entries.length then pure (.inr found)
      else
        match p.1.rightSibling with
        | none         => pure (.inr found)
        | some sibling => do
          let right ← readLeaf sibling
          pure (.inl (right, found)) : Action ((LeafPage × List (Key × TID)) ⊕ List (Key × TID)))) n
            (pageOf before l after, found) s =
      (.ok (found ++ inRange lower upper ((l :: after).flatMap Leaf.entries)), s)
  | 0, _, _, _, _, _, _, hn                  => absurd hn (Nat.not_lt_zero _)
  | n + 1, before, l, after, found, hs, ho, hn => by
    have hsorted := ho.sorted
    rw [List.flatMap_append, List.flatMap_cons] at hsorted
    have hbehind := (List.pairwise_append.1 hsorted).2.1
    have hreach := reached_range hle (List.pairwise_append.1 hbehind).1
    have hmap : (((l.entries.takeWhile fun e => decide (e.key < lower ∨ e.key ≤ upper)).filter fun e =>
      !decide (e.key < lower)).map
        fun e => (e.key, e.tid)) = inRange lower upper l.entries := congrArg (List.map _) hreach.1
    have hcons : inRange lower upper ((l :: after).flatMap Leaf.entries) =
        inRange lower upper l.entries ++ inRange lower upper (after.flatMap Leaf.entries) := by
      unfold inRange
      rw [List.flatMap_cons, List.filter_append, List.map_append]
    rw [hcons]
    unfold Program.loop
    by_cases hstop : (l.entries.takeWhile fun e => decide (e.key < lower ∨ e.key ≤ upper)).length < l.entries.length
    · obtain ⟨e, he, hlt⟩ := hreach.2.1 hstop
      have hrest : inRange lower upper (after.flatMap Leaf.entries) = [] := by
        unfold inRange
        rw [List.map_eq_nil_iff]
        refine List.filter_eq_nil_iff.2 fun d hd => ?_
        rw [decide_eq_true_eq]
        rintro ⟨-, hle'⟩
        exact absurd (le_trans ((List.pairwise_append.1 hbehind).2.2 e he d hd) hle') (not_le.2 hlt)
      rw [hrest, List.append_nil, Program.bind_ok (a := .inr (found ++ inRange lower upper l.entries)) (t := s)]
      · rfl
      · refine (congrFun (if_pos hstop) s).trans ?_
        exact congrArg (fun r =>
            ((.ok (.inr (found ++ r)), s) : Except Failure ((LeafPage × List (Key × TID)) ⊕ List (Key × TID)) × TreeFile)) hmap
    · cases after with
      | nil       =>
        rw [Program.bind_ok (a := .inr (found ++ inRange lower upper l.entries)) (t := s)]
        · exact congrArg (fun r => ((.ok (found ++ r), s) : Except Failure _ × TreeFile)) (List.append_nil _).symm
        · refine (congrFun (if_neg hstop) s).trans ?_
          exact congrArg (fun r =>
            ((.ok (.inr (found ++ r)), s) : Except Failure ((LeafPage × List (Key × TID)) ⊕ List (Key × TID)) × TreeFile)) hmap
      | cons m ms =>
        have hsplit : before ++ l :: m :: ms = (before ++ [l]) ++ m :: ms := by
          rw [List.append_assoc]
          rfl
        rw [hsplit] at hs ho
        rw [List.length_cons] at hn
        rw [Program.bind_ok (a := .inl (pageOf (before ++ [l]) m ms, found ++ inRange lower upper l.entries)) (t := s)]
        · show Program.loop _ _ n _ s = _
          rw [← List.append_assoc]
          exact range_loop hle n (before ++ [l]) m ms _ hs ho (by omega)
        · refine (congrFun (if_neg hstop) s).trans ((Program.bind_ok hs.page).trans ?_)
          exact congrArg (fun r =>
            ((.ok (.inl (_, found ++ r)), s) : Except Failure ((LeafPage × List (Key × TID)) ⊕ List (Key × TID)) × TreeFile)) hmap

/-- **`range` yields the entries of the range**, in their order. -/
theorem range_ok (h : Valid s t) {lower upper : Key} (hle : lower ≤ upper) :
    range lower upper s = (.ok ((pairs t.leaves).filter fun p => decide (lower ≤ p.1 ∧ p.1 ≤ upper)), s) := by
  rcases firstLeaf_ok h lower with ⟨before, l, after, hfirst, hsplit, hlt⟩
  have hs := h.standing.strungRoot
  have ho := h.ordered
  have hroom := h.room
  rw [hsplit] at hs ho hroom
  rw [List.length_append, List.length_cons] at hroom
  have hloop := range_loop hle s.pages.length before l after [] hs ho (by omega)
  have hfound : ((pairs t.leaves).filter fun p => decide (lower ≤ p.1 ∧ p.1 ≤ upper)) =
      inRange lower upper ((l :: after).flatMap Leaf.entries) := by
    unfold pairs inRange
    rw [hsplit, List.flatMap_append, List.filter_map, List.filter_append]
    have hbelow : (before.flatMap Leaf.entries).filter ((fun p : Key × TID => decide (lower ≤ p.1 ∧ p.1 ≤ upper)) ∘
        fun e : LeafEntry => (e.key, e.tid)) = [] := by
      refine List.filter_eq_nil_iff.2 fun e he => ?_
      show ¬decide (lower ≤ e.key ∧ e.key ≤ upper) = true
      rw [decide_eq_true_eq]
      exact fun hin => absurd hin.1 (not_le.2 (hlt e he))
    rw [hbelow]
    rfl
  rw [hfound]
  have hpage : firstLeafPage lower s = (.ok l.id, s) := by
    unfold firstLeafPage
    rw [Program.bind_ok hfirst]
    rfl
  rw [List.nil_append] at hloop
  unfold range
  rw [if_neg (not_lt.2 hle), Program.bind_ok hpage, Program.bind_ok hs.page]
  exact hloop

end TreeFile
end MiniPostgres
