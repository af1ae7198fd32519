import MiniPostgres.TreeDelete
import MiniPostgres.Lib.Tally
/-!
# TreeRuns — the index over a whole run

Whatever was inserted into a B+Tree and deleted from it, its pages hold a valid tree of the entries of the multimap `Index` works
with, and every query answers as that does.
-/
namespace MiniPostgres

open BTreePages Executors SearchTree

namespace TreeFile

variable {s u : TreeFile} {n : Nat} {t : Subtree Key LeafEntry n}

/-! ## `BTree.open` -/

/-- A new index: the metapage, and a leaf for the root. -/
theorem open_new {root height : Nat} (hrun : open_ ⟨[], root, height⟩ = (.ok (), u)) :
    Valid u (.leaf 1 [] : Subtree Key LeafEntry 0) := by
  unfold open_ at hrun
  obtain ⟨count, s₁, hcount, hrun₁⟩ := Program.bind_eq_ok.1 hrun
  cases hcount
  split at hrun₁
  rotate_left
  · rename_i hempty
    exact absurd rfl hempty
  obtain ⟨first, s₂, hfirst, hrun₂⟩ := Program.bind_eq_ok.1 hrun₁
  obtain ⟨rfl, rfl⟩ := newPage_eq_ok hfirst
  split at hrun₂
  · rename_i hzero
    exact absurd rfl hzero
  obtain ⟨leaf, s₃, hleaf, hrun₃⟩ := Program.bind_eq_ok.1 hrun₂
  obtain ⟨rfl, rfl⟩ := newPage_eq_ok hleaf
  obtain ⟨_, s₄, hwrite, hrun₄⟩ := Program.bind_eq_ok.1 hrun₃
  have hw := (writeLeaf_eq_ok hwrite).1
  obtain ⟨_, s₅, hm, hrun₅⟩ := Program.bind_eq_ok.1 hrun₄
  cases hm
  obtain ⟨hsame, -, -, hroot, hheight, hmeta⟩ := writeMeta_eq_ok hrun₅
  have hcontent : contentAt u 1 = some (.leaf ⟨[], none, none⟩) := (hsame 1 Nat.one_ne_zero).trans (hw.content 1)
  refine ⟨⟨⟨hroot, hheight⟩, trivial, ⟨hcontent, trivial⟩, fun x => ?_, ?_⟩,
    ⟨List.Pairwise.nil, fun e he => absurd he List.not_mem_nil⟩,
    fun l hl => absurd hl List.not_mem_nil, List.nodup_nil⟩
  · show 0 + (if 1 = x then 1 else 0) ≤ 1
    split <;> omega
  · rw [hmeta, hroot, hheight]

/-- **What was opened is opened again** as it is. -/
theorem open_valid (h : Valid s t) (root height : Nat) : open_ ⟨s.pages, root, height⟩ = (.ok (), s) := by
  have hmeta := h.standing.metapage
  have hpos := pages_pos hmeta
  have hroot : s.rootPageId < s.pages.length := by
    rw [h.standing.around.1]
    cases n with
    | zero   =>
      obtain ⟨p, hp⟩ := h.standing.strungRoot.content t List.mem_cons_self
      exact contentAt_lt hp
    | succ n => exact contentAt_lt h.standing.holds.1
  obtain ⟨body, hpage, hbody⟩ :
      ∃ body, s.pages[0]? = some (PageKind.btreeMeta, body) ∧ decodeMeta body = .ok ⟨s.rootPageId, s.height⟩ := by
    unfold metaAt at hmeta
    split at hmeta
    · rename_i body hp
      exact ⟨body, hp, toOption_eq_some.1 hmeta⟩
    · cases hmeta
  have hfetch : fetchPage 0 ⟨s.pages, root, height⟩ = (.ok (PageKind.btreeMeta, body), ⟨s.pages, root, height⟩) :=
    fetchPage_eq_ok.2 ⟨hpage, rfl⟩
  have hdecode : (returned (decodeMeta body) : Action MetaPage) ⟨s.pages, root, height⟩ =
      (.ok ⟨s.rootPageId, s.height⟩, ⟨s.pages, root, height⟩) :=
    returned_eq_ok.2 ⟨hbody, rfl⟩
  have hcount : (Program.read fun s => s.pages.length : Action Nat) ⟨s.pages, root, height⟩ =
      (.ok s.pages.length, ⟨s.pages, root, height⟩) := rfl
  unfold open_
  rw [Program.bind_ok hcount, if_neg (by omega), Program.bind_ok hfetch]
  dsimp only
  rw [if_neg (not_not.2 rfl), Program.bind_ok hdecode, if_neg (not_le.2 hroot)]
  rfl

/-! ## Queries of the same entries -/

/-- **The order of the entries does not matter** for a search. -/
theorem search_perm {tree tree' : BTree} (h : tree.Perm tree') (key : Key) : tree.search key = tree'.search key := by
  unfold BTree.search
  have hperm := ((h.filter fun e => e.1 = key).map Prod.snd).dedup
  have hsorted : ∀ tids : List TID,
      (tids.insertionSort fun a b => a = b ∨ a.before b).Pairwise fun a b => a = b ∨ a.before b := by
    intro tids
    refine List.pairwise_insertionSort_of (P := fun _ => True) (fun a b _ _ => ?_)
      (fun a b c _ _ _ hab hbc => ?_) tids fun _ _ => trivial
    · obtain ⟨p, q⟩ := a
      obtain ⟨p', q'⟩ := b
      simp only [TID.before, TID.mk.injEq]
      omega
    · obtain ⟨p, q⟩ := a
      obtain ⟨p', q'⟩ := b
      obtain ⟨p'', q''⟩ := c
      simp only [TID.before, TID.mk.injEq] at hab hbc ⊢
      omega
  refine List.Perm.eq_of_pairwise (fun a b _ _ hab hba => ?_) (hsorted _) (hsorted _)
    ((List.perm_insertionSort _ _).trans (hperm.trans (List.perm_insertionSort _ _).symm))
  obtain ⟨p, q⟩ := a
  obtain ⟨p', q'⟩ := b
  simp only [TID.before, TID.mk.injEq] at hab hba ⊢
  omega

theorem insert_perm {tree tree' : BTree} (h : tree.Perm tree') (key : Key) (tid : TID) :
    (tree.insert key tid).Perm (tree'.insert key tid) := by
  unfold BTree.insert
  rw [search_perm h]
  split
  · exact h
  · exact h.append_right _

theorem delete_perm {tree tree' : BTree} (h : tree.Perm tree') (key : Key) (tid : TID) :
    (tree.delete key tid).2 = (tree'.delete key tid).2 ∧ (tree.delete key tid).1.Perm (tree'.delete key tid).1 := by
  unfold BTree.delete
  by_cases hin : (key, tid) ∈ tree
  · rw [if_pos hin, if_pos (h.mem_iff.1 hin)]
    exact ⟨rfl, h.erase _⟩
  · rw [if_neg hin, if_neg fun hin' => hin (h.mem_iff.2 hin')]
    exact ⟨rfl, h⟩

/-! ## Runs -/

/-- **What calls make of an index**, with the multimap of its entries. -/
inductive Run : TreeFile → BTree → Prop
  | created {u : TreeFile} (root height : Nat) (h : open_ ⟨[], root, height⟩ = (.ok (), u)) : Run u []
  | opened {s u : TreeFile} {tree : BTree} (run : Run s tree) (root height : Nat)
    (h : open_ ⟨s.pages, root, height⟩ = (.ok (), u)) :
      Run u tree
  | inserted {s u : TreeFile} {tree : BTree} (run : Run s tree) (key : Key) (tid : TID)
      (h : TreeFile.insert key tid s = (.ok (), u)) : Run u (tree.insert key tid)
  | deleted {s u : TreeFile} {tree : BTree} (run : Run s tree) (key : Key) (tid : TID) (found : Bool)
      (h : TreeFile.delete key tid s = (.ok found, u)) : Run u (tree.delete key tid).1

/-- **Every run leaves a valid tree** of the entries of the multimap. -/
theorem Run.valid {tree : BTree} (h : Run s tree) :
    ∃ (n : Nat) (t : Subtree Key LeafEntry n), Valid s t ∧ (pairs t.leaves).Perm tree := by
  induction h with
  | created _ _ h        => exact ⟨0, _, open_new h, List.Perm.refl _⟩
  | opened _ _ _ h ih    =>
    obtain ⟨n, t, hv, hperm⟩ := ih
    rw [open_valid hv] at h
    cases h
    exact ⟨n, t, hv, hperm⟩
  | inserted _ _ _ h ih  =>
    obtain ⟨n, t, hv, hperm⟩ := ih
    obtain ⟨m, t', hv', hperm'⟩ := insert_ok hv h
    exact ⟨m, t', hv', hperm'.trans (insert_perm hperm _ _)⟩
  | deleted _ _ _ _ h ih =>
    obtain ⟨n, t, hv, hperm⟩ := ih
    obtain ⟨-, m, t', hv', hperm'⟩ := delete_ok hv h
    exact ⟨m, t', hv', hperm'.trans (delete_perm hperm _ _).2⟩

/-- **The index refines the multimap**: after every run, a search answers as that does, a range yields its entries in the order
of the keys, a deletion tells whether there was the entry, and opening the pages again changes nothing. -/
theorem index_refines {tree : BTree} (h : Run s tree) :
    (∀ key, search key s = (.ok (tree.search key), s)) ∧
    (∀ lower upper, lower ≤ upper → ∃ found, range lower upper s = (.ok found, s) ∧
      found.Perm (tree.filter fun p => decide (lower ≤ p.1 ∧ p.1 ≤ upper)) ∧ found.Pairwise fun a b => a.1 ≤ b.1) ∧
    (∀ key tid found u, delete key tid s = (.ok found, u) → found = (tree.delete key tid).2) ∧
    ∀ root height, open_ ⟨s.pages, root, height⟩ = (.ok (), s) := by
  obtain ⟨n, t, hv, hperm⟩ := h.valid
  refine ⟨fun key => ?_, fun lower upper hle => ⟨_, range_ok hv hle, hperm.filter _, ?_⟩, fun key tid found u hrun => ?_,
    fun root height => open_valid hv root height⟩
  · rw [search_ok hv, search_perm hperm]
  · exact List.Pairwise.filter _ (List.pairwise_map.2 hv.bounded.sorted)
  · exact (delete_ok hv hrun).1.trans (delete_perm hperm key tid).1

/-! ## A split and a merge -/

/-- Two keys that fill a leaf. -/
def wideKeys : Key × Key := (2 :: List.replicate 3999 0, 3 :: List.replicate 4089 0)

def leftBy {α : Type} (call : Action α) (s : TreeFile) : TreeFile := (call s).2

def newIndex : TreeFile := leftBy open_ ⟨[], 0, 0⟩
def oneEntry : TreeFile := leftBy (TreeFile.insert [1] ⟨2, 1⟩) newIndex
def twoEntries : TreeFile := leftBy (TreeFile.insert wideKeys.1 ⟨2, 2⟩) oneEntry

/-- The leaf has no room for a third entry. -/
def splitLeaves : TreeFile := leftBy (TreeFile.insert wideKeys.2 ⟨2, 3⟩) twoEntries

/-- Without the first entry there is room for the other two. -/
def mergedLeaves : TreeFile := leftBy (TreeFile.delete [1] ⟨2, 1⟩) splitLeaves

theorem returned_of_isSome {α : Type} {call : Action α} {s : TreeFile} (h : (call s).1.toOption.isSome = true) :
    ∃ x, call s = (.ok x, leftBy call s) := by
  cases hr : (call s).1 with
  | ok x    => exact ⟨x, Prod.ext hr rfl⟩
  | error e =>
    rw [hr] at h
    cases h

theorem mergedLeaves_made :
    (TreeFile.insert [1] ⟨2, 1⟩ newIndex).1.toOption.isSome ∧ (TreeFile.insert wideKeys.1 ⟨2, 2⟩ oneEntry).1.toOption.isSome ∧
    (TreeFile.insert wideKeys.2 ⟨2, 3⟩ twoEntries).1.toOption.isSome ∧
      (TreeFile.delete [1] ⟨2, 1⟩ splitLeaves).1.toOption.isSome ∧
    splitLeaves.height = 2 ∧ mergedLeaves.height = 1 := by
  decide +kernel

theorem entries_left {a b c : Key} (hab : a ≠ b) (hac : a ≠ c) (hbc : b ≠ c) :
    ((((BTree.insert [] a ⟨2, 1⟩).insert b ⟨2, 2⟩).insert c ⟨2, 3⟩).delete a ⟨2, 1⟩).1 = [(b, ⟨2, 2⟩), (c, ⟨2, 3⟩)] := by
  simp [BTree.insert, BTree.search, BTree.delete, hab, hac, hbc]

theorem wideKeys_distinct : [1] ≠ wideKeys.1 ∧ [1] ≠ wideKeys.2 ∧ wideKeys.1 ≠ wideKeys.2 :=
  ⟨fun h => absurd (List.head_eq_of_cons_eq h) (by decide), fun h => absurd (List.head_eq_of_cons_eq h) (by decide),
    fun h => absurd (List.head_eq_of_cons_eq h) (by decide)⟩

theorem run_mergedLeaves : Run mergedLeaves [(wideKeys.1, ⟨2, 2⟩), (wideKeys.2, ⟨2, 3⟩)] := by
  obtain ⟨hone, htwo, hsplit, hmerged, -⟩ := mergedLeaves_made
  obtain ⟨_, hone⟩ := returned_of_isSome hone
  obtain ⟨_, htwo⟩ := returned_of_isSome htwo
  obtain ⟨_, hsplit⟩ := returned_of_isSome hsplit
  obtain ⟨found, hmerged⟩ := returned_of_isSome hmerged
  have hnew : Run newIndex [] := .created 0 0 rfl
  have hrun := Run.deleted (.inserted (.inserted (.inserted hnew [1] ⟨2, 1⟩ hone) wideKeys.1
    ⟨2, 2⟩ htwo) wideKeys.2 ⟨2, 3⟩ hsplit)
    [1] ⟨2, 1⟩ found hmerged
  obtain ⟨hfirst, hsecond, hne⟩ := wideKeys_distinct
  rw [entries_left hfirst hsecond hne] at hrun
  exact hrun

/-- The tree grew by the split and shrank by the merge, and the entries that are left are found. -/
theorem index_refines_merged :
    splitLeaves.height = 2 ∧ mergedLeaves.height = 1 ∧ search wideKeys.2 mergedLeaves = (.ok [⟨2, 3⟩], mergedLeaves) ∧
    (∃ found, range wideKeys.1 wideKeys.2 mergedLeaves = (.ok found, mergedLeaves) ∧ found.length = 2) ∧
    open_ ⟨mergedLeaves.pages, 0, 0⟩ = (.ok (), mergedLeaves) := by
  have hrun := run_mergedLeaves
  have hne := wideKeys_distinct.2.2
  have hheights := mergedLeaves_made.2.2.2.2
  have hle : wideKeys.1 ≤ wideKeys.2 := by decide +kernel
  refine ⟨hheights.1, hheights.2, ?_⟩
  generalize mergedLeaves = s at hrun ⊢
  generalize wideKeys.1 = a at hrun hne hle ⊢
  generalize wideKeys.2 = b at hrun hne hle ⊢
  obtain ⟨hsearch, hrange, -, hopen⟩ := index_refines hrun
  obtain ⟨found, hfound, hperm, -⟩ := hrange a b hle
  refine ⟨?_, ⟨found, hfound, ?_⟩, hopen 0 0⟩
  · rw [hsearch]
    simp [BTree.search, hne]
  · rw [hperm.length_eq]
    simp [hle]

end TreeFile
end MiniPostgres
