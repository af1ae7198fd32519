import MiniPostgres.Heap
/-!
# HeapSpec — what each heap function does to the stored versions

The functions of `Heap.lean` as updates of the map `physicalVersion`: an insert writes one dead slot, a version write
rewrites one live slot, a reclamation clears one.  The proofs above this module use these lemmas and never open a page.
-/
namespace MiniPostgres
namespace HeapPage

theorem read_placed (slots : Slots) (i : Nat) (v : TupleVersion) (hi : i ≤ slots.length) (s : Nat) :
    ((placed slots i v)[s]?).join = if s = i then some v else (slots[s]?).join := by
  unfold placed
  split
  · rename_i h
    by_cases hs : s = i
    · subst hs; simp [h]
    · rw [List.getElem?_set_ne (fun h' => hs h'.symm), if_neg hs]
  · rename_i h
    obtain rfl : i = slots.length := by omega
    by_cases hs : s = slots.length
    · subst hs; simp
    · rw [if_neg hs]
      by_cases hlt : s < slots.length
      · rw [List.getElem?_append_left hlt]
      · rw [List.getElem?_eq_none (by simp; omega), List.getElem?_eq_none (by omega)]

theorem insert_eq_some {p p' : HeapPage} {v : TupleVersion} {slot : Nat} (h : p.insert v = some (p', slot)) :
    p.read slot = none ∧ ∀ s, p'.read s = if s = slot then some v else p.read s := by
  unfold insert at h
  split at h
  · cases h
    exact ⟨p.insertSlot_dead, fun s => read_placed _ _ _ List.findIdx_le_length s⟩
  · cases h

theorem lt_of_read {p : HeapPage} {slot : Nat} {v : TupleVersion} (h : p.read slot = some v) : slot < p.slots.length := by
  by_contra hlt
  rw [read, List.getElem?_eq_none (by omega)] at h
  cases h

theorem read_set {slots : Slots} {i : Nat} (hi : i < slots.length) (x : Option TupleVersion) (s : Nat) :
    ((slots.set i x)[s]?).join = if s = i then x else (slots[s]?).join := by
  by_cases hs : s = i
  · subst hs; simp [hi]
  · rw [List.getElem?_set_ne (fun h' => hs h'.symm), if_neg hs]

theorem replace_eq_ok {p p' : HeapPage} {slot : Nat} {v : TupleVersion} (h : p.replace slot v = .ok p') :
    p.read slot ≠ none ∧ ∀ s, p'.read s = if s = slot then some v else p.read s := by
  unfold replace at h
  split at h
  · exact absurd h raise_ne_ok
  · rename_i old hold
    split at h
    · cases h
      exact ⟨by rw [hold]; simp, fun s => read_set (lt_of_read hold) _ s⟩
    · exact absurd h raise_ne_ok

theorem replace_ok {p : HeapPage} {slot : Nat} {old v : TupleVersion} (hold : p.read slot = some old)
    (hsize : tupleSize v.values = tupleSize old.values) : ∃ p', p.replace slot v = .ok p' := by
  have hlt := lt_of_read hold
  have hset := liveBytes_set p.slots slot (some v) hlt
  have hf := p.fits
  rw [read] at hold
  rw [hold] at hset
  simp only [slotBytes] at hset
  have hfits : slottedHeaderSize + (p.slots.set slot (some v)).length * slotEntrySize +
      liveBytes (p.slots.set slot (some v)) ≤ pageBodySize := by
    rw [List.length_set]; omega
  refine ⟨⟨_, hfits⟩, ?_⟩
  unfold replace
  rw [read, hold]
  simp only [dif_pos hfits]

theorem delete_eq_some {p p' : HeapPage} {slot : Nat} {v : TupleVersion} (h : p.delete slot = some (p', v)) :
    p.read slot = some v ∧ ∀ s, p'.read s = if s = slot then none else p.read s := by
  unfold delete at h
  split at h
  · cases h
  · rename_i old hold
    cases h
    exact ⟨hold, fun s => read_set (lt_of_read hold) _ s⟩

theorem delete_eq_none {p : HeapPage} {slot : Nat} : p.delete slot = none ↔ p.read slot = none := by
  unfold delete
  split
  · rename_i h; simp [h]
  · rename_i h; simp [h]

end HeapPage

namespace HeapTable

/-! ## Pages and versions -/

theorem physicalVersion_of_page {t : HeapTable} {page : HeapPage} {p : Nat} (h : t.pages[p]? = some page) (slot : Nat) :
    t.physicalVersion ⟨p, slot⟩ = page.read slot := by
  simp [physicalVersion, h]

/-- One page changes in one slot, so the version map changes at one TID. -/
theorem physicalVersion_publish {t : HeapTable} {page page' : HeapPage} {p slot : Nat} {x : Option TupleVersion}
    (hp : t.pages[p]? = some page) (hr : ∀ s, page'.read s = if s = slot then x else page.read s) :
    (t.publish p page').physicalVersion = Function.update t.physicalVersion ⟨p, slot⟩ x := by
  have hlt : p < t.pages.length := by
    by_contra h
    rw [List.getElem?_eq_none (by omega)] at hp; cases hp
  funext tid
  obtain ⟨q, s⟩ := tid
  by_cases hq : q = p
  · subst hq
    have hget : (t.publish q page').pages[q]? = some page' := by simp [publish, hlt]
    rw [physicalVersion_of_page hget, hr]
    by_cases hs : s = slot
    · subst hs; simp
    · rw [if_neg hs, Function.update_of_ne (by simp [hs]), physicalVersion_of_page hp]
  · rw [Function.update_of_ne (by simp [hq])]
    simp only [physicalVersion, publish]
    rw [List.getElem?_set_ne (fun h => hq h.symm)]

/-! ## Insertion -/

/-- **What an insertion of `v` at `tid` did**: a dead slot now holds it, one page was published. -/
structure Inserted (t t' : HeapTable) (tid : TID) (v : TupleVersion) : Prop where
  fresh    : t.physicalVersion tid = none
  versions : t'.physicalVersion = Function.update t.physicalVersion tid (some v)
  schema   : t'.schema = t.schema
  pages    : ∃ page, t'.pages[tid.pageId]? = some page ∧
    (t'.pages = t.pages.set tid.pageId page ∨ (tid.pageId = t.pages.length ∧ t'.pages = t.pages ++ [page]))

/-- The version passes the checks of the tuple codec. -/
def Encodes (schema : Schema) (v : TupleVersion) : Prop := ∃ n, encodeVersion schema v = .ok n

theorem Inserted.ne {t t' : HeapTable} {tid c : TID} {v : TupleVersion} (h : Inserted t t' tid v)
    (hc : t.physicalVersion c ≠ none) : c ≠ tid := by
  rintro rfl
  exact hc h.fresh

theorem Inserted.keeps {t t' : HeapTable} {tid c : TID} {v : TupleVersion} (h : Inserted t t' tid v)
    (hc : t.physicalVersion c ≠ none) : t'.physicalVersion c = t.physicalVersion c := by
  rw [h.versions, Function.update_of_ne (h.ne hc)]

theorem Inserted.get {t t' : HeapTable} {tid : TID} {v : TupleVersion} (h : Inserted t t' tid v) :
    t'.physicalVersion tid = some v := by
  rw [h.versions, Function.update_self]

/-- Only the free-space map changed. -/
def SamePages (t t' : HeapTable) : Prop := t'.pages = t.pages ∧ t'.schema = t.schema

theorem SamePages.physicalVersion {t t' : HeapTable} (h : SamePages t t') : t'.physicalVersion = t.physicalVersion := by
  funext tid
  simp only [HeapTable.physicalVersion, h.1]

theorem Inserted.of_samePages {t t₁ t' : HeapTable} {tid : TID} {v : TupleVersion} (h : SamePages t t₁)
    (hi : Inserted t₁ t' tid v) : Inserted t t' tid v := by
  refine ⟨?_, ?_, hi.schema.trans h.2, ?_⟩
  · rw [← h.physicalVersion]; exact hi.fresh
  · rw [hi.versions, h.physicalVersion]
  · rw [← h.1]; exact hi.pages

theorem tryInsert_eq_ok {t t' : HeapTable} {p : Nat} {v : TupleVersion} {r : Option TID}
    (h : t.tryInsert p v = .ok (t', r)) : (r = none ∧ SamePages t t') ∨ ∃ tid, r = some tid ∧ Inserted t t' tid v := by
  unfold tryInsert at h
  split at h
  · exact absurd h raise_ne_ok
  · rename_i page hp
    split at h
    · cases h; exact Or.inl ⟨rfl, rfl, rfl⟩
    · rename_i page' slot hins
      cases h
      obtain ⟨hdead, hread⟩ := HeapPage.insert_eq_some hins
      have hlt : p < t.pages.length := by
        by_contra hge
        rw [List.getElem?_eq_none (by omega)] at hp; cases hp
      refine Or.inr ⟨⟨p, slot⟩, rfl, ?_, physicalVersion_publish hp hread, rfl, page', ?_, Or.inl rfl⟩
      · rw [physicalVersion_of_page hp]; exact hdead
      · simp [publish, hlt]

theorem tryPages_eq_ok {v : TupleVersion} : ∀ (pages : List Nat) {t t' : HeapTable} {r : Option TID},
    t.tryPages v pages = .ok (t', r) → (r = none ∧ SamePages t t') ∨ ∃ tid, r = some tid ∧ Inserted t t' tid v
  | [], t, t', r, h => by cases h; exact Or.inl ⟨rfl, rfl, rfl⟩
  | p :: pages, t, t', r, h => by
    obtain ⟨⟨t₁, r₁⟩, h₁, h⟩ := bind_eq_ok.1 h
    rcases tryInsert_eq_ok h₁ with ⟨rfl, hs⟩ | ⟨tid, rfl, hi⟩
    · rcases tryPages_eq_ok pages h with ⟨rfl, hs'⟩ | ⟨tid, rfl, hi⟩
      · exact Or.inl ⟨rfl, hs'.1.trans hs.1, hs'.2.trans hs.2⟩
      · exact Or.inr ⟨tid, rfl, hi.of_samePages hs⟩
    · cases h; exact Or.inr ⟨tid, rfl, hi⟩

theorem insertNewPage_eq_ok {t t' : HeapTable} {v : TupleVersion} {tid : TID}
    (h : t.insertNewPage v = .ok (t', tid)) : Inserted t t' tid v := by
  unfold insertNewPage at h
  split at h
  · exact absurd h raise_ne_ok
  · rename_i page slot hins
    cases h
    obtain ⟨hdead, hread⟩ := HeapPage.insert_eq_some hins
    have hp : (t.pages ++ [HeapPage.empty])[t.pages.length]? = some HeapPage.empty := by simp
    have hsame : HeapTable.physicalVersion { t with pages := t.pages ++ [HeapPage.empty] } = t.physicalVersion := by
      funext ⟨q, s⟩
      simp only [physicalVersion]
      by_cases hq : q < t.pages.length
      · rw [List.getElem?_append_left hq]
      · rw [List.getElem?_eq_none (l := t.pages) (by omega)]
        by_cases hq' : q = t.pages.length
        · subst hq'; simp [HeapPage.read, HeapPage.empty]
        · rw [List.getElem?_eq_none (by simp; omega)]
    refine ⟨?_, ?_, rfl, page, ?_, Or.inr ⟨rfl, ?_⟩⟩
    · simp [physicalVersion]
    · rw [physicalVersion_publish hp hread, hsame]
    · simp [publish]
    · simp [publish]

theorem insertVersion_eq_ok {t t' : HeapTable} {xid : Nat} {values : Values} {pref : Option Nat} {tid : TID}
    (h : t.insertVersion xid values pref = .ok (t', tid)) :
    Inserted t t' tid ⟨xid, 0, none, values⟩ ∧ Encodes t.schema ⟨xid, 0, none, values⟩ := by
  obtain ⟨validated, hval, hrest⟩ := bind_eq_ok.1 h
  rw [Schema.validateRow_eq hval] at hrest
  obtain ⟨size, hsize, h⟩ := bind_eq_ok.1 hrest
  refine ⟨?_, size, hsize⟩
  obtain ⟨⟨t₁, r₁⟩, h₁, h⟩ := bind_eq_ok.1 h
  rcases tryPages_eq_ok _ h₁ with ⟨rfl, hs₁⟩ | ⟨tid₁, rfl, hi⟩
  · obtain ⟨⟨t₂, r₂⟩, h₂, h⟩ := bind_eq_ok.1 h
    rcases tryPages_eq_ok _ h₂ with ⟨rfl, hs₂⟩ | ⟨tid₂, rfl, hi⟩
    · exact ((insertNewPage_eq_ok h).of_samePages hs₂).of_samePages hs₁
    · cases h; exact hi.of_samePages hs₁
  · cases h; exact hi

/-! ## Version writes -/

/-- **What a rewrite of the version at `tid` did.** -/
structure Rewritten (t t' : HeapTable) (tid : TID) (x : Option TupleVersion) : Prop where
  live     : t.physicalVersion tid ≠ none
  versions : t'.physicalVersion = Function.update t.physicalVersion tid x
  schema   : t'.schema = t.schema
  pages    : ∃ page, t'.pages[tid.pageId]? = some page ∧ t'.pages = t.pages.set tid.pageId page

theorem Rewritten.stays {t t' : HeapTable} {tid c : TID} {v : TupleVersion} (h : Rewritten t t' tid (some v))
    (hc : t.physicalVersion c ≠ none) : t'.physicalVersion c ≠ none := by
  rw [h.versions]
  by_cases hct : c = tid
  · subst hct; simp
  · rw [Function.update_of_ne hct]; exact hc

theorem setVersion_eq_ok {t t' : HeapTable} {tid : TID} {v : TupleVersion} (h : t.setVersion tid v = .ok t') :
    Rewritten t t' tid (some v) ∧ Encodes t.schema v := by
  unfold setVersion at h
  split at h
  · exact absurd h raise_ne_ok
  · rename_i page hp
    obtain ⟨n, hn, h⟩ := bind_eq_ok.1 h
    refine ⟨?_, n, hn⟩
    obtain ⟨page', hrep, he⟩ := bind_eq_ok.1 h
    cases he
    obtain ⟨hlive, hread⟩ := HeapPage.replace_eq_ok hrep
    have hlt : tid.pageId < t.pages.length := by
      by_contra hge
      rw [List.getElem?_eq_none (by omega)] at hp; cases hp
    refine ⟨?_, physicalVersion_publish hp hread, rfl, page', by simp [publish, hlt], rfl⟩
    rw [show tid = ⟨tid.pageId, tid.slotId⟩ from rfl, physicalVersion_of_page hp]
    exact hlive

theorem setVersion_ok {t : HeapTable} {tid : TID} {old v : TupleVersion} (hold : t.physicalVersion tid = some old)
    (hv : v.values = old.values) (he : Encodes t.schema v) : ∃ t', t.setVersion tid v = .ok t' := by
  obtain ⟨n, hn⟩ := he
  unfold physicalVersion at hold
  obtain ⟨page, hp, hr⟩ := Option.bind_eq_some_iff.1 hold
  obtain ⟨page', hrep⟩ := HeapPage.replace_ok hr (v := v) (by rw [hv])
  exact ⟨t.publish tid.pageId page', by simp only [setVersion, hp, hn, hrep, bind, Except.bind]⟩

/-- **Every outcome of `replace_version`**: refused, or a fresh slot holds the replacement and the old version names it. -/
theorem replaceVersion_eq_ok {t t' : HeapTable} {tid : TID} {xid : Nat} {st : StatusTable} {values : Values}
    {r : Option TID} (h : t.replaceVersion tid xid st values = .ok (t', r)) :
    (r = none ∧ t' = t) ∨ ∃ old new, r = some new ∧ t.physicalVersion tid = some old ∧ writable old st = true ∧
      ∃ t₁, (Inserted t t₁ new ⟨xid, 0, none, values⟩ ∧ Encodes t.schema ⟨xid, 0, none, values⟩) ∧
        Rewritten t₁ t' tid (some ⟨old.xmin, xid, some new, old.values⟩) ∧
          Encodes t₁.schema ⟨old.xmin, xid, some new, old.values⟩ := by
  unfold replaceVersion at h
  split at h
  · cases h; exact Or.inl ⟨rfl, rfl⟩
  · rename_i old hold
    split at h
    · rename_i hw
      obtain ⟨⟨t₁, new⟩, hins, h⟩ := bind_eq_ok.1 h
      obtain ⟨t₂, hset, he⟩ := bind_eq_ok.1 h
      cases he
      exact Or.inr ⟨old, new, rfl, hold, hw, t₁, insertVersion_eq_ok hins, setVersion_eq_ok hset⟩
    · cases h; exact Or.inl ⟨rfl, rfl⟩

/-- **Every outcome of `delete_version`**: refused, or the version names its deleter. -/
theorem deleteVersion_eq_ok {t t' : HeapTable} {tid : TID} {xid : Nat} {st : StatusTable} {b : Bool}
    (h : t.deleteVersion tid xid st = .ok (t', b)) :
    (b = false ∧ t' = t) ∨ ∃ old, b = true ∧ t.physicalVersion tid = some old ∧ writable old st = true ∧
      Rewritten t t' tid (some ⟨old.xmin, xid, old.nextTid, old.values⟩) ∧
        Encodes t.schema ⟨old.xmin, xid, old.nextTid, old.values⟩ := by
  unfold deleteVersion at h
  split at h
  · cases h; exact Or.inl ⟨rfl, rfl⟩
  · rename_i old hold
    split at h
    · rename_i hw
      obtain ⟨t₂, hset, he⟩ := bind_eq_ok.1 h
      cases he
      exact Or.inr ⟨old, rfl, hold, hw, setVersion_eq_ok hset⟩
    · cases h; exact Or.inl ⟨rfl, rfl⟩

/-- **A reclaimed slot is dead, and every other slot is as it was.** -/
theorem reclaimVersion_versions (t : HeapTable) (tid : TID) :
    (t.reclaimVersion tid).1.physicalVersion = Function.update t.physicalVersion tid none ∧
      (t.reclaimVersion tid).1.schema = t.schema := by
  unfold reclaimVersion
  cases hp : t.pages[tid.pageId]? with
  | none =>
    refine ⟨(Function.update_eq_self_iff.2 ?_).symm, rfl⟩
    simp [physicalVersion, hp]
  | some page =>
    cases hd : page.delete tid.slotId with
    | none =>
      simp only [Option.bind_some, hd]
      refine ⟨(Function.update_eq_self_iff.2 ?_).symm, trivial⟩
      rw [show tid = ⟨tid.pageId, tid.slotId⟩ from rfl, physicalVersion_of_page hp]
      exact (HeapPage.delete_eq_none.1 hd).symm
    | some q =>
      obtain ⟨page', old⟩ := q
      simp only [Option.bind_some, hd]
      exact ⟨physicalVersion_publish hp (HeapPage.delete_eq_some hd).2, rfl⟩

/-! ## The scan -/

theorem mem_pageVersions {p : Nat} {page : HeapPage} {tid : TID} {v : TupleVersion} :
    (tid, v) ∈ pageVersions p page ↔ tid.pageId = p ∧ page.read tid.slotId = some v := by
  simp only [pageVersions, List.mem_filterMap, Prod.exists, Option.map_eq_some_iff]
  constructor
  · rintro ⟨o, s, hmem, w, rfl, heq⟩
    have hget := List.mk_mem_zipIdx_iff_getElem?.1 hmem
    cases heq
    exact ⟨rfl, by simp [HeapPage.read, hget]⟩
  · rintro ⟨rfl, hr⟩
    refine ⟨some v, tid.slotId, List.mk_mem_zipIdx_iff_getElem?.2 ?_, v, rfl, rfl⟩
    simpa [HeapPage.read, Option.join_eq_some_iff] using hr

/-- **The scan lists exactly the stored versions.** -/
theorem mem_scanVersions {t : HeapTable} {tid : TID} {v : TupleVersion} :
    (tid, v) ∈ t.scanVersions ↔ t.physicalVersion tid = some v := by
  simp only [scanVersions, List.mem_flatMap, Prod.exists, mem_pageVersions, physicalVersion, Option.bind_eq_some_iff]
  constructor
  · rintro ⟨page, p, hmem, rfl, hr⟩
    exact ⟨page, List.mk_mem_zipIdx_iff_getElem?.1 hmem, hr⟩
  · rintro ⟨page, hp, hr⟩
    exact ⟨page, tid.pageId, List.mk_mem_zipIdx_iff_getElem?.2 hp, rfl, hr⟩

theorem pageVersions_sorted (p : Nat) (page : HeapPage) :
    (pageVersions p page).Pairwise (fun a b => a.1.slotId < b.1.slotId) := by
  have hs : ∀ (l : Slots) (k : Nat),
      ((l.zipIdx k).filterMap (fun s => s.1.map (fun v => ((⟨p, s.2⟩ : TID), v)))).Pairwise
        (fun a b => a.1.slotId < b.1.slotId) := by
    intro l
    induction l with
    | nil => intro k; simp
    | cons o l ih =>
      intro k
      have hge : ∀ x ∈ (l.zipIdx (k + 1)).filterMap (fun s => s.1.map (fun v => ((⟨p, s.2⟩ : TID), v))),
          k < x.1.slotId := by
        intro x hx
        obtain ⟨⟨o', j⟩, hmem, hj⟩ := List.mem_filterMap.1 hx
        obtain ⟨v, -, rfl⟩ := Option.map_eq_some_iff.1 hj
        have := List.le_snd_of_mem_zipIdx hmem
        simp only at this ⊢; omega
      cases o with
      | none => simpa [List.zipIdx_cons] using ih (k + 1)
      | some v =>
        simp only [List.zipIdx_cons, List.filterMap_cons, Option.map_some, List.pairwise_cons]
        exact ⟨hge, ih (k + 1)⟩
  exact hs page.slots 0

/-- **The scan is in page order, then slot order.** -/
theorem scanVersions_sorted (t : HeapTable) : t.scanVersions.Pairwise (fun a b => a.1.before b.1) := by
  have hs : ∀ (l : List HeapPage) (k : Nat),
      ((l.zipIdx k).flatMap (fun p => pageVersions p.2 p.1)).Pairwise (fun a b => a.1.before b.1) ∧
        ∀ x ∈ (l.zipIdx k).flatMap (fun p => pageVersions p.2 p.1), k ≤ x.1.pageId := by
    intro l
    induction l with
    | nil => intro k; simp
    | cons page l ih =>
      intro k
      obtain ⟨ih₁, ih₂⟩ := ih (k + 1)
      simp only [List.zipIdx_cons, List.flatMap_cons]
      refine ⟨List.pairwise_append.2 ⟨?_, ih₁, ?_⟩, ?_⟩
      · refine List.Pairwise.imp_of_mem ?_ (pageVersions_sorted k page)
        intro a b ha hb hlt
        exact Or.inr ⟨(mem_pageVersions.1 ha).1.trans (mem_pageVersions.1 hb).1.symm, hlt⟩
      · intro a ha b hb
        have h1 := (mem_pageVersions.1 ha).1
        have h2 := ih₂ b hb
        exact Or.inl (by omega)
      · intro x hx
        rcases List.mem_append.1 hx with hx | hx
        · rw [(mem_pageVersions.1 hx).1]
        · have := ih₂ x hx; omega
  exact (hs t.pages 0).1

theorem scanVersions_nodup (t : HeapTable) : (t.scanVersions.map Prod.fst).Nodup := by
  rw [List.Nodup, List.pairwise_map]
  refine t.scanVersions_sorted.imp (fun {a b} h heq => ?_)
  rw [heq] at h
  rcases h with h | ⟨-, h⟩ <;> exact Nat.lt_irrefl _ h

theorem mem_continuations {t : HeapTable} {tid : TID} :
    tid ∈ t.continuations ↔ ∃ a v, t.physicalVersion a = some v ∧ v.nextTid = some tid := by
  simp only [continuations, List.mem_filterMap, Prod.exists, mem_scanVersions]

theorem mem_roots {t : HeapTable} {tid : TID} :
    tid ∈ t.roots ↔ (∃ v, t.physicalVersion tid = some v) ∧
      ∀ a v, t.physicalVersion a = some v → v.nextTid ≠ some tid := by
  simp only [roots, List.mem_filter, List.mem_map, Prod.exists, mem_scanVersions, decide_eq_true_eq, mem_continuations]
  constructor
  · rintro ⟨⟨a, v, hv, rfl⟩, hn⟩
    exact ⟨⟨v, hv⟩, fun b w hw hnext => hn ⟨b, w, hw, hnext⟩⟩
  · rintro ⟨⟨v, hv⟩, hn⟩
    exact ⟨⟨tid, v, hv, rfl⟩, fun ⟨b, w, hw, hnext⟩ => hn b w hw hnext⟩

theorem roots_nodup (t : HeapTable) : t.roots.Nodup := t.scanVersions_nodup.filter _

/-! ## What a chain resolves to -/

theorem lastOf_eq_some {t : HeapTable} {tid a : TID} {passes : TupleVersion → Bool} {chain : List (TID × TupleVersion)}
    {values : Values} (hc : t.chainFrom tid = .ok chain) (h : lastOf passes chain = some (a, values)) :
    ∃ v, t.physicalVersion a = some v ∧ passes v = true ∧ v.values = values := by
  simp only [lastOf, Option.map_eq_some_iff] at h
  obtain ⟨⟨a', v⟩, hlast, heq⟩ := h
  cases heq
  obtain ⟨hmem, hp⟩ := List.mem_filter.1 (List.mem_of_getLast? hlast)
  refine ⟨v, ?_, hp, rfl⟩
  unfold chainFrom at hc
  split at hc
  · rename_i l hl
    cases hc
    exact Linked.look_of_mem_walk _ _ _ hl _ hmem
  · exact absurd hc raise_ne_ok

/-- **A globally live version is stored, with a committed or own creator and no committed or own deleter.** -/
theorem resolveGloballyLive_eq_some {t : HeapTable} {tid a : TID} {x : Nat} {st : StatusTable} {values : Values}
    (h : t.resolveGloballyLive tid x st = .ok (some (a, values))) :
    ∃ v, t.physicalVersion a = some v ∧ globallyLive v x st = true ∧ v.values = values := by
  obtain ⟨root, -, h⟩ := bind_eq_ok.1 h
  obtain ⟨chain, hc, h⟩ := bind_eq_ok.1 h
  rw [Except.ok.injEq] at h
  exact lastOf_eq_some hc h

end HeapTable
end MiniPostgres
