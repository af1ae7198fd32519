import MiniPostgres.VersionWrites
/-!
# Growth — a page is allocated only when none has room

The free-space map keeps one rounded byte a page.  `Accurate`: every page has its entry, and the entry is the category of the
bytes that are free on it.  A category rounds up and the query rounds the same way, so a page that is not offered is too small
for the tuple itself, and a page that is offered is tried.
-/
namespace MiniPostgres

/-! ## Categories -/

namespace FreeSpaceMap

/-- **More bytes have no lower category.** -/
theorem category_mono {a b : Nat} (h : a ≤ b) : category a ≤ category b := by
  unfold category
  by_cases ha : a = 0
  · rw [if_pos ha]
    exact Nat.zero_le _
  · rw [if_neg ha, if_neg (by omega)]
    have hdiv : (a * 255 + pageBodySize - 1) / pageBodySize ≤ (b * 255 + pageBodySize - 1) / pageBodySize :=
      Nat.div_le_div_right (by omega)
    exact min_le_min_left 255 hdiv

def categories (pages : List HeapPage) : FreeSpaceMap := pages.map (fun p => category p.availableFreeBytes)

theorem record_length (m : FreeSpaceMap) (freeBytes : Nat) : m.record m.length freeBytes = m ++ [category freeBytes] := by
  unfold record
  rw [show m.length + 1 - m.length = 1 by omega, List.set_append_right _ _ (le_refl _), Nat.sub_self]
  rfl

theorem record_lt {m : FreeSpaceMap} {pageId : Nat} (h : pageId < m.length) (freeBytes : Nat) :
    m.record pageId freeBytes = m.set pageId (category freeBytes) := by
  unfold record
  rw [show pageId + 1 - m.length = 0 by omega, List.replicate_zero, List.append_nil]

/-- **The pages that are offered**: those whose category is high enough. -/
theorem mem_candidatePages {m : FreeSpaceMap} {requiredBytes pageId : Nat} :
    pageId ∈ m.candidatePages requiredBytes ↔
      requiredBytes ≤ pageBodySize ∧ ∃ c, m[pageId]? = some c ∧ category requiredBytes ≤ c := by
  unfold candidatePages
  by_cases h : requiredBytes > pageBodySize
  · rw [if_pos h]
    exact ⟨fun hm => absurd hm List.not_mem_nil, fun hm => absurd hm.1 (not_le.2 h)⟩
  · rw [if_neg h]
    constructor
    · intro hm
      obtain ⟨⟨c, i⟩, hp, rfl⟩ := List.mem_map.1 hm
      rw [List.mem_insertionSort, List.mem_filter, List.mem_zipIdx_iff_getElem?] at hp
      exact ⟨not_lt.1 h, c, hp.1, of_decide_eq_true hp.2⟩
    · rintro ⟨-, c, hc, hle⟩
      refine List.mem_map.2 ⟨(c, pageId), ?_, rfl⟩
      rw [List.mem_insertionSort, List.mem_filter, List.mem_zipIdx_iff_getElem?]
      exact ⟨hc, decide_eq_true hle⟩

end FreeSpaceMap

open FreeSpaceMap (category category_mono categories mem_candidatePages record_length record_lt)

/-! ## Pages without room -/

namespace HeapPage

/-- The page has no room for a tuple of that length: a dead slot is reused, else the directory grows by an entry. -/
def Lacks (p : HeapPage) (size : Nat) : Prop :=
  if none ∈ p.slots then p.availableFreeBytes < size else p.availableFreeBytes < size + slotEntrySize

instance (p : HeapPage) (size : Nat) : Decidable (p.Lacks size) := by unfold Lacks; infer_instance

theorem insertSlot_lt_iff (p : HeapPage) : p.insertSlot < p.slots.length ↔ none ∈ p.slots := by
  unfold insertSlot
  rw [List.findIdx_lt_length]
  constructor
  · rintro ⟨x, hx, hn⟩
    rwa [Option.isNone_iff_eq_none.1 hn] at hx
  · exact fun h => ⟨none, h, rfl⟩

theorem lacks_iff (p : HeapPage) (size : Nat) : p.Lacks size ↔ p.availableFreeBytes < size + p.directoryGrowth := by
  unfold Lacks directoryGrowth
  by_cases h : none ∈ p.slots
  · rw [if_pos h, if_pos (p.insertSlot_lt_iff.2 h), Nat.add_zero]
  · rw [if_neg h, if_neg (fun hlt => h (p.insertSlot_lt_iff.1 hlt))]

/-- **An insert is refused exactly by a page without room.** -/
theorem insert_eq_none_iff (p : HeapPage) (v : TupleVersion) : p.insert v = none ↔ p.Lacks (tupleSize v.values) := by
  rw [lacks_iff, ← not_le]
  unfold insert
  split
  · rename_i hfit
    exact ⟨fun h => absurd h (Option.some_ne_none _), fun hn => absurd hfit hn⟩
  · rename_i hfit
    exact ⟨fun _ => hfit, fun _ => rfl⟩

theorem lacks_of_lt {p : HeapPage} {size : Nat} (h : p.availableFreeBytes < size) : p.Lacks size := by
  unfold Lacks
  split
  · exact h
  · omega

end HeapPage

namespace HeapTable

/-! ## The map is accurate -/

/-- **The map has the category of every page**, and no other entry. -/
def Accurate (t : HeapTable) : Prop := t.freeSpace = categories t.pages

theorem Accurate.length {t : HeapTable} (h : t.Accurate) : t.freeSpace.length = t.pages.length := by
  rw [show t.freeSpace = categories t.pages from h]
  exact List.length_map _

theorem Accurate.entry {t : HeapTable} (h : t.Accurate) {pageId : Nat} {page : HeapPage} (hp : t.pages[pageId]? = some page) :
    t.freeSpace[pageId]? = some (category page.availableFreeBytes) := by
  rw [show t.freeSpace = categories t.pages from h, categories, List.getElem?_map, hp]
  rfl

theorem Accurate.record {t : HeapTable} (h : t.Accurate) {pageId : Nat} {page : HeapPage} (hp : t.pages[pageId]? = some page) :
    t.freeSpace.record pageId page.availableFreeBytes = t.freeSpace := by
  obtain ⟨hlt, hget⟩ := List.getElem?_eq_some_iff.1 (h.entry hp)
  rw [record_lt hlt, ← hget]
  exact List.set_getElem_self hlt

theorem Accurate.publish {t : HeapTable} (h : t.Accurate) {pageId : Nat} (hlt : pageId < t.pages.length) (page : HeapPage) :
    (t.publish pageId page).Accurate := by
  unfold Accurate HeapTable.publish
  simp only
  rw [record_lt (by rw [h.length]; exact hlt), show t.freeSpace = categories t.pages from h, categories, categories, List.map_set]

theorem accurate_setVersion {t t' : HeapTable} {tid : TID} {version : TupleVersion} (h : t.Accurate)
    (ht : t.setVersion tid version = .ok t') : t'.Accurate ∧ t'.pages.length = t.pages.length := by
  unfold setVersion at ht
  split at ht
  · exact absurd ht raise_ne_ok
  · rename_i page hp
    obtain ⟨_, -, ht⟩ := bind_eq_ok.1 ht
    obtain ⟨page', -, ht⟩ := bind_eq_ok.1 ht
    cases ht
    exact ⟨h.publish (List.getElem?_eq_some_iff.1 hp).1 page', List.length_set⟩

theorem accurate_reclaimVersion {t : HeapTable} (h : t.Accurate) (tid : TID) :
    (t.reclaimVersion tid).1.Accurate ∧ (t.reclaimVersion tid).1.pages.length = t.pages.length := by
  unfold reclaimVersion
  split
  · exact ⟨h, rfl⟩
  · rename_i page old hd
    obtain ⟨p, hp, -⟩ := Option.bind_eq_some_iff.1 hd
    exact ⟨h.publish (List.getElem?_eq_some_iff.1 hp).1 page, List.length_set⟩

/-! ## One insert -/

/-- **One try**: the page took the tuple, or it has no room and nothing but its entry was written. -/
theorem tryInsert_cases {t t' : HeapTable} {pageId : Nat} {v : TupleVersion} {r : Option TID} (h : t.Accurate)
    (ht : t.tryInsert pageId v = .ok (t', r)) : (r = none ∧ t' = t ∧ ∀ page, t.pages[pageId]? = some page →
      page.Lacks (tupleSize v.values)) ∨ (r ≠ none ∧ t'.Accurate ∧ t'.pages.length = t.pages.length) := by
  unfold tryInsert at ht
  split at ht
  · exact absurd ht raise_ne_ok
  · rename_i page hp
    split at ht
    · rename_i hfull
      cases ht
      refine .inl ⟨rfl, by rw [h.record hp], fun page' hp' => ?_⟩
      cases hp.symm.trans hp'
      exact (page.insert_eq_none_iff v).1 hfull
    · rename_i page' slot hins
      cases ht
      exact .inr ⟨nofun, h.publish (List.getElem?_eq_some_iff.1 hp).1 page', List.length_set⟩

/-- What a walk over pages leaves: no page was added, and if none took the tuple, the pages of the list have no room. -/
structure Tried (v : TupleVersion) (pages : List Nat) (t : HeapTable) (p : HeapTable × Result (Option TID)) : Prop where
  accurate : p.1.Accurate
  length   : p.1.pages.length = t.pages.length
  none_fit : p.2 = .ok none → p.1 = t ∧ ∀ pageId ∈ pages, ∀ page, t.pages[pageId]? = some page → page.Lacks (tupleSize v.values)

theorem tryPagesKept_tried (v : TupleVersion) : ∀ (pages : List Nat) (t : HeapTable), t.Accurate →
    Tried v pages t (tryPagesKept v pages t)
  | [], t, h              => ⟨h, rfl, fun _ => ⟨rfl, fun _ hm => absurd hm List.not_mem_nil⟩⟩
  | pageId :: pages, t, h => by
    unfold tryPagesKept
    cases hf : t.tryInsert pageId v with
    | error e =>
      rw [Kept.bind_error (congrArg Prod.snd (Kept.ofResult_error (f := fun t => t.tryInsert pageId v) hf)),
        Kept.ofResult_error (f := fun t => t.tryInsert pageId v) hf]
      exact ⟨h, rfl, fun hn => by cases hn⟩
    | ok p =>
      obtain ⟨t', r⟩ := p
      rw [Kept.bind_ok (congrArg Prod.snd (Kept.ofResult_ok (f := fun t => t.tryInsert pageId v) hf)),
        Kept.ofResult_ok (f := fun t => t.tryInsert pageId v) hf]
      rcases tryInsert_cases h hf with ⟨rfl, rfl, hlacks⟩ | ⟨hr, ht, hlen⟩
      · obtain ⟨ha, hlen, hnone⟩ := tryPagesKept_tried v pages t' h
        refine ⟨ha, hlen, fun hn => ⟨(hnone hn).1, fun q hq page hp => ?_⟩⟩
        rcases List.mem_cons.1 hq with rfl | hq
        · exact hlacks page hp
        · exact (hnone hn).2 q hq page hp
      · cases r with
        | none => exact absurd rfl hr
        | some tid => exact ⟨ht, hlen, fun hn => by cases hn⟩

theorem accurate_insertNewPage {t : HeapTable} {v : TupleVersion} (h : t.Accurate) :
    (Kept.ofResult (fun t => t.insertNewPage v) t).1.Accurate := by
  unfold Kept.ofResult insertNewPage
  cases HeapPage.empty.insert v with
  | none => exact h
  | some p =>
    unfold Accurate HeapTable.publish
    simp only
    rw [← h.length, record_length, show t.freeSpace = categories t.pages from h, categories, List.length_map,
      List.set_append_right _ _ (le_refl _), Nat.sub_self, List.set_cons_zero, categories, List.map_append]
    rfl

/-- **A page that is neither preferred nor offered** is too small for the tuple itself. -/
theorem Accurate.lacks_of_not_candidate {t : HeapTable} (h : t.Accurate) {size pageId : Nat} {page : HeapPage}
    (hp : t.pages[pageId]? = some page) (hsize : size ≤ pageBodySize) (hc : pageId ∉ t.freeSpace.candidatePages size) :
    page.Lacks size := by
  refine HeapPage.lacks_of_lt ?_
  by_contra hge
  refine hc (mem_candidatePages.2 ⟨hsize, category page.availableFreeBytes, ?_, category_mono (not_lt.1 hge)⟩)
  exact h.entry hp

/-- What an insert leaves: the map is accurate, and a page was added only if no page had room. -/
structure Placed (values : Values) (t t' : HeapTable) : Prop where
  accurate : t'.Accurate
  grown    : t.pages.length < t'.pages.length → ∀ page ∈ t.pages, page.Lacks (tupleSize values)

theorem Placed.same {values : Values} {t t' : HeapTable} (h : t'.Accurate) (hl : t'.pages.length = t.pages.length) :
    Placed values t t' := ⟨h, fun hlt => absurd hlt (by omega)⟩

theorem placeKept_placed {v : TupleVersion} {size : Nat} (hsize : size = tupleSize v.values) (hle : size ≤ pageBodySize)
    (preferredPageId : Option Nat) {t : HeapTable} (h : t.Accurate) :
    Placed v.values t (placeKept v size preferredPageId t).1 := by
  obtain ⟨ha, hlen, hnone⟩ := tryPagesKept_tried v preferredPageId.toList t h
  unfold placeKept
  cases hr : (tryPagesKept v preferredPageId.toList t).2 with
  | error e =>
    rw [Kept.bind_error hr]
    exact .same ha hlen
  | ok r =>
    rw [Kept.bind_ok hr]
    cases r with
    | some tid => exact .same ha hlen
    | none =>
      obtain ⟨hsame, hpreferred⟩ := hnone hr
      simp only
      rw [hsame]
      generalize hcandidates : (t.freeSpace.candidatePages size).filter (fun p => some p ≠ preferredPageId) = candidates
      obtain ⟨ha', hlen', hnone'⟩ := tryPagesKept_tried v candidates t h
      cases hr' : (tryPagesKept v candidates t).2 with
      | error e =>
        rw [Kept.bind_error hr']
        exact .same ha' hlen'
      | ok r' =>
        rw [Kept.bind_ok hr']
        cases r' with
        | some tid => exact .same ha' hlen'
        | none =>
          obtain ⟨hsame', htried⟩ := hnone' hr'
          simp only
          rw [hsame']
          refine ⟨accurate_insertNewPage h, fun _ page hpage => ?_⟩
          obtain ⟨pageId, hlt, hget⟩ := List.getElem_of_mem hpage
          have hp : t.pages[pageId]? = some page := by rw [List.getElem?_eq_getElem hlt, hget]
          rw [← hsize]
          by_cases hc : pageId ∈ t.freeSpace.candidatePages size
          · by_cases hpref : some pageId = preferredPageId
            · rw [hsize]
              exact hpreferred pageId (by rw [← hpref]; exact List.mem_singleton.2 rfl) page hp
            · rw [hsize]
              refine htried pageId ?_ page hp
              rw [← hcandidates, List.mem_filter]
              exact ⟨hc, decide_eq_true hpref⟩
          · exact h.lacks_of_not_candidate hp hle hc

theorem encodeVersion_size {schema : Schema} {v : TupleVersion} {size : Nat} (h : encodeVersion schema v = .ok size) :
    size = tupleSize v.values ∧ size ≤ pageBodySize := by
  unfold encodeVersion at h
  split at h
  · exact absurd h raise_ne_ok
  · split at h
    · exact absurd h raise_ne_ok
    · obtain ⟨values, hv, h⟩ := bind_eq_ok.1 h
      rw [Schema.validateRow_eq hv] at h
      split at h
      · exact absurd h raise_ne_ok
      · rename_i hmax
        cases h
        have hbody : maxSlotPayload ≤ pageBodySize := by decide
        exact ⟨rfl, by omega⟩

theorem insertVersionKept_placed (xid : Nat) (values : Values) (preferredPageId : Option Nat) {t : HeapTable} (h : t.Accurate) :
    Placed values t (insertVersionKept xid values preferredPageId t).1 := by
  unfold insertVersionKept
  split
  · exact .same h rfl
  · rename_i validated hval
    rw [Schema.validateRow_eq hval]
    split
    · exact .same h rfl
    · rename_i size hsize
      obtain ⟨hs, hle⟩ := encodeVersion_size hsize
      exact placeKept_placed hs hle preferredPageId h

/-! ## The other calls -/

theorem Placed.trans {values : Values} {t t' t'' : HeapTable} (h : Placed values t t') (ha : t''.Accurate)
    (hl : t''.pages.length = t'.pages.length) : Placed values t t'' := ⟨ha, fun hlt => h.grown (by omega)⟩

theorem accurate_setVersionKept (tid : TID) (version : TupleVersion) {t : HeapTable} (h : t.Accurate) :
    (setVersionKept tid version t).1.Accurate ∧ (setVersionKept tid version t).1.pages.length = t.pages.length := by
  unfold setVersionKept
  cases hf : t.setVersion tid version with
  | error e =>
    rw [Kept.ofResult_error (by rw [hf]; rfl)]
    exact ⟨h, rfl⟩
  | ok t' =>
    rw [@Kept.ofResult_ok _ _ t t' () (by rw [hf]; rfl)]
    exact accurate_setVersion h hf

/-- **A replacement adds a page only for its insert.** -/
theorem replaceVersionKept_placed (tid : TID) (xid : Nat) (statuses : StatusTable) (values : Values)
    {t : HeapTable} (h : t.Accurate) :
    Placed values t (replaceVersionKept tid xid statuses values t).1 := by
  unfold replaceVersionKept
  split
  · exact .same h rfl
  · rename_i old hold
    split
    · have hi := insertVersionKept_placed xid values (some tid.pageId) h
      cases hr : (insertVersionKept xid values (some tid.pageId) t).2 with
      | error e =>
        rw [Kept.bind_error hr]
        exact hi
      | ok replacement =>
        rw [Kept.bind_ok hr, bind_pure_fst]
        obtain ⟨ha, hl⟩ := accurate_setVersionKept tid ⟨old.xmin, xid, some replacement, old.values⟩ hi.accurate
        exact hi.trans ha hl
    · exact .same h rfl

theorem deleteVersionKept_same (tid : TID) (xid : Nat) (statuses : StatusTable) {t : HeapTable} (h : t.Accurate) :
    (deleteVersionKept tid xid statuses t).1.Accurate ∧
      (deleteVersionKept tid xid statuses t).1.pages.length = t.pages.length := by
  unfold deleteVersionKept
  split
  · exact ⟨h, rfl⟩
  · split
    · rw [bind_pure_fst]
      exact accurate_setVersionKept _ _ h
    · exact ⟨h, rfl⟩

theorem pruneLoopKept_same (removable : List TID) : ∀ (n : Nat) (predecessorTid : TID) (predecessor : TupleVersion)
    (current : Option TID) (counters : Nat × Nat) (t : HeapTable), t.Accurate →
    (pruneLoopKept removable n predecessorTid predecessor current counters t).1.Accurate ∧
      (pruneLoopKept removable n predecessorTid predecessor current counters t).1.pages.length = t.pages.length
  | n, _, _, none, _, t, h        => by cases n <;> exact ⟨h, rfl⟩
  | 0, _, _, some _, _, t, h      => ⟨h, rfl⟩
  | n + 1, predecessorTid, predecessor, some current, (removed, reclaimed), t, h => by
    unfold pruneLoopKept
    cases t.physicalVersion current with
    | none => exact ⟨h, rfl⟩
    | some version =>
      simp only
      split
      · obtain ⟨ha, hl⟩ := accurate_setVersionKept predecessorTid { predecessor with nextTid := version.nextTid } h
        cases hr : (setVersionKept predecessorTid { predecessor with nextTid := version.nextTid } t).2 with
        | error e =>
          rw [Kept.bind_error hr]
          exact ⟨ha, hl⟩
        | ok u =>
          obtain ⟨ha', hl'⟩ := accurate_reclaimVersion ha current
          rw [Kept.bind_ok hr, Kept.bind_ok rfl]
          obtain ⟨ha'', hl''⟩ := pruneLoopKept_same removable n predecessorTid { predecessor with nextTid := version.nextTid }
            version.nextTid _ _ ha'
          exact ⟨ha'', hl''.trans (hl'.trans hl)⟩
      · exact pruneLoopKept_same removable n current version version.nextTid (removed, reclaimed) t h

theorem pruneChainKept_same (rootTid : TID) (removable : List TID) {t : HeapTable} (h : t.Accurate) :
    (pruneChainKept rootTid removable t).1.Accurate ∧ (pruneChainKept rootTid removable t).1.pages.length = t.pages.length := by
  unfold pruneChainKept
  split
  · exact ⟨h, rfl⟩
  · exact pruneLoopKept_same removable _ _ _ _ _ t h

/-! ## Opening a heap -/

/-- The loop of `_bootstrap_free_space`: the pages behind the last entry get theirs. -/
def bootstrapFreeSpace : List HeapPage → FreeSpaceMap → FreeSpaceMap
  | [], m            => m
  | page :: rest, m => bootstrapFreeSpace rest (m.record m.length page.availableFreeBytes)

/-- `HeapTable.open`, with the pages of the relation and the bytes of the sidecar. -/
def openHeap (schema : Schema) (pages : List HeapPage) (sidecar : FreeSpaceMap) : Result HeapTable :=
  if sidecar.length > pages.length then raise .corruptPage "free-space map contains entries beyond the heap relation"
  else .ok ⟨schema, pages, bootstrapFreeSpace (pages.drop sidecar.length) sidecar⟩

theorem bootstrapFreeSpace_eq : ∀ (rest : List HeapPage) (m : FreeSpaceMap), bootstrapFreeSpace rest m = m ++ categories rest
  | [], m           => (List.append_nil m).symm
  | page :: rest, m => by
    rw [bootstrapFreeSpace, bootstrapFreeSpace_eq rest, record_length, List.append_assoc]
    rfl

/-- **The entries of an opened heap are accurate** when those of its sidecar are. -/
theorem accurate_openHeap {schema : Schema} {pages : List HeapPage} {sidecar : FreeSpaceMap} {t : HeapTable}
    (hs : sidecar = [] ∨ sidecar = categories pages) (h : openHeap schema pages sidecar = .ok t) : t.Accurate := by
  unfold openHeap at h
  split at h
  · exact absurd h raise_ne_ok
  · cases h
    unfold Accurate
    simp only [bootstrapFreeSpace_eq]
    rcases hs with rfl | rfl
    · rw [List.length_nil, List.drop_zero, List.nil_append]
    · rw [categories, List.length_map, List.drop_length]
      exact List.append_nil _

end HeapTable

/-! ## Runs -/

/-- The row whose version the call inserts. -/
def VersionCall.inserted : VersionCall → Option Values
  | .insert _ values _  => some values
  | .replace _ _ values => some values
  | _                   => none

namespace VersionState

open HeapTable

/-- **What one call leaves**: an accurate map, and more pages only for an insert that no page had room for. -/
theorem step_placed (s : VersionState) (c : VersionCall) (h : s.heap.Accurate) :
    (s.step c).heap.Accurate ∧ (s.heap.pages.length < (s.step c).heap.pages.length →
      ∃ values, c.inserted = some values ∧ ∀ page ∈ s.heap.pages, page.Lacks (tupleSize values)) := by
  have hsame : ∀ {t : HeapTable}, t.Accurate ∧ t.pages.length = s.heap.pages.length → t.Accurate ∧
    (s.heap.pages.length < t.pages.length →
      ∃ values, c.inserted = some values ∧ ∀ page ∈ s.heap.pages, page.Lacks (tupleSize values)) :=
    fun h => ⟨h.1, fun hlt => absurd hlt (by omega)⟩
  cases c with
  | insert xid values preferredPageId =>
    obtain ⟨ha, hg⟩ := insertVersionKept_placed xid values preferredPageId h
    exact ⟨ha, fun hlt => ⟨values, rfl, hg hlt⟩⟩
  | replace tid xid values =>
    obtain ⟨ha, hg⟩ := replaceVersionKept_placed tid xid s.statuses values h
    exact ⟨ha, fun hlt => ⟨values, rfl, hg hlt⟩⟩
  | delete tid xid => exact hsame (deleteVersionKept_same tid xid s.statuses h)
  | prune rootTid removable => exact hsame (pruneChainKept_same rootTid removable h)
  | reclaim tid => exact hsame (accurate_reclaimVersion h tid)
  | commit xid => exact hsame (by rw [step, outcome_heap]; exact ⟨h, rfl⟩)
  | abort xid => exact hsame (by rw [step, outcome_heap]; exact ⟨h, rfl⟩)

theorem run_accurate : ∀ (calls : List VersionCall) (s : VersionState), s.heap.Accurate → (s.run calls).heap.Accurate
  | [], _, h         => h
  | c :: calls, s, h => run_accurate calls (s.step c) (s.step_placed c h).1

/-- **The heap grows only when it must.**  In every run from an opened heap, a call that adds a page inserts a tuple that no page
had room for, and every page that the free-space map offers exists. -/
theorem heap_grows_when_full {schema : Schema} {pages : List HeapPage} {sidecar : FreeSpaceMap} {t : HeapTable}
    (hs : sidecar = [] ∨ sidecar = categories pages) (ho : openHeap schema pages sidecar = .ok t) (statuses : StatusTable)
    (calls : List VersionCall) (c : VersionCall) {s : VersionState} (hrun : (⟨t, statuses⟩ : VersionState).run calls = s) :
    (s.heap.pages.length < (s.step c).heap.pages.length →
      ∃ values, c.inserted = some values ∧ ∀ page ∈ s.heap.pages, page.Lacks (tupleSize values)) ∧
    ∀ requiredBytes, ∀ pageId ∈ s.heap.freeSpace.candidatePages requiredBytes, pageId < s.heap.pages.length := by
  have ha : s.heap.Accurate := hrun ▸ run_accurate calls _ (accurate_openHeap hs ho)
  refine ⟨(s.step_placed c ha).2, fun requiredBytes pageId hm => ?_⟩
  obtain ⟨-, c, hc, -⟩ := mem_candidatePages.1 hm
  rw [← ha.length]
  exact (List.getElem?_eq_some_iff.1 hc).1

def oneText : Schema := ⟨[⟨['t'], .text, true⟩]⟩

/-- More than half of a page. -/
def longRow : Values := [.text (List.replicate 4100 'x')]

def oneLongRow : VersionState := VersionState.run ⟨HeapTable.create oneText, StatusTable.empty⟩ [.insert 2 longRow none]

/-- The second row takes a second page, and the first page has no room for it. -/
theorem heap_grows_when_full_longRows :
    oneLongRow.heap.pages.length = 1 ∧ (oneLongRow.step (.insert 3 longRow none)).heap.pages.length = 2 ∧
    (∀ page ∈ oneLongRow.heap.pages, page.Lacks (tupleSize longRow)) ∧
    ∀ requiredBytes, ∀ pageId ∈ oneLongRow.heap.freeSpace.candidatePages requiredBytes, pageId < 1 := by
  have hone : oneLongRow.heap.pages.length = 1 := by decide +kernel
  have htwo : (oneLongRow.step (.insert 3 longRow none)).heap.pages.length = 2 := by decide +kernel
  obtain ⟨hgrows, hoffered⟩ := @heap_grows_when_full oneText [] [] (HeapTable.create oneText) (.inl rfl) rfl StatusTable.empty
    [.insert 2 longRow none] (.insert 3 longRow none) oneLongRow rfl
  obtain ⟨values, hvalues, hlacks⟩ := hgrows (by rw [hone, htwo]; decide)
  obtain rfl := Option.some.inj hvalues
  exact ⟨hone, htwo, hlacks, hone ▸ hoffered⟩

end VersionState
end MiniPostgres
