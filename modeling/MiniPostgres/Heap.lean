import MiniPostgres.Txn
import MiniPostgres.Lib.Linked
/-!
# Heap — slotted pages and the heap table

`storage/slotted.py`, `tuple.py` (sizes and checks), `free_space.py` and `heap.py`.  A page is its slot directory: a slot
is dead (`none`) or holds one tuple version.  The byte layout inside a page does not show through the page's
functions — compaction makes every free byte usable, so an insert fits exactly when the sizes add up — and the
structure carries that sum.

Every mutation publishes one page at a time, the page of the TID it returns or takes; `Wal.lean` logs these publications.
-/
namespace MiniPostgres

/-! ## Tuple sizes -/

def pageBodySize : Nat := 8148
def slottedHeaderSize : Nat := 12
def slotEntrySize : Nat := 8
def maxSlotPayload : Nat := pageBodySize - slottedHeaderSize - slotEntrySize
def tupleHeaderSize : Nat := 44
def maxUint64 : Nat := 2 ^ 64 - 1

/-- The payload bytes of one value; a null has only its bit of the bitmap. -/
def scalarSize : Scalar → Nat
  | .null    => 0
  | .int _   => 8
  | .float _ => 8
  | .bool _  => 1
  | .text s  => 4 + (utf8 s).length

/-- The length of an encoded tuple: header, null bitmap and values. -/
def tupleSize (values : Values) : Nat :=
  tupleHeaderSize + (values.length + 7) / 8 + (values.map scalarSize).sum

/-- `TupleCodec.encode`, as the length of the bytes: the XIDs are unsigned 64-bit, the row is validated, and the tuple
fits an empty page.  (Decoding gives back the version that was encoded.) -/
def encodeVersion (schema : Schema) (version : TupleVersion) : Result Nat := do
  if version.xmin > maxUint64 then raise .valueError "xmin is outside the encoded integer domain"
  else if version.xmax > maxUint64 then raise .valueError "xmax is outside the encoded integer domain"
  else
    let values ← schema.validateRow version.values
    if tupleSize values > maxSlotPayload then
      raise .rowTooLarge
        ("encoded tuple is " ++ toString (tupleSize values) ++ " bytes; maximum is " ++ toString maxSlotPayload)
    else .ok (tupleSize values)

/-! ## Slotted pages -/

abbrev Slots := List (Option TupleVersion)

def slotBytes : Option TupleVersion → Nat
  | none   => 0
  | some v => tupleSize v.values

def liveBytes (slots : Slots) : Nat := (slots.map slotBytes).sum

/-- `SlottedPage`: the directory and the live tuples fit the page body. -/
structure HeapPage where
  slots : Slots
  fits  : slottedHeaderSize + slots.length * slotEntrySize + liveBytes slots ≤ pageBodySize
  deriving DecidableEq

namespace HeapPage

def empty : HeapPage := ⟨[], by decide⟩

def lower (p : HeapPage) : Nat := slottedHeaderSize + p.slots.length * slotEntrySize

def availableFreeBytes (p : HeapPage) : Nat := pageBodySize - p.lower - liveBytes p.slots

def read (p : HeapPage) (slotId : Nat) : Option TupleVersion := (p.slots[slotId]?).join

/-- The slot an insert takes: the first dead one, else the next one. -/
def insertSlot (p : HeapPage) : Nat := p.slots.findIdx Option.isNone

/-- Writing slot `i`: in the directory, or just after its end. -/
def placed (slots : Slots) (i : Nat) (v : TupleVersion) : Slots :=
  if i < slots.length then slots.set i (some v) else slots ++ [some v]

def directoryGrowth (p : HeapPage) : Nat := if p.insertSlot < p.slots.length then 0 else slotEntrySize

end HeapPage

theorem liveBytes_append (a b : Slots) : liveBytes (a ++ b) = liveBytes a + liveBytes b := by
  simp [liveBytes]

theorem liveBytes_set : ∀ (slots : Slots) (i : Nat) (s : Option TupleVersion), i < slots.length →
    liveBytes (slots.set i s) + slotBytes (slots[i]?).join = liveBytes slots + slotBytes s
  | [], _, _, h => absurd h (by simp)
  | x :: xs, 0, s, _ => by simp [liveBytes]; omega
  | x :: xs, i + 1, s, h => by
    have ih := liveBytes_set xs i s (by simpa using h)
    simp only [liveBytes, List.set_cons_succ, List.map_cons, List.sum_cons, List.getElem?_cons_succ] at ih ⊢
    omega

theorem HeapPage.insertSlot_dead (p : HeapPage) : p.read p.insertSlot = none := by
  unfold HeapPage.read
  by_cases h : p.insertSlot < p.slots.length
  · have hd : p.slots[p.insertSlot].isNone = true := List.findIdx_getElem (w := h)
    rw [List.getElem?_eq_getElem h, Option.isNone_iff_eq_none.1 hd]
    rfl
  · rw [List.getElem?_eq_none (by omega)]
    rfl

theorem HeapPage.placed_fits (p : HeapPage) (v : TupleVersion)
    (h : tupleSize v.values + p.directoryGrowth ≤ p.availableFreeBytes) :
    slottedHeaderSize + (placed p.slots p.insertSlot v).length * slotEntrySize +
      liveBytes (placed p.slots p.insertSlot v) ≤ pageBodySize := by
  have hf := p.fits
  unfold availableFreeBytes lower directoryGrowth at h
  unfold placed
  split at h
  · rename_i hlt
    have hset := liveBytes_set p.slots p.insertSlot (some v) hlt
    rw [if_pos hlt, List.length_set]
    simp only [slotBytes] at hset
    omega
  · rename_i hlt
    rw [if_neg hlt, liveBytes_append, List.length_append]
    simp only [liveBytes, List.map_cons, List.map_nil, List.sum_cons, List.sum_nil, slotBytes, List.length_singleton,
      Nat.add_mul] at *
    omega

namespace HeapPage

/-- `SlottedPage.insert`; `none` is `PageFull`. -/
def insert (p : HeapPage) (v : TupleVersion) : Option (HeapPage × Nat) :=
  if h : tupleSize v.values + p.directoryGrowth ≤ p.availableFreeBytes then
    some (⟨placed p.slots p.insertSlot v, p.placed_fits v h⟩, p.insertSlot)
  else none

/-- `SlottedPage.replace`: the slot keeps its number; `KeyError` on a slot that is not live. -/
def replace (p : HeapPage) (slotId : Nat) (v : TupleVersion) : Result HeapPage :=
  match p.read slotId with
  | none   => raise .keyError (toString slotId)
  | some _ =>
    if h : slottedHeaderSize + (p.slots.set slotId (some v)).length * slotEntrySize +
        liveBytes (p.slots.set slotId (some v)) ≤ pageBodySize then
      .ok ⟨p.slots.set slotId (some v), h⟩
    else raise .pageFull "replacement tuple does not fit on the page"

theorem delete_fits (p : HeapPage) (slotId : Nat) :
    slottedHeaderSize + (p.slots.set slotId none).length * slotEntrySize + liveBytes (p.slots.set slotId none) ≤
      pageBodySize := by
  have hf := p.fits
  rw [List.length_set]
  by_cases h : slotId < p.slots.length
  · have := liveBytes_set p.slots slotId none h
    simp only [slotBytes] at this
    omega
  · rw [List.set_eq_of_length_le (by omega)]
    exact hf

/-- `SlottedPage.delete`: the slot is marked dead and the others keep their numbers; `none` is `KeyError`. -/
def delete (p : HeapPage) (slotId : Nat) : Option (HeapPage × TupleVersion) :=
  match p.read slotId with
  | none   => none
  | some v => some (⟨p.slots.set slotId none, p.delete_fits slotId⟩, v)

end HeapPage

/-! ## The free-space map -/

/-- The recorded category of each page. -/
abbrev FreeSpaceMap := List Nat

namespace FreeSpaceMap

def category (freeBytes : Nat) : Nat :=
  if freeBytes = 0 then 0 else min 255 ((freeBytes * 255 + pageBodySize - 1) / pageBodySize)

def record (m : FreeSpaceMap) (pageId freeBytes : Nat) : FreeSpaceMap :=
  List.set (m ++ List.replicate (pageId + 1 - m.length) 0) pageId (category freeBytes)

/-- Most estimated space first, then the lower page. -/
def before (a b : Nat × Nat) : Bool := decide (b.1 < a.1 ∨ (a.1 = b.1 ∧ a.2 ≤ b.2))

def candidatePages (m : FreeSpaceMap) (requiredBytes : Nat) : List Nat :=
  if requiredBytes > pageBodySize then []
  else ((m.zipIdx.filter (fun p => category requiredBytes ≤ p.1)).insertionSort (fun a b => before a b)).map Prod.snd

end FreeSpaceMap

/-! ## The heap table -/

structure HeapTable where
  schema    : Schema
  pages     : List HeapPage
  freeSpace : FreeSpaceMap
  deriving DecidableEq

namespace HeapTable

/-- A heap whose relation has no page yet. -/
def create (schema : Schema) : HeapTable := ⟨schema, [], []⟩

def physicalVersion (t : HeapTable) (tid : TID) : Option TupleVersion :=
  (t.pages[tid.pageId]?).bind (·.read tid.slotId)

/-- The live slots of one page, in slot order. -/
def pageVersions (pageId : Nat) (page : HeapPage) : List (TID × TupleVersion) :=
  page.slots.zipIdx.filterMap (fun s => s.1.map (fun v => (⟨pageId, s.2⟩, v)))

/-- `scan_versions`: page order, then slot order. -/
def scanVersions (t : HeapTable) : List (TID × TupleVersion) :=
  t.pages.zipIdx.flatMap (fun p => pageVersions p.2 p.1)

/-- The page image and the free-space record that end every mutation. -/
def publish (t : HeapTable) (pageId : Nat) (page : HeapPage) : HeapTable :=
  { t with
    pages := t.pages.set pageId page
    freeSpace := t.freeSpace.record pageId page.availableFreeBytes }

/-! ### Insertion -/

def tryInsert (t : HeapTable) (pageId : Nat) (v : TupleVersion) : Result (HeapTable × Option TID) :=
  match t.pages[pageId]? with
  | none      => raise .corruptPage "free-space map refers to an unallocated heap page"
  | some page =>
    match page.insert v with
    | none               => .ok ({ t with freeSpace := t.freeSpace.record pageId page.availableFreeBytes }, none)
    | some (page', slot) => .ok (t.publish pageId page', some ⟨pageId, slot⟩)

/-- The loop over the candidate pages. -/
def tryPages (t : HeapTable) (v : TupleVersion) : List Nat → Result (HeapTable × Option TID)
  | []              => .ok (t, none)
  | pageId :: pages => do
    let (t', tid) ← t.tryInsert pageId v
    match tid with
    | some tid => .ok (t', some tid)
    | none     => t'.tryPages v pages

def insertNewPage (t : HeapTable) (v : TupleVersion) : Result (HeapTable × TID) :=
  match HeapPage.empty.insert v with
  | none              => raise .pageFull "tuple does not fit an empty page"
  | some (page, slot) =>
    .ok (HeapTable.publish { t with pages := t.pages ++ [HeapPage.empty] } t.pages.length page, ⟨t.pages.length, slot⟩)

def insertVersion (t : HeapTable) (xid : Nat) (values : Values) (preferredPageId : Option Nat) :
    Result (HeapTable × TID) := do
  let validated ← t.schema.validateRow values
  let v : TupleVersion := ⟨xid, 0, none, validated⟩
  let size ← encodeVersion t.schema v
  let (t, preferred) ← t.tryPages v preferredPageId.toList
  match preferred with
  | some tid => .ok (t, tid)
  | none     => do
    let (t, found) ← t.tryPages v ((t.freeSpace.candidatePages size).filter (fun p => some p ≠ preferredPageId))
    match found with
    | some tid => .ok (t, tid)
    | none     => t.insertNewPage v

/-! ### Version chains -/

/-- The versions met from `tid` along `next_tid`, up to a dead slot; a version met again is a corrupt chain. -/
def chainFrom (t : HeapTable) (tid : TID) : Result (List (TID × TupleVersion)) :=
  match Linked.walk t.physicalVersion TupleVersion.nextTid (t.scanVersions.length + 1) [] (some tid) with
  | some l => .ok l
  | none   => raise .corruptPage "tuple version chain contains a cycle"

/-- The loops of `resolve_visible` and `_resolve_globally_live_from_root`: the last version of the chain that passes. -/
def lastOf (passes : TupleVersion → Bool) (chain : List (TID × TupleVersion)) : Option (TID × Values) :=
  ((chain.filter (fun p => passes p.2)).getLast?).map (fun p => (p.1, p.2.values))

def resolveVisible (t : HeapTable) (tid : TID) (snapshot : Snapshot) (currentXid : Nat) (statuses : StatusTable) :
    Result (Option (TID × Values)) := do
  let chain ← t.chainFrom tid
  .ok (lastOf (fun v => isVisible v snapshot currentXid statuses) chain)

/-- Committed-or-own and not deleted by a committed transaction or the caller. -/
def globallyLive (version : TupleVersion) (currentXid : Nat) (statuses : StatusTable) : Bool :=
  decide ((version.xmin = systemXid ∨ version.xmin = currentXid ∨ statuses.get version.xmin = .committed) ∧
    ¬ (version.xmax ≠ 0 ∧ (version.xmax = currentXid ∨ statuses.get version.xmax = .committed)))

def resolveGloballyLiveFromRoot (t : HeapTable) (rootTid : TID) (currentXid : Nat) (statuses : StatusTable) :
    Result (Option (TID × Values)) := do
  let chain ← t.chainFrom rootTid
  .ok (lastOf (fun v => globallyLive v currentXid statuses) chain)

/-- `predecessors` of `root_tid`: a later version of the scan with the same `next_tid` overwrites an earlier one. -/
def predecessor (t : HeapTable) (tid : TID) : Option TID :=
  ((t.scanVersions.filter (fun p => p.2.nextTid = some tid)).getLast?).map Prod.fst

def rootTid (t : HeapTable) (tid : TID) : Result TID :=
  match Linked.climb t.predecessor (t.scanVersions.length + 1) [] tid with
  | some root => .ok root
  | none      => raise .corruptPage "tuple version chain contains a cycle"

def resolveGloballyLive (t : HeapTable) (tid : TID) (currentXid : Nat) (statuses : StatusTable) :
    Result (Option (TID × Values)) := do
  let root ← t.rootTid tid
  t.resolveGloballyLiveFromRoot root currentXid statuses

def continuations (t : HeapTable) : List TID := t.scanVersions.filterMap (fun p => p.2.nextTid)

/-- The TIDs a scan starts a chain from. -/
def roots (t : HeapTable) : List TID := (t.scanVersions.map Prod.fst).filter (fun tid => tid ∉ t.continuations)

def scanVisible (t : HeapTable) (snapshot : Snapshot) (currentXid : Nat) (statuses : StatusTable) :
    Result (List (TID × Values)) := do
  let rows ← t.roots.mapM (fun tid => t.resolveVisible tid snapshot currentXid statuses)
  .ok (rows.filterMap id)

def scanGloballyLive (t : HeapTable) (statuses : StatusTable) : Result (List (TID × Values)) := do
  let rows ← t.roots.mapM (fun tid => t.resolveGloballyLiveFromRoot tid 0 statuses)
  .ok (rows.filterMap id)

/-! ### Version writes -/

def setVersion (t : HeapTable) (tid : TID) (version : TupleVersion) : Result HeapTable :=
  match t.pages[tid.pageId]? with
  | none      => raise .keyError "page is not allocated"
  | some page => do
    let _ ← encodeVersion t.schema version
    let page' ← page.replace tid.slotId version
    .ok (t.publish tid.pageId page')

/-- `replace_version` and `delete_version` both refuse a version whose deleter is not aborted. -/
def writable (old : TupleVersion) (statuses : StatusTable) : Bool :=
  decide (old.xmax = 0 ∨ statuses.get old.xmax = .aborted)

def replaceVersion (t : HeapTable) (tid : TID) (xid : Nat) (statuses : StatusTable) (values : Values) :
    Result (HeapTable × Option TID) :=
  match t.physicalVersion tid with
  | none     => .ok (t, none)
  | some old =>
    if writable old statuses then do
      let (t, replacement) ← t.insertVersion xid values (some tid.pageId)
      let t ← t.setVersion tid ⟨old.xmin, xid, some replacement, old.values⟩
      .ok (t, some replacement)
    else .ok (t, none)

def deleteVersion (t : HeapTable) (tid : TID) (xid : Nat) (statuses : StatusTable) : Result (HeapTable × Bool) :=
  match t.physicalVersion tid with
  | none     => .ok (t, false)
  | some old =>
    if writable old statuses then do
      let t ← t.setVersion tid ⟨old.xmin, xid, old.nextTid, old.values⟩
      .ok (t, true)
    else .ok (t, false)

/-- `reclaim_version`: the slot is dead and its bytes are free; nothing happens on a slot that is dead already. -/
def reclaimVersion (t : HeapTable) (tid : TID) : HeapTable × Nat :=
  match (t.pages[tid.pageId]?).bind (·.delete tid.slotId) with
  | none              => (t, 0)
  | some (page, old)  => (t.publish tid.pageId page, tupleSize old.values)

end HeapTable

end MiniPostgres
