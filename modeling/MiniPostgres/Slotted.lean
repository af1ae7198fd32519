import MiniPostgres.Heap
import MiniPostgres.WalCodec
/-!
# Slotted — the bytes of a slotted page

`storage/slotted.py` over its buffer: a directory of offsets and lengths grows up, the tuples grow down, and both share the bytes
that `to_bytes` writes the directory into.  `Directory` is what the page is for: a map from stable slot IDs to byte strings that
takes as much as fits.  Every call on a page does what the same call does on its directory.
-/
namespace MiniPostgres

open Bytes (beBytes beNat beNat_beBytes length_beBytes)

/-! ## The reference map -/

/-- The slots in order of their IDs; a dead one is `none`. -/
abbrev Directory := List (Option ByteString)

inductive SlotCall
  | insert (value : ByteString)
  | delete (slotId : Nat)
  | replace (slotId : Nat) (value : ByteString)
  | compact
  | roundTrip
  deriving DecidableEq

/-- What a call gives back. -/
inductive SlotOutcome
  | slot (result : Result Nat)
  | value (result : Result ByteString)
  | done (result : Result Unit)

def SlotOutcome.raised : SlotOutcome → Bool
  | .slot (.error _)  => true
  | .value (.error _) => true
  | .done (.error _)  => true
  | _                 => false

namespace Directory

def read (d : Directory) (slotId : Nat) : Result ByteString :=
  match d[slotId]? with
  | some (some value) => .ok value
  | _                 => raise .keyError (toString slotId)

/-- The live slot IDs, in order. -/
def live (d : Directory) : List Nat := (d.zipIdx.filter (fun p => p.1.isSome)).map Prod.snd

def liveBytes (d : Directory) : Nat := (d.map (fun v => (v.getD []).length)).sum

/-- The bytes that neither the directory nor a value takes. -/
def free (d : Directory) : Int :=
  (pageBodySize : Int) - (slottedHeaderSize + d.length * slotEntrySize : Nat) - (liveBytes d : Nat)

/-- The bytes of the directory that a new value needs. -/
def growth (d : Directory) : Nat := if d.any Option.isNone then 0 else slotEntrySize

/-- The value takes the lowest dead slot, or a new one. -/
def put (d : Directory) (value : ByteString) : Directory × Nat :=
  match d.findIdx? Option.isNone with
  | some slotId => (d.set slotId (some value), slotId)
  | none        => (d ++ [some value], d.length)

def insert (d : Directory) (value : ByteString) : Directory × Result Nat :=
  if d.free < (value.length + d.growth : Nat) then
    (d, raise .pageFull ("tuple needs " ++ toString (value.length + d.growth) ++ " bytes, page has " ++ toString d.free))
  else ((d.put value).1, .ok (d.put value).2)

def delete (d : Directory) (slotId : Nat) : Directory × Result ByteString :=
  match d.read slotId with
  | .error e => (d, .error e)
  | .ok old  => (d.set slotId none, .ok old)

/-- The value takes the place of the old one, if it fits there without it. -/
def replace (d : Directory) (slotId : Nat) (value : ByteString) : Directory × Result ByteString :=
  match d.read slotId with
  | .error e => (d, .error e)
  | .ok old  =>
    if d.free + (old.length : Nat) < (value.length : Nat) then (d, raise .pageFull "replacement tuple does not fit on the page")
    else (d.set slotId (some value), .ok old)

def step (d : Directory) : SlotCall → Directory × SlotOutcome
  | .insert value         => ((d.insert value).1, .slot (d.insert value).2)
  | .delete slotId        => ((d.delete slotId).1, .value (d.delete slotId).2)
  | .replace slotId value => ((d.replace slotId value).1, .value (d.replace slotId value).2)
  | .compact              => (d, .done (.ok ()))
  | .roundTrip            => (d, .done (.ok ()))

end Directory

/-! ## The page -/

/-- `_Slot`. -/
structure PageSlot where
  offset : Nat
  length : Nat
  live   : Bool
  deriving DecidableEq, Repr

namespace PageSlot

def dead : PageSlot := ⟨0, 0, false⟩

def stop (slot : PageSlot) : Nat := slot.offset + slot.length

/-- `_SLOT.pack`. -/
def encode (slot : PageSlot) : ByteString :=
  beBytes 2 slot.offset ++ beBytes 2 slot.length ++ beBytes 1 (if slot.live then 1 else 0) ++ [0, 0, 0]

end PageSlot

/-- `buffer[offset : offset + len(value)] = value`. -/
def splice (buffer : ByteString) (offset : Nat) (value : ByteString) : ByteString :=
  buffer.take offset ++ value ++ buffer.drop (offset + value.length)

structure SlottedPage where
  pageId : Nat
  buffer : ByteString
  slots  : List PageSlot
  upper  : Nat
  deriving DecidableEq

namespace SlottedPage

def slottedMagic : ByteString := [0x53, 0x4C, 0x54, 0x31]

def lower (p : SlottedPage) : Nat := slottedHeaderSize + p.slots.length * slotEntrySize

def contiguousFreeBytes (p : SlottedPage) : Int := (p.upper : Int) - (p.lower : Nat)

def availableFreeBytes (p : SlottedPage) : Int :=
  (pageBodySize : Int) - (p.lower : Nat) - ((p.slots.filter (·.live)).map (·.length)).sum

/-- The extents of the live slots with bytes, as `_validate` collects them. -/
def extents (slots : List PageSlot) : List (Nat × Nat) :=
  (slots.filter (fun s => s.live && decide (0 < s.length))).map (fun s => (s.offset, s.stop))

/-- The order of pairs that `extents.sort()` uses. -/
def extentLe (a b : Nat × Nat) : Bool := decide (a.1 < b.1 ∨ (a.1 = b.1 ∧ a.2 ≤ b.2))

/-- Two extents next to each other overlap. -/
def overlap : List (Nat × Nat) → Bool
  | a :: b :: rest => decide (b.1 < a.2) || overlap (b :: rest)
  | _              => false

def validate (p : SlottedPage) : Result Unit :=
  if p.buffer.length ≠ pageBodySize then raise .valueError "invalid slotted page body size"
  else if ¬(slottedHeaderSize ≤ p.lower ∧ p.lower ≤ p.upper ∧ p.upper ≤ pageBodySize) then
    raise .valueError "invalid slotted page bounds"
  else if p.slots.any (fun s => s.live && decide (s.offset < p.upper ∨ pageBodySize < s.stop)) then
    raise .valueError "live slot extent is outside tuple bounds"
  else if overlap ((extents p.slots).mergeSort extentLe) then raise .valueError "live slot extents overlap"
  else .ok ()

/-- A change of the page that `_validate` ends. -/
def checked {α : Type} (p : SlottedPage) (result : α) : SlottedPage × Result α :=
  match p.validate with
  | .error e => (p, .error e)
  | .ok _    => (p, .ok result)

def empty (pageId : Nat) : SlottedPage := ⟨pageId, List.replicate pageBodySize 0, [], pageBodySize⟩

def liveSlot (p : SlottedPage) (slotId : Nat) : Result PageSlot :=
  match p.slots[slotId]? with
  | none      => raise .keyError (toString slotId)
  | some slot => if slot.live then .ok slot else raise .keyError (toString slotId)

def read (p : SlottedPage) (slotId : Nat) : Result ByteString := do
  let slot ← p.liveSlot slotId
  .ok (slice p.buffer slot.offset slot.length)

def liveSlots (p : SlottedPage) : List Nat := (p.slots.zipIdx.filter (fun s => s.1.live)).map Prod.snd

/-- The loop of `compact` over the slots that are left. -/
def pack (buffer : ByteString) : List PageSlot → Nat → ByteString → List PageSlot × Nat × ByteString
  | [], cursor, compacted           => ([], cursor, compacted)
  | slot :: rest, cursor, compacted =>
    if slot.live then
      let value := slice buffer slot.offset slot.length
      let packed := pack buffer rest (cursor - value.length) (splice compacted (cursor - value.length) value)
      (⟨cursor - value.length, value.length, true⟩ :: packed.1, packed.2)
    else
      let packed := pack buffer rest cursor compacted
      (slot :: packed.1, packed.2)

def compact (p : SlottedPage) : SlottedPage × Result Unit :=
  let packed := pack p.buffer p.slots pageBodySize (List.replicate pageBodySize 0)
  checked { p with slots := packed.1, upper := packed.2.1, buffer := packed.2.2 } ()

/-- The value goes below the tuples, into the slot or a new one. -/
def place (p : SlottedPage) (value : ByteString) (deadSlot : Option Nat) : SlottedPage × Result Nat :=
  let upper := p.upper - value.length
  let buffer := splice p.buffer upper value
  match deadSlot with
  | none        =>
    checked { p with buffer := buffer, upper := upper, slots := p.slots ++ [⟨upper, value.length, true⟩] } p.slots.length
  | some slotId =>
    checked { p with buffer := buffer, upper := upper, slots := p.slots.set slotId ⟨upper, value.length, true⟩ } slotId

def insert (p : SlottedPage) (value : ByteString) : SlottedPage × Result Nat :=
  let deadSlot := p.slots.findIdx? (fun s => !s.live)
  let required : Nat := value.length + if deadSlot.isSome then 0 else slotEntrySize
  match (if p.contiguousFreeBytes < required then p.compact else (p, .ok ())) with
  | (p, .error e) => (p, .error e)
  | (p, .ok _)    =>
    if p.contiguousFreeBytes < required then
      (p, raise .pageFull ("tuple needs " ++ toString required ++ " bytes, page has " ++ toString p.contiguousFreeBytes))
    else p.place value deadSlot

def delete (p : SlottedPage) (slotId : Nat) : SlottedPage × Result ByteString :=
  match p.read slotId with
  | .error e  => (p, .error e)
  | .ok value => checked { p with slots := p.slots.set slotId .dead } value

/-- `_BODY_HEADER.pack`. -/
def bodyHeader (p : SlottedPage) : ByteString :=
  slottedMagic ++ beBytes 2 p.slots.length ++ beBytes 2 p.lower ++ beBytes 2 p.upper ++ [0, 0]

def toBytes (p : SlottedPage) : Result ByteString := do
  p.validate
  .ok (splice p.buffer 0 (p.bodyHeader ++ p.slots.flatMap PageSlot.encode))

/-- The loop of `from_bytes` over the directory that is left. -/
def parseSlots : Nat → ByteString → Result (List PageSlot)
  | 0, _              => .ok []
  | count + 1, encoded =>
    if encoded.length < slotEntrySize then raise .structError "unpack_from requires a buffer of at least 8 bytes"
    else if field encoded 4 1 ≠ 0 ∧ field encoded 4 1 ≠ 1 then raise .corruptPage "invalid slot flags"
    else do
      let rest ← parseSlots count (encoded.drop slotEntrySize)
      .ok (⟨field encoded 0 2, field encoded 2 2, decide (field encoded 4 1 = 1)⟩ :: rest)

def fromBytes (pageId : Nat) (body : ByteString) : Result SlottedPage :=
  if body.length ≠ pageBodySize then raise .corruptPage "slotted page body must contain 8148 bytes"
  else if body.take 4 ≠ slottedMagic then raise .corruptPage "invalid slotted page magic"
  else if field body 6 2 ≠ slottedHeaderSize + field body 4 2 * slotEntrySize then raise .corruptPage
    "invalid slotted page bounds"
  else do
    let slots ← parseSlots (field body 4 2) (body.drop slottedHeaderSize)
    match (⟨pageId, body, slots, field body 8 2⟩ : SlottedPage).validate with
    | .error e => .error ⟨.corruptPage, e.message⟩
    | .ok _    => .ok ⟨pageId, body, slots, field body 8 2⟩

/-- `from_bytes(to_bytes())`. -/
def reload (p : SlottedPage) : Result SlottedPage := do
  let body ← p.toBytes
  fromBytes p.pageId body

/-- The longer value goes into a copy that is compacted without the old one. -/
def grow (p : SlottedPage) (slotId : Nat) (value old : ByteString) : SlottedPage × Result ByteString :=
  match p.reload with
  | .error e    => (p, .error e)
  | .ok working =>
    match ({ working with slots := working.slots.set slotId .dead } : SlottedPage).compact with
    | (_, .error e)    => (p, .error e)
    | (working, .ok _) =>
      if working.contiguousFreeBytes < (value.length : Nat) then (p, raise .pageFull "replacement tuple does not fit on the page")
      else
        let upper := working.upper - value.length
        checked { p with
          buffer := splice working.buffer upper value
          slots  := working.slots.set slotId ⟨upper, value.length, true⟩
          upper  := upper } old

def replace (p : SlottedPage) (slotId : Nat) (value : ByteString) : SlottedPage × Result ByteString :=
  match p.liveSlot slotId with
  | .error e => (p, .error e)
  | .ok slot =>
    let old := slice p.buffer slot.offset slot.length
    if value.length ≤ slot.length then
      checked { p with
        buffer := splice p.buffer slot.offset value
        slots  := p.slots.set slotId ⟨slot.offset, value.length, true⟩ } old
    else p.grow slotId value old

def step (p : SlottedPage) : SlotCall → SlottedPage × SlotOutcome
  | .insert value         => ((p.insert value).1, .slot (p.insert value).2)
  | .delete slotId        => ((p.delete slotId).1, .value (p.delete slotId).2)
  | .replace slotId value => ((p.replace slotId value).1, .value (p.replace slotId value).2)
  | .compact              => (p.compact.1, .done p.compact.2)
  | .roundTrip            =>
    match p.reload with
    | .error e => (p, .done (.error e))
    | .ok p    => (p, .done (.ok ()))

end SlottedPage

/-! ## Bytes in place -/

section Splice

variable {buffer value : ByteString} {offset : Nat}

theorem length_splice (h : offset + value.length ≤ buffer.length) : (splice buffer offset value).length = buffer.length := by
  unfold splice
  rw [List.length_append, List.length_append, List.length_take, List.length_drop]
  omega

theorem slice_zero (bytes : ByteString) (o : Nat) : slice bytes o 0 = [] := List.take_zero

theorem slice_splice_self (h : offset ≤ buffer.length) : slice (splice buffer offset value) offset value.length = value := by
  have hlen : (buffer.take offset).length = offset := by rw [List.length_take]; omega
  unfold splice
  rw [List.append_assoc, slice_skip (by omega), hlen, Nat.sub_self, slice_head rfl]

/-- **A write shows only where it is.** -/
theorem slice_splice_of_apart {o width : Nat} (h : offset + value.length ≤ buffer.length)
    (ha : 0 < width → 0 < value.length → o + width ≤ offset ∨ offset + value.length ≤ o) :
    slice (splice buffer offset value) o width = slice buffer o width := by
  have hlen : (buffer.take offset).length = offset := by rw [List.length_take]; omega
  rcases Nat.eq_zero_or_pos width with rfl | hw
  · rw [slice_zero, slice_zero]
  · rcases Nat.eq_zero_or_pos value.length with hv | hv
    · rw [splice, List.eq_nil_of_length_eq_zero hv, List.append_nil, List.length_nil, Nat.add_zero, List.take_append_drop]
    · unfold splice
      rcases ha hw hv with ha | ha
      · rw [← slice_take (n := offset) ha, List.append_assoc, List.take_left' hlen, slice_take ha]
      · rw [slice_skip (by rw [List.length_append, hlen]; exact ha), List.length_append, hlen]
        unfold slice
        rw [List.drop_drop, Nat.add_sub_cancel' ha]

end Splice

/-! ## Well-formed pages -/

/-- Two slots that share no byte. -/
def PageSlot.Apart (a b : PageSlot) : Prop :=
  a.live = true → b.live = true → 0 < a.length → 0 < b.length → a.stop ≤ b.offset ∨ b.stop ≤ a.offset

theorem PageSlot.Apart.symm {a b : PageSlot} (h : a.Apart b) : b.Apart a := fun hb ha hlb hla => (h ha hb hla hlb).symm

namespace SlottedPage

def liveSum (slots : List PageSlot) : Nat := ((slots.filter (·.live)).map (·.length)).sum

def valueOf (buffer : ByteString) (slot : PageSlot) : Option ByteString :=
  if slot.live then some (slice buffer slot.offset slot.length) else none

def directory (p : SlottedPage) : Directory := p.slots.map (valueOf p.buffer)

structure Valid (p : SlottedPage) : Prop where
  size     : p.buffer.length = pageBodySize
  lower_le : p.lower ≤ p.upper
  upper_le : p.upper ≤ pageBodySize
  inside   : ∀ s ∈ p.slots, s.live = true → p.upper ≤ s.offset ∧ s.stop ≤ pageBodySize
  apart    : p.slots.Pairwise PageSlot.Apart
  room     : liveSum p.slots + p.upper ≤ pageBodySize
  dead     : ∀ s ∈ p.slots, s.live = false → s.offset < 2 ^ 16 ∧ s.length < 2 ^ 16

theorem valid_empty (pageId : Nat) : Valid (empty pageId) :=
  ⟨List.length_replicate, show 12 + 0 * 8 ≤ 8148 by decide, Nat.le_refl _, fun _ h => (by cases h), .nil,
    show 0 + 8148 ≤ 8148 by decide, fun _ h => (by cases h)⟩

/-! ### Validation -/

theorem overlap_eq_false : ∀ (l : List (Nat × Nat)), l.Pairwise (fun a b => extentLe a b = true) →
    (∀ a ∈ l, a.1 < a.2) → l.Pairwise (fun a b => a.2 ≤ b.1 ∨ b.2 ≤ a.1) → overlap l = false
  | [], _, _, _                => rfl
  | [_], _, _, _               => rfl
  | a :: b :: rest, hs, hn, hd => by
    have hab := List.rel_of_pairwise_cons hs List.mem_cons_self
    have hd' := List.rel_of_pairwise_cons hd List.mem_cons_self
    have hb := hn b (List.mem_cons_of_mem _ List.mem_cons_self)
    rw [overlap, overlap_eq_false (b :: rest) (List.Pairwise.of_cons hs) (fun c hc => hn c (List.mem_cons_of_mem _ hc))
      (List.Pairwise.of_cons hd), Bool.or_false]
    simp only [extentLe, decide_eq_true_eq] at hab
    exact decide_eq_false (by omega)

theorem extents_apart {slots : List PageSlot} (h : slots.Pairwise PageSlot.Apart) :
    (extents slots).Pairwise (fun a b => a.2 ≤ b.1 ∨ b.2 ≤ a.1) := by
  unfold extents
  rw [List.pairwise_map]
  refine (h.filter _).imp_of_mem (fun {a b} ha hb hab => ?_)
  simp only [List.mem_filter, Bool.and_eq_true, decide_eq_true_eq] at ha hb
  exact hab ha.2.1 hb.2.1 ha.2.2 hb.2.2

/-- **A well-formed page passes its own check.** -/
theorem Valid.validate {p : SlottedPage} (h : Valid p) : p.validate = .ok () := by
  have hle := h.lower_le
  have hlower : slottedHeaderSize ≤ p.lower := Nat.le_add_right _ _
  unfold SlottedPage.validate
  rw [if_neg (by rw [h.size]; simp), if_neg (by rw [not_not]; exact ⟨hlower, hle, h.upper_le⟩), if_neg, if_neg]
  · rw [overlap_eq_false]
    · simp
    · exact List.pairwise_mergeSort (fun a b c hab hbc => by simp only [extentLe, decide_eq_true_eq] at *; omega)
        (fun a b => by simp only [extentLe, Bool.or_eq_true, decide_eq_true_eq]; omega) _
    · intro a ha
      rw [(List.mergeSort_perm _ _).mem_iff, extents] at ha
      obtain ⟨s, hs, rfl⟩ := List.mem_map.1 ha
      simp only [List.mem_filter, Bool.and_eq_true, decide_eq_true_eq] at hs
      simp only [PageSlot.stop]
      omega
    · exact ((List.mergeSort_perm _ _).pairwise_iff (fun {a b} hab => hab.symm)).2 (extents_apart h.apart)
  · rw [Bool.not_eq_true, List.any_eq_false]
    intro s hs
    simp only [Bool.and_eq_true, decide_eq_true_eq, not_and]
    intro hlive
    have := h.inside s hs hlive
    omega

theorem Valid.checked {α : Type} {p : SlottedPage} (h : Valid p) (result : α) :
    SlottedPage.checked p result = (p, .ok result) := by
  unfold SlottedPage.checked
  rw [h.validate]

/-! ### Compaction -/

@[simp] theorem liveSum_nil : liveSum [] = 0 := rfl

theorem liveSum_cons (a : PageSlot) (l : List PageSlot) : liveSum (a :: l) = (if a.live then a.length else 0) + liveSum l := by
  unfold liveSum
  rw [List.filter_cons]
  split
  · rw [List.map_cons, List.sum_cons]
  · rw [Nat.zero_add]

theorem liveSum_append (a b : List PageSlot) : liveSum (a ++ b) = liveSum a + liveSum b := by
  simp only [liveSum, List.filter_append, List.map_append, List.sum_append]

theorem liveSum_set : ∀ (slots : List PageSlot) (i : Nat) (s old : PageSlot), slots[i]? = some old →
    liveSum (slots.set i s) + (if old.live then old.length else 0) = liveSum slots + if s.live then s.length else 0
  | [], _, _, _, h          => by cases h
  | a :: l, 0, s, old, h    => by
    cases h
    simp only [List.set_cons_zero, liveSum_cons]
    omega
  | a :: l, i + 1, s, old, h => by
    have ih := liveSum_set l i s old h
    simp only [List.set_cons_succ, liveSum_cons]
    omega

/-- What the loop of `compact` leaves of the slots it packs below `cursor`. -/
structure Packed (buffer : ByteString) (slots : List PageSlot) (cursor : Nat) (compacted : ByteString)
    (packed : List PageSlot × Nat × ByteString) : Prop where
  cursor_eq : packed.2.1 + liveSum slots = cursor
  size      : packed.2.2.length = compacted.length
  above     : ∀ o width, cursor ≤ o → slice packed.2.2 o width = slice compacted o width
  values    : packed.1.map (valueOf packed.2.2) = slots.map (valueOf buffer)
  inside    : ∀ s ∈ packed.1, s.live = true → packed.2.1 ≤ s.offset ∧ s.stop ≤ cursor
  apart     : packed.1.Pairwise PageSlot.Apart
  dead      : ∀ s ∈ packed.1, s.live = false → s ∈ slots
  sum       : liveSum packed.1 = liveSum slots

/-- **The tuples are packed from the end, and each slot keeps its value.** -/
theorem pack_packed (buffer : ByteString) : ∀ (slots : List PageSlot) (cursor : Nat) (compacted : ByteString),
    (∀ s ∈ slots, s.live = true → s.stop ≤ buffer.length) → liveSum slots ≤ cursor → cursor ≤ compacted.length →
    Packed buffer slots cursor compacted (pack buffer slots cursor compacted)
  | [], cursor, compacted, _, _, _ =>
    ⟨rfl, rfl, fun _ _ _ => rfl, rfl, fun _ h => (by cases h), .nil, fun _ h => (by cases h), rfl⟩
  | s :: rest, cursor, compacted, hin, hsum, hcur => by
    rw [liveSum_cons] at hsum
    have hrest : ∀ t ∈ rest, t.live = true → t.stop ≤ buffer.length := fun t ht => hin t (List.mem_cons_of_mem _ ht)
    unfold pack
    split
    · rename_i hlive
      rw [if_pos hlive] at hsum
      have hlen : (slice buffer s.offset s.length).length = s.length := length_slice (hin s List.mem_cons_self hlive)
      have hfit : cursor - s.length + (slice buffer s.offset s.length).length ≤ compacted.length := by omega
      simp only [hlen]
      have ih := pack_packed buffer rest (cursor - s.length)
        (splice compacted (cursor - s.length) (slice buffer s.offset s.length))
        hrest (by omega) (by rw [length_splice hfit]; omega)
      have hself : slice (splice compacted (cursor - s.length) (slice buffer s.offset s.length)) (cursor - s.length)
          (slice buffer s.offset s.length).length = slice buffer s.offset s.length := slice_splice_self (by omega)
      rw [hlen] at hself
      refine ⟨?_, ?_, fun o width ho => ?_, ?_, fun t ht hl => ?_, ?_, fun t ht hl => ?_, ?_⟩
      · have := ih.cursor_eq
        rw [liveSum_cons, if_pos hlive]
        simp only at this ⊢
        omega
      · rw [ih.size, length_splice hfit]
      · rw [ih.above o width (by omega), slice_splice_of_apart hfit (fun _ _ => .inr (by omega))]
      · simp only [List.map_cons, ih.values, valueOf, if_pos, hlive]
        rw [ih.above _ _ (Nat.le_refl _), hself]
      · rcases List.mem_cons.1 ht with rfl | ht
        · have := ih.cursor_eq
          simp only [PageSlot.stop] at this ⊢
          omega
        · have := ih.inside t ht hl
          simp only at this ⊢
          omega
      · refine List.pairwise_cons.2 ⟨fun t ht hl hl' _ _ => .inr ?_, ih.apart⟩
        exact (ih.inside t ht hl').2
      · rcases List.mem_cons.1 ht with rfl | ht
        · cases hl
        · exact List.mem_cons_of_mem _ (ih.dead t ht hl)
      · rw [liveSum_cons, liveSum_cons, if_pos hlive, ih.sum]
        rfl
    · rename_i hlive
      rw [if_neg hlive] at hsum
      have ih := pack_packed buffer rest cursor compacted hrest (by omega) hcur
      refine ⟨?_, ih.size, ih.above, ?_, fun t ht hl => ?_, ?_, fun t ht hl => ?_, ?_⟩
      · rw [liveSum_cons, if_neg hlive, Nat.zero_add]
        exact ih.cursor_eq
      · simp only [List.map_cons, ih.values, valueOf, if_neg hlive]
      · rcases List.mem_cons.1 ht with rfl | ht
        · exact absurd hl hlive
        · exact ih.inside t ht hl
      · exact List.pairwise_cons.2 ⟨fun t _ hl => absurd hl hlive, ih.apart⟩
      · rcases List.mem_cons.1 ht with rfl | ht
        · exact List.mem_cons_self
        · exact List.mem_cons_of_mem _ (ih.dead t ht hl)
      · rw [liveSum_cons, liveSum_cons, ih.sum]

theorem availableFreeBytes_eq (p : SlottedPage) : p.availableFreeBytes = (pageBodySize : Int) - p.lower - liveSum p.slots := rfl

/-- **Compaction keeps every value** and leaves all free bytes in one piece. -/
theorem Valid.compact {p : SlottedPage} (h : Valid p) : ∃ q, p.compact = (q, .ok ()) ∧ Valid q ∧ q.directory = p.directory ∧
    q.slots.length = p.slots.length ∧ q.pageId = p.pageId ∧ liveSum q.slots = liveSum p.slots ∧
    q.upper + liveSum p.slots = pageBodySize := by
  have hroom := h.room
  have hlow := h.lower_le
  have hpack := pack_packed p.buffer p.slots pageBodySize (List.replicate pageBodySize 0)
    (fun s hs hl => by rw [h.size]; exact (h.inside s hs hl).2) (by omega) (by rw [List.length_replicate])
  have hlen : (pack p.buffer p.slots pageBodySize (List.replicate pageBodySize 0)).1.length = p.slots.length := by
    have := congrArg List.length hpack.values
    rwa [List.length_map, List.length_map] at this
  have hcur := hpack.cursor_eq
  have hvalid : Valid ⟨p.pageId, (pack p.buffer p.slots pageBodySize (List.replicate pageBodySize 0)).2.2,
      (pack p.buffer p.slots pageBodySize (List.replicate pageBodySize 0)).1,
      (pack p.buffer p.slots pageBodySize (List.replicate pageBodySize 0)).2.1⟩ := by
    refine ⟨by rw [hpack.size, List.length_replicate], ?_, by simp only; omega, hpack.inside, hpack.apart, ?_,
      fun s hs hl => h.dead s (hpack.dead s hs hl) hl⟩
    · simp only [lower, hlen] at hlow ⊢
      omega
    · simp only [hpack.sum]
      omega
  exact ⟨_, hvalid.checked (), hvalid, hpack.values, hlen, rfl, hpack.sum, hcur⟩

/-! ### Writing a slot -/

theorem pairwise_set {α : Type} {R : α → α → Prop} (hR : ∀ {a b}, R a b → R b a) : ∀ (l : List α) (i : Nat) (a : α),
    l.Pairwise R → (∀ j b, j ≠ i → l[j]? = some b → R a b) → (l.set i a).Pairwise R
  | [], _, _, h, _        => h
  | b :: l, 0, a, h, ha   => by
    refine List.pairwise_cons.2 ⟨fun c hc => ?_, (List.pairwise_cons.1 h).2⟩
    obtain ⟨j, hj⟩ := List.mem_iff_getElem?.1 hc
    exact ha (j + 1) c (Nat.succ_ne_zero j) hj
  | b :: l, i + 1, a, h, ha => by
    obtain ⟨hb, hl⟩ := List.pairwise_cons.1 h
    refine List.pairwise_cons.2 ⟨fun c hc => ?_, pairwise_set hR l i a hl (fun j c hj hc => ha (j + 1) c (by omega) hc)⟩
    rcases List.mem_or_eq_of_mem_set hc with hc | rfl
    · exact hb c hc
    · exact hR (ha 0 b (Nat.succ_ne_zero i).symm rfl)

/-- **A value written beside the other tuples** goes into its slot and into no other. -/
theorem Valid.write {p : SlottedPage} (h : Valid p) (offset upper : Nat) (value : ByteString) {i : Nat} {old : PageSlot}
    (hi : p.slots[i]? = some old) (hend : offset + value.length ≤ pageBodySize) (hlow : p.lower ≤ upper) (hup : upper ≤ p.upper)
    (hoff : upper ≤ offset) (hroom : liveSum (p.slots.set i ⟨offset, value.length, true⟩) + upper ≤ pageBodySize)
    (hapart : ∀ j s, j ≠ i → p.slots[j]? = some s → (⟨offset, value.length, true⟩ : PageSlot).Apart s) :
    Valid ⟨p.pageId, splice p.buffer offset value, p.slots.set i ⟨offset, value.length, true⟩, upper⟩ ∧
      (⟨p.pageId, splice p.buffer offset value, p.slots.set i ⟨offset, value.length, true⟩, upper⟩ : SlottedPage).directory =
        p.directory.set i (some value) := by
  have hilt : i < p.slots.length := (List.getElem?_eq_some_iff.1 hi).1
  have hfit : offset + value.length ≤ p.buffer.length := by rw [h.size]; exact hend
  refine ⟨⟨by rw [length_splice hfit]; exact h.size, ?_, Nat.le_trans hup h.upper_le, fun s hs hl => ?_,
    pairwise_set PageSlot.Apart.symm _ _ _ h.apart hapart, hroom, fun s hs hl => ?_⟩, ?_⟩
  · simp only [lower, List.length_set] at hlow ⊢
    exact hlow
  · rcases List.mem_or_eq_of_mem_set hs with hs | rfl
    · have := h.inside s hs hl
      simp only
      omega
    · exact ⟨hoff, hend⟩
  · rcases List.mem_or_eq_of_mem_set hs with hs | rfl
    · exact h.dead s hs hl
    · cases hl
  · refine List.ext_getElem? (fun j => ?_)
    simp only [directory, List.getElem?_map, List.getElem?_set, List.length_map]
    by_cases hj : i = j
    · rw [if_pos hj, if_pos hj, if_pos (hj ▸ hilt), if_pos (hj ▸ hilt), Option.map_some]
      simp only [valueOf, if_true]
      rw [slice_splice_self (by omega)]
    · rw [if_neg hj, if_neg hj]
      cases hs : p.slots[j]? with
      | none => rfl
      | some s =>
        simp only [Option.map_some, valueOf]
        split
        · rename_i hl
          rw [slice_splice_of_apart hfit (fun hw hv => ?_)]
          exact ((hapart j s (Ne.symm hj) hs) rfl hl hv hw).symm
        · rfl

theorem Valid.extend {p : SlottedPage} (h : Valid p) (hlow : p.lower + slotEntrySize ≤ p.upper) :
    Valid { p with slots := p.slots ++ [.dead] } ∧
      ({ p with slots := p.slots ++ [.dead] } : SlottedPage).directory = p.directory ++ [none] := by
  refine ⟨⟨h.size, ?_, h.upper_le, fun s hs hl => ?_, ?_, ?_, fun s hs hl => ?_⟩, ?_⟩
  · simp only [lower, List.length_append, List.length_singleton, Nat.add_mul] at hlow ⊢
    omega
  · rcases List.mem_append.1 hs with hs | hs
    · exact h.inside s hs hl
    · rw [List.mem_singleton.1 hs] at hl
      cases hl
  · refine List.pairwise_append.2 ⟨h.apart, List.pairwise_singleton _ _, fun a _ b hb _ hl => ?_⟩
    rw [List.mem_singleton.1 hb] at hl
    cases hl
  · rw [liveSum_append]
    exact h.room
  · rcases List.mem_append.1 hs with hs | hs
    · exact h.dead s hs hl
    · rw [List.mem_singleton.1 hs]
      decide
  · simp only [directory, List.map_append, List.map_cons, List.map_nil, valueOf, PageSlot.dead, Bool.false_eq_true, if_false]

theorem Valid.kill {p : SlottedPage} (h : Valid p) {i : Nat} {old : PageSlot} (hi : p.slots[i]? = some old) :
    Valid { p with slots := p.slots.set i .dead } ∧
      ({ p with slots := p.slots.set i .dead } : SlottedPage).directory = p.directory.set i none := by
  have hsum := liveSum_set p.slots i .dead old hi
  have hroom := h.room
  refine ⟨⟨h.size, ?_, h.upper_le, fun s hs hl => ?_, ?_, ?_, fun s hs hl => ?_⟩, ?_⟩
  · simp only [lower, List.length_set]
    exact h.lower_le
  · rcases List.mem_or_eq_of_mem_set hs with hs | rfl
    · exact h.inside s hs hl
    · cases hl
  · exact pairwise_set PageSlot.Apart.symm _ _ _ h.apart (fun _ _ _ _ hl => (by cases hl))
  · simp only [PageSlot.dead, Bool.false_eq_true, if_false] at hsum ⊢
    omega
  · rcases List.mem_or_eq_of_mem_set hs with hs | rfl
    · exact h.dead s hs hl
    · decide
  · simp only [directory, List.map_set, valueOf, PageSlot.dead, Bool.false_eq_true, if_false]

/-! ## The calls refine those of the directory -/

theorem length_directory (p : SlottedPage) : p.directory.length = p.slots.length := List.length_map _

theorem findIdx_directory (p : SlottedPage) : p.directory.findIdx? Option.isNone = p.slots.findIdx? (fun s => !s.live) := by
  unfold directory
  rw [List.findIdx?_map]
  congr 1
  funext s
  simp only [Function.comp, valueOf]
  cases s.live <;> rfl

theorem growth_directory (p : SlottedPage) :
    p.directory.growth = if (p.slots.findIdx? (fun s => !s.live)).isSome then 0 else slotEntrySize := by
  rw [Directory.growth, ← findIdx_directory, List.findIdx?_isSome]

theorem sum_values (buffer : ByteString) : ∀ (slots : List PageSlot), (∀ s ∈ slots, s.live = true → s.stop ≤ buffer.length) →
    Directory.liveBytes (slots.map (valueOf buffer)) = liveSum slots
  | [], _        => rfl
  | s :: rest, h => by
    have ih := sum_values buffer rest (fun t ht => h t (List.mem_cons_of_mem _ ht))
    unfold Directory.liveBytes at ih ⊢
    rw [liveSum_cons, List.map_cons, List.map_cons, List.sum_cons, ih, valueOf]
    split
    · rename_i hl
      rw [Option.getD_some, length_slice (h s List.mem_cons_self hl)]
    · rfl

theorem Valid.free {p : SlottedPage} (h : Valid p) : p.directory.free = p.availableFreeBytes := by
  have hsum := sum_values p.buffer p.slots (fun s hs hl => by rw [h.size]; exact (h.inside s hs hl).2)
  rw [Directory.free, availableFreeBytes_eq, length_directory, directory, hsum]
  rfl

/-- **A value that fits goes into the lowest dead slot or a new one.** -/
theorem Valid.place {p : SlottedPage} (h : Valid p) (value : ByteString) {deadSlot : Option Nat}
    (hd : p.slots.findIdx? (fun s => !s.live) = deadSlot)
    (hfit : (value.length : Nat) + (if deadSlot.isSome then 0 else slotEntrySize : Nat) ≤ p.contiguousFreeBytes) :
    ∃ q i, p.place value deadSlot = (q, .ok i) ∧ Valid q ∧ q.pageId = p.pageId ∧ p.directory.put value = (q.directory, i) := by
  have hfind := (findIdx_directory p).trans hd
  have hroom := h.room
  have hup := h.upper_le
  unfold contiguousFreeBytes at hfit
  cases deadSlot with
  | some i =>
    obtain ⟨hi, hdead, -⟩ := List.findIdx?_eq_some_iff_getElem.1 hd
    have hget : p.slots[i]? = some p.slots[i] := List.getElem?_eq_getElem hi
    have hnot : p.slots[i].live = false := by simpa using hdead
    simp only [Option.isSome_some, if_true] at hfit
    have hsum := liveSum_set p.slots i ⟨p.upper - value.length, value.length, true⟩ _ hget
    simp only [hnot, Bool.false_eq_true, if_false, if_true] at hsum
    obtain ⟨hvalid, hdir⟩ := h.write (p.upper - value.length) (p.upper - value.length) value hget
      (by omega) (by omega) (by omega) (Nat.le_refl _) (by omega) (fun j s _ hs _ hl _ _ => .inl (by
        have := h.inside s (List.mem_of_getElem? hs) hl
        simp only [PageSlot.stop]
        omega))
    exact ⟨_, i, hvalid.checked i, hvalid, rfl, by rw [hdir, Directory.put, hfind]⟩
  | none =>
    simp only [Option.isSome_none, Bool.false_eq_true, if_false] at hfit
    have hlow : p.lower + slotEntrySize ≤ p.upper := by omega
    obtain ⟨hext, hdirext⟩ := h.extend hlow
    have hget : (p.slots ++ [PageSlot.dead])[p.slots.length]? = some .dead := List.getElem?_concat_length
    have hsum := liveSum_set (p.slots ++ [PageSlot.dead]) p.slots.length ⟨p.upper - value.length, value.length, true⟩ _ hget
    simp only [PageSlot.dead, liveSum_append, liveSum_cons, liveSum_nil, Bool.false_eq_true, if_false,
      if_true, Nat.add_zero] at hsum
    have hset : ∀ {α : Type} (l : List α) (a b : α), (l ++ [a]).set l.length b = l ++ [b] := by
      intro α l a b
      rw [List.set_append_right _ _ (Nat.le_refl _), Nat.sub_self]
      rfl
    obtain ⟨hvalid, hdir⟩ := hext.write (p.upper - value.length) (p.upper - value.length) value hget
      (by omega) (by simp only [lower, List.length_append, List.length_singleton, Nat.add_mul] at hlow hfit ⊢; omega)
      (by simp only; omega) (Nat.le_refl _) (by simp only [PageSlot.dead]; omega) (fun j s _ hs _ hl _ _ => .inl (by
        have := hext.inside s (List.mem_of_getElem? hs) hl
        simp only [PageSlot.stop] at this ⊢
        omega))
    rw [hdirext, ← length_directory, hset, length_directory, hset] at hdir
    rw [hset] at hvalid
    refine ⟨_, p.slots.length, hvalid.checked p.slots.length, hvalid, rfl, ?_⟩
    rw [hdir, Directory.put, hfind, length_directory]

/-- A call on a page does what it does on the directory. -/
structure Refines {α : Type} (p : SlottedPage) (result : SlottedPage × Result α) (spec : Directory × Result α) : Prop where
  valid     : Valid result.1
  pageId    : result.1.pageId = p.pageId
  directory : result.1.directory = spec.1
  result    : result.2 = spec.2

theorem Valid.insert {p : SlottedPage} (h : Valid p) (value : ByteString) :
    Refines p (p.insert value) (p.directory.insert value) := by
  have hle : p.contiguousFreeBytes ≤ p.availableFreeBytes := by
    have := h.room
    rw [contiguousFreeBytes, availableFreeBytes_eq]
    omega
  unfold SlottedPage.insert Directory.insert
  rw [h.free, growth_directory]
  simp only
  generalize hd : p.slots.findIdx? (fun s => !s.live) = deadSlot
  generalize hgr : (if deadSlot.isSome then 0 else slotEntrySize) = growth
  by_cases hc : p.contiguousFreeBytes < (value.length + growth : Nat)
  · obtain ⟨q, hq, hvalid, hdir, hlen, hid, hsum, hup⟩ := h.compact
    have hcont : q.contiguousFreeBytes = p.availableFreeBytes := by
      rw [contiguousFreeBytes, availableFreeBytes_eq, lower, lower, hlen]
      omega
    have hdq : q.slots.findIdx? (fun s => !s.live) = deadSlot := by rw [← findIdx_directory, hdir, findIdx_directory, hd]
    rw [if_pos hc, hq]
    simp only [hcont]
    split
    · exact ⟨hvalid, hid, hdir, rfl⟩
    · rename_i hfit
      obtain ⟨r, i, hr, hrv, hrid, hput⟩ := hvalid.place value hdq (by rw [hcont, hgr]; omega)
      rw [hdir] at hput
      rw [hr, hput]
      exact ⟨hrv, hrid.trans hid, rfl, rfl⟩
  · rw [if_neg hc]
    simp only [if_neg hc]
    rw [if_neg (by omega)]
    obtain ⟨r, i, hr, hrv, hrid, hput⟩ := h.place value hd (by rw [hgr]; omega)
    rw [hr, hput]
    exact ⟨hrv, hrid, rfl, rfl⟩

theorem read_directory (p : SlottedPage) (slotId : Nat) : p.directory.read slotId = p.read slotId := by
  unfold Directory.read SlottedPage.read liveSlot directory
  rw [List.getElem?_map]
  cases p.slots[slotId]? with
  | none => rfl
  | some s =>
    simp only [Option.map_some, valueOf]
    cases s.live <;> rfl

theorem liveSlot_ok {p : SlottedPage} {slotId : Nat} {slot : PageSlot} (h : p.liveSlot slotId = .ok slot) :
    p.slots[slotId]? = some slot ∧ slot.live = true := by
  unfold liveSlot at h
  split at h
  · exact absurd h raise_ne_ok
  · rename_i s hs
    split at h
    · rename_i hl
      cases h
      exact ⟨hs, hl⟩
    · exact absurd h raise_ne_ok

theorem Valid.delete {p : SlottedPage} (h : Valid p) (slotId : Nat) :
    Refines p (p.delete slotId) (p.directory.delete slotId) := by
  unfold SlottedPage.delete Directory.delete
  rw [read_directory]
  cases hr : p.read slotId with
  | error e => exact ⟨h, rfl, rfl, rfl⟩
  | ok value =>
    obtain ⟨slot, hslot, -⟩ := bind_eq_ok.1 hr
    obtain ⟨hvalid, hdir⟩ := h.kill (liveSlot_ok hslot).1
    simp only
    rw [hvalid.checked]
    exact ⟨hvalid, rfl, hdir, rfl⟩

/-! ### The round trip -/

theorem parseSlots_encode (rest : ByteString) : ∀ (slots : List PageSlot),
    (∀ s ∈ slots, s.offset < 2 ^ 16 ∧ s.length < 2 ^ 16) →
    parseSlots slots.length (slots.flatMap PageSlot.encode ++ rest) = .ok slots
  | [], _             => rfl
  | s :: slots, h => by
    obtain ⟨ho, hl⟩ := h s List.mem_cons_self
    have hlen : s.encode.length = 8 := by simp [PageSlot.encode]
    have hoff : field (s.encode ++ (slots.flatMap PageSlot.encode ++ rest)) 0 2 = s.offset := by
      rw [field_eq, PageSlot.encode, List.append_assoc, List.append_assoc, List.append_assoc, slice_head (length_beBytes _ _),
        beNat_beBytes _ _ (by omega)]
    have hlength : field (s.encode ++ (slots.flatMap PageSlot.encode ++ rest)) 2 2 = s.length := by
      rw [field_eq, PageSlot.encode, List.append_assoc, List.append_assoc, List.append_assoc,
        slice_skip (by rw [length_beBytes]), length_beBytes, slice_head (length_beBytes _ _), beNat_beBytes _ _ (by omega)]
    have hflags : field (s.encode ++ (slots.flatMap PageSlot.encode ++ rest)) 4 1 = if s.live then 1 else 0 := by
      rw [field_eq, PageSlot.encode, List.append_assoc, List.append_assoc, List.append_assoc,
        slice_skip (by rw [length_beBytes]; omega), length_beBytes, slice_skip (by rw [length_beBytes]), length_beBytes,
        slice_head (length_beBytes _ _), beNat_beBytes _ _ (by split <;> omega)]
    have hdrop : (s.encode ++ (slots.flatMap PageSlot.encode ++ rest)).drop slotEntrySize =
      slots.flatMap PageSlot.encode ++ rest :=
      List.drop_left' hlen
    rw [List.flatMap_cons, List.append_assoc, List.length_cons, parseSlots, hoff, hlength, hflags, hdrop,
      parseSlots_encode rest slots (fun t ht => h t (List.mem_cons_of_mem _ ht)),
      if_neg (by rw [List.length_append, hlen]; simp only [slotEntrySize]; omega), if_neg (by cases s.live <;> decide)]
    obtain ⟨offset, length, live⟩ := s
    cases live <;> rfl

theorem length_header (p : SlottedPage) : (p.bodyHeader ++ p.slots.flatMap PageSlot.encode).length = p.lower := by
  have hslots : ∀ slots : List PageSlot, (slots.flatMap PageSlot.encode).length = slots.length * slotEntrySize := by
    intro slots
    rw [List.length_flatMap]
    simp [PageSlot.encode, slotEntrySize]
  rw [List.length_append, hslots, lower]
  simp [bodyHeader, slottedMagic, slottedHeaderSize]

/-- **What `to_bytes` writes, `from_bytes` reads**: the same slots, and the same bytes behind the directory. -/
theorem Valid.reload {p : SlottedPage} (h : Valid p) :
    ∃ body, p.toBytes = .ok body ∧ fromBytes p.pageId body = .ok { p with buffer := body } ∧
    Valid { p with buffer := body } ∧ ({ p with buffer := body } : SlottedPage).directory = p.directory := by
  have hlen := p.length_header
  have hlow := h.lower_le
  have hup := h.upper_le
  have hbody : pageBodySize = 8148 := rfl
  have hfit : 0 + (p.bodyHeader ++ p.slots.flatMap PageSlot.encode).length ≤ p.buffer.length := by rw [hlen, h.size]; omega
  have hvalid : Valid { p with buffer := splice p.buffer 0 (p.bodyHeader ++ p.slots.flatMap PageSlot.encode) } :=
    ⟨(length_splice hfit).trans h.size, h.lower_le, h.upper_le, h.inside, h.apart, h.room, h.dead⟩
  refine ⟨_, by rw [toBytes, h.validate]; rfl, ?_, hvalid, ?_⟩
  · have heq : splice p.buffer 0 (p.bodyHeader ++ p.slots.flatMap PageSlot.encode) =
        slottedMagic ++ (beBytes 2 p.slots.length ++ (beBytes 2 p.lower ++ (beBytes 2 p.upper ++ ([0, 0] ++
          (p.slots.flatMap PageSlot.encode ++ p.buffer.drop p.lower))))) := by
      rw [splice, List.take_zero, List.nil_append, Nat.zero_add, hlen, bodyHeader]
      simp only [List.append_assoc]
    have hsmall : ∀ s ∈ p.slots, s.offset < 2 ^ 16 ∧ s.length < 2 ^ 16 := fun s hs => by
      by_cases hl : s.live = true
      · have := (h.inside s hs hl).2
        simp only [PageSlot.stop] at this
        omega
      · exact h.dead s hs (by simpa using hl)
    have hmagic : slottedMagic.length = 4 := rfl
    have hcount : field (splice p.buffer 0 (p.bodyHeader ++ p.slots.flatMap PageSlot.encode)) 4 2 = p.slots.length := by
      rw [field_eq, heq, slice_skip (by rw [hmagic]), hmagic, slice_head (length_beBytes _ _), beNat_beBytes _ _ ?_]
      simp only [lower, slotEntrySize] at hlow
      omega
    have hlower : field (splice p.buffer 0 (p.bodyHeader ++ p.slots.flatMap PageSlot.encode)) 6 2 = p.lower := by
      rw [field_eq, heq, slice_skip (by rw [hmagic]; omega), hmagic, slice_skip (by rw [length_beBytes]), length_beBytes,
        slice_head (length_beBytes _ _), beNat_beBytes _ _ (by omega)]
    have hupper : field (splice p.buffer 0 (p.bodyHeader ++ p.slots.flatMap PageSlot.encode)) 8 2 = p.upper := by
      rw [field_eq, heq, slice_skip (by rw [hmagic]; omega), hmagic, slice_skip (by rw [length_beBytes]; omega), length_beBytes,
        slice_skip (by rw [length_beBytes]), length_beBytes, slice_head (length_beBytes _ _), beNat_beBytes _ _ (by omega)]
    have hdrop : (splice p.buffer 0 (p.bodyHeader ++ p.slots.flatMap PageSlot.encode)).drop slottedHeaderSize =
        p.slots.flatMap PageSlot.encode ++ p.buffer.drop p.lower := by
      rw [splice, List.take_zero, List.nil_append, Nat.zero_add, hlen, List.append_assoc]
      exact List.drop_left' (by simp [bodyHeader, slottedMagic, slottedHeaderSize])
    unfold fromBytes
    rw [if_neg (by rw [hvalid.size]; simp), if_neg (by rw [heq]; simp [slottedMagic]),
      if_neg (by rw [hlower, hcount]; simp [lower]),
      hcount, hdrop, parseSlots_encode _ _ hsmall, hupper]
    simp only [bind, Except.bind]
    rw [hvalid.validate]
  · refine List.map_congr_left (fun s hs => ?_)
    simp only [valueOf]
    split
    · rename_i hl
      have := h.inside s hs hl
      rw [slice_splice_of_apart hfit (fun _ _ => .inr (by rw [hlen]; omega))]
    · rfl

/-! ### Replacement -/

theorem apart_of_ne {slots : List PageSlot} (h : slots.Pairwise PageSlot.Apart) {i j : Nat} {a b : PageSlot} (hne : j ≠ i)
    (hi : slots[i]? = some a) (hj : slots[j]? = some b) : a.Apart b := by
  obtain ⟨hil, rfl⟩ := List.getElem?_eq_some_iff.1 hi
  obtain ⟨hjl, rfl⟩ := List.getElem?_eq_some_iff.1 hj
  rcases Nat.lt_or_gt_of_ne hne with hlt | hlt
  · exact (List.pairwise_iff_getElem.1 h j i hjl hil hlt).symm
  · exact List.pairwise_iff_getElem.1 h i j hil hjl hlt

theorem Valid.shrink {p : SlottedPage} (h : Valid p) {i : Nat} {slot : PageSlot} {value : ByteString}
    (hi : p.slots[i]? = some slot) (hl : slot.live = true) (hle : value.length ≤ slot.length) :
    Valid ⟨p.pageId, splice p.buffer slot.offset value, p.slots.set i ⟨slot.offset, value.length, true⟩, p.upper⟩ ∧
      (⟨p.pageId, splice p.buffer slot.offset value, p.slots.set i
        ⟨slot.offset, value.length, true⟩, p.upper⟩ : SlottedPage).directory =
        p.directory.set i (some value) := by
  have hin := h.inside slot (List.mem_of_getElem? hi) hl
  have hsum := liveSum_set p.slots i ⟨slot.offset, value.length, true⟩ slot hi
  have hroom := h.room
  simp only [PageSlot.stop] at hin
  simp only [hl, if_true] at hsum
  refine h.write slot.offset p.upper value hi (by omega) h.lower_le (Nat.le_refl _) hin.1 (by omega) ?_
  intro j s hne hs _ hls hv hw
  simp only at hv
  have := apart_of_ne h.apart hne hi hs hl hls (by omega) hw
  simp only [PageSlot.stop] at this ⊢
  omega

theorem Valid.grow {p : SlottedPage} (h : Valid p) {i : Nat} {slot : PageSlot} (value old : ByteString)
    (hi : p.slots[i]? = some slot) (hl : slot.live = true) : Refines p (p.grow i value old)
      (if p.availableFreeBytes + (slot.length : Nat) < (value.length : Nat) then
        (p.directory, raise .pageFull "replacement tuple does not fit on the page")
      else (p.directory.set i (some value), .ok old)) := by
  obtain ⟨body, hbytes, hparse, hworking, hdirw⟩ := h.reload
  obtain ⟨hkill, hdirk⟩ := hworking.kill (i := i) hi
  obtain ⟨q, hq, hvalid, hdir, hlen, hid, hsum, hup⟩ := hkill.compact
  have hdirq : q.directory = p.directory.set i none := by rw [hdir, hdirk, hdirw]
  have hkilled := liveSum_set p.slots i .dead slot hi
  simp only [hl, PageSlot.dead, if_true, Bool.false_eq_true, if_false] at hkilled
  simp only [PageSlot.dead] at hsum hup
  have hlow : q.lower = p.lower := by
    rw [lower, hlen, List.length_set]
    rfl
  have hcont : q.contiguousFreeBytes = p.availableFreeBytes + (slot.length : Nat) := by
    rw [contiguousFreeBytes, availableFreeBytes_eq, hlow]
    omega
  have hreload : p.reload = .ok { p with buffer := body } := by
    rw [SlottedPage.reload, hbytes]
    exact hparse
  unfold SlottedPage.grow
  rw [hreload]
  simp only
  rw [hq]
  simp only [hcont]
  split
  · exact ⟨h, rfl, rfl, rfl⟩
  · rename_i hfit
    rw [← hcont, contiguousFreeBytes] at hfit
    have hupper := hvalid.upper_le
    have hroom := hvalid.room
    have hilt : i < q.slots.length := by
      rw [hlen, List.length_set]
      exact (List.getElem?_eq_some_iff.1 hi).1
    have hget : q.slots[i]? = some q.slots[i] := List.getElem?_eq_getElem hilt
    have hdead : q.slots[i].live = false := by
      have hat := congrArg (fun d : Directory => d[i]?) hdirq
      simp only [directory, List.getElem?_map, hget, Option.map_some, List.getElem?_set, List.length_map] at hat
      rw [if_pos trivial, if_pos (List.getElem?_eq_some_iff.1 hi).1, valueOf] at hat
      split at hat
      · cases hat
      · rename_i hn
        simpa using hn
    have hset := liveSum_set q.slots i ⟨q.upper - value.length, value.length, true⟩ _ hget
    simp only [hdead, Bool.false_eq_true, if_false, if_true] at hset
    obtain ⟨hw, hdw⟩ := hvalid.write (q.upper - value.length) (q.upper - value.length) value hget (by omega) (by omega) (by omega)
      (Nat.le_refl _) (by omega) (fun j s _ hs _ hls _ _ => .inl (by
        have := hvalid.inside s (List.mem_of_getElem? hs) hls
        simp only [PageSlot.stop]
        omega))
    rw [hdirq, List.set_set] at hdw
    rw [show q.pageId = p.pageId from hid] at hw hdw
    rw [hw.checked]
    exact ⟨hw, rfl, hdw, rfl⟩

theorem Valid.replace {p : SlottedPage} (h : Valid p) (slotId : Nat) (value : ByteString) :
    Refines p (p.replace slotId value) (p.directory.replace slotId value) := by
  have hfree : 0 ≤ p.availableFreeBytes := by
    have := h.room
    have := h.lower_le
    rw [availableFreeBytes_eq]
    omega
  unfold SlottedPage.replace Directory.replace
  rw [read_directory, h.free, SlottedPage.read]
  cases hs : p.liveSlot slotId with
  | error e => exact ⟨h, rfl, rfl, rfl⟩
  | ok slot =>
    obtain ⟨hget, hlive⟩ := liveSlot_ok hs
    have hlen : (slice p.buffer slot.offset slot.length).length = slot.length :=
      length_slice (by rw [h.size]; exact (h.inside slot (List.mem_of_getElem? hget) hlive).2)
    simp only [bind, Except.bind, hlen]
    split
    · rename_i hle
      obtain ⟨hvalid, hdir⟩ := h.shrink hget hlive hle
      rw [hvalid.checked, if_neg (by omega)]
      exact ⟨hvalid, rfl, hdir, rfl⟩
    · exact h.grow value _ hget hlive

/-! ## Runs -/

theorem Valid.step {p : SlottedPage} (h : Valid p) (call : SlotCall) : Valid (p.step call).1 ∧
    ((p.step call).1.directory, (p.step call).2) = p.directory.step call := by
  cases call with
  | insert value =>
    have hr := h.insert value
    exact ⟨hr.valid, by simp only [SlottedPage.step, Directory.step, hr.directory, hr.result]⟩
  | delete slotId =>
    have hr := h.delete slotId
    exact ⟨hr.valid, by simp only [SlottedPage.step, Directory.step, hr.directory, hr.result]⟩
  | replace slotId value =>
    have hr := h.replace slotId value
    exact ⟨hr.valid, by simp only [SlottedPage.step, Directory.step, hr.directory, hr.result]⟩
  | compact =>
    obtain ⟨q, hq, hvalid, hdir, -⟩ := h.compact
    rw [SlottedPage.step, hq, Directory.step, hdir]
    exact ⟨hvalid, rfl⟩
  | roundTrip =>
    obtain ⟨body, hbytes, hparse, hvalid, hdir⟩ := h.reload
    have hreload : p.reload = .ok { p with buffer := body } := by
      rw [SlottedPage.reload, hbytes]
      exact hparse
    rw [SlottedPage.step, hreload, Directory.step]
    exact ⟨hvalid, by rw [hdir]⟩

def run (p : SlottedPage) : List SlotCall → SlottedPage × List SlotOutcome
  | []            => (p, [])
  | call :: calls => (((p.step call).1.run calls).1, (p.step call).2 :: ((p.step call).1.run calls).2)

end SlottedPage

def Directory.run (d : Directory) : List SlotCall → Directory × List SlotOutcome
  | []            => (d, [])
  | call :: calls => ((Directory.run (d.step call).1 calls).1, (d.step call).2 :: (Directory.run (d.step call).1 calls).2)

namespace SlottedPage

theorem Valid.run : ∀ (calls : List SlotCall) (p : SlottedPage), Valid p →
    Valid (p.run calls).1 ∧ ((p.run calls).1.directory, (p.run calls).2) = p.directory.run calls
  | [], _, h            => ⟨h, rfl⟩
  | call :: calls, p, h => by
    obtain ⟨hstep, heq⟩ := h.step call
    obtain ⟨hrun, hruns⟩ := Valid.run calls _ hstep
    rw [Prod.ext_iff] at heq hruns
    refine ⟨hrun, ?_⟩
    rw [SlottedPage.run, Directory.run, ← heq.1, ← heq.2, ← hruns.1, ← hruns.2]

theorem live_directory (p : SlottedPage) : p.directory.live = p.liveSlots := by
  unfold Directory.live liveSlots directory
  rw [List.zipIdx_map, List.filter_map, List.map_map]
  have hfilter : ((fun p : Option ByteString × Nat => p.1.isSome) ∘ Prod.map (valueOf p.buffer) id) = fun s => s.1.live := by
    funext s
    simp only [Function.comp, Prod.map, valueOf]
    cases s.1.live <;> rfl
  rw [hfilter]
  rfl

end SlottedPage

theorem Directory.step_raised (d : Directory) (call : SlotCall) (h : (d.step call).2.raised = true) : (d.step call).1 = d := by
  cases call with
  | insert value =>
    simp only [Directory.step, Directory.insert] at h ⊢
    split
    · rfl
    · rename_i hfit
      rw [if_neg hfit] at h
      cases h
  | delete slotId =>
    simp only [Directory.step, Directory.delete] at h ⊢
    cases hr : d.read slotId with
    | error e => rfl
    | ok old =>
      rw [hr] at h
      cases h
  | replace slotId value =>
    simp only [Directory.step, Directory.replace] at h ⊢
    cases hr : d.read slotId with
    | error e => rfl
    | ok old =>
      rw [hr] at h
      simp only at h ⊢
      split
      · rfl
      · rename_i hfit
        rw [if_neg hfit] at h
        cases h
  | compact => cases h
  | roundTrip => cases h

/-- **A slotted page is a partial map from stable slot IDs to byte strings.**  The run gives what the map gives, the page passes
its check, `PageFull` says what does not fit, and a call that raises changes no slot. -/
theorem slotted_page_map (pageId : Nat) (calls : List SlotCall) : ∃ p d outcomes,
    (SlottedPage.empty pageId).run calls = (p, outcomes) ∧ Directory.run [] calls = (d, outcomes) ∧ p.validate = .ok () ∧
    p.liveSlots = d.live ∧ (∀ slotId, p.read slotId = d.read slotId) ∧
    (∀ value, (∃ m, (p.insert value).2 = raise .pageFull m) ↔
      p.availableFreeBytes < (value.length + if p.slots.any (fun s => !s.live) then 0 else slotEntrySize : Nat)) ∧
    (∀ slotId value old, p.read slotId = .ok old → ((∃ m, (p.replace slotId value).2 = raise .pageFull m) ↔
      p.availableFreeBytes + (old.length : Nat) < (value.length : Nat))) ∧
    ∀ call, (p.step call).2.raised = true → ∀ slotId, (p.step call).1.read slotId = p.read slotId := by
  obtain ⟨hvalid, hrun⟩ := SlottedPage.Valid.run calls _ (SlottedPage.valid_empty pageId)
  generalize hp : (SlottedPage.empty pageId).run calls = result at hvalid hrun
  obtain ⟨p, outcomes⟩ := result
  change SlottedPage.Valid p at hvalid
  change (p.directory, outcomes) = Directory.run [] calls at hrun
  refine ⟨p, p.directory, outcomes, rfl, hrun.symm, hvalid.validate, p.live_directory.symm, fun i => (p.read_directory i).symm,
    fun value => ?_, fun i value old hread => ?_, fun call hraised i => ?_⟩
  · rw [(hvalid.insert value).result, Directory.insert, hvalid.free, SlottedPage.growth_directory, List.findIdx?_isSome]
    generalize (if p.slots.any (fun s => !s.live) then 0 else slotEntrySize) = growth
    split
    · rename_i hfull
      exact ⟨fun _ => hfull, fun _ => ⟨_, rfl⟩⟩
    · rename_i hfit
      exact ⟨fun ⟨_, he⟩ => absurd he.symm raise_ne_ok, fun hfull => absurd hfull hfit⟩
  · rw [(hvalid.replace i value).result, Directory.replace, hvalid.free, p.read_directory, hread]
    simp only
    split
    · rename_i hfull
      exact ⟨fun _ => hfull, fun _ => ⟨_, rfl⟩⟩
    · rename_i hfit
      exact ⟨fun ⟨_, he⟩ => absurd he.symm raise_ne_ok, fun hfull => absurd hfull hfit⟩
  · obtain ⟨-, hstep⟩ := hvalid.step call
    obtain ⟨hdir, hout⟩ := Prod.ext_iff.1 hstep
    simp only at hdir hout
    rw [hout] at hraised
    rw [← SlottedPage.read_directory, hdir, p.directory.step_raised call hraised, SlottedPage.read_directory]

end MiniPostgres
