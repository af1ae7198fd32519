import MiniPostgres.Index
import MiniPostgres.TupleCanonical
import MiniPostgres.Fields
/-!
# BTreePages — the bodies of B+Tree pages

`index/pages.py`, and from `btree.py` the sizes by which a leaf is split.  A metapage, an internal page and a leaf are a packed
header, and behind it the separators or the entries, each with the length of its key.  `Reads` is one direction of the codec,
wherever the bytes stand; `ReadAs` is the other: what was read stands there.
-/
namespace MiniPostgres
namespace BTreePages

open Bytes (beBytes beNat_beBytes length_beBytes)
open CatalogFile (slice_middle field_middle)

/-! ## Pages -/

def metaMagic : ByteString := [0x42, 0x54, 0x4D, 0x31]
def internalMagic : ByteString := [0x42, 0x54, 0x49, 0x31]
def leafMagic : ByteString := [0x42, 0x54, 0x4C, 0x31]
def noPage : Nat := 2 ^ 64 - 1
def metaSize : Nat := 16
def internalSize : Nat := 16
def leafSize : Nat := 24

structure MetaPage where
  rootPageId : Nat
  height     : Nat
  deriving DecidableEq

structure InternalPage where
  keys     : List Key
  children : List Nat
  deriving DecidableEq

structure LeafEntry where
  key : Key
  tid : TID
  deriving DecidableEq

structure LeafPage where
  entries      : List LeafEntry
  leftSibling  : Option Nat
  rightSibling : Option Nat
  deriving DecidableEq

/-! ## Encoding -/

def pageId (value : Nat) (field : String) : Result Nat :=
  if noPage ≤ value then raise .corruptPage ("invalid " ++ field) else .ok value

def appendKey (key : Key) : Result ByteString :=
  if key.length > 65535 then raise .pageFull "BTree key exceeds the page key-length field"
  else .ok (beBytes 2 key.length ++ key)

def bounded (encoded : ByteString) : Result ByteString :=
  if encoded.length > pageBodySize then
    raise .pageFull ("BTree page body is " ++ toString encoded.length ++ " bytes; maximum is " ++ toString pageBodySize)
  else .ok encoded

def encodeMeta (page : MetaPage) : Result ByteString := do
  let root ← pageId page.rootPageId "root page"
  if page.height = 0 ∨ page.height > 65535 then raise .corruptPage "invalid BTree height"
  else .ok (metaMagic ++ beBytes 8 root ++ beBytes 2 page.height ++ [0, 0])

/-- `any(left > right for left, right in pairwise(items))` -/
def descends {α : Type} (greater : α → α → Bool) (items : List α) : Bool := (items.zip items.tail).any (fun p => greater p.1 p.2)

/-- The loop over the separators or the entries. -/
def encodeMany {α : Type} (encode : α → Result ByteString) : List α → Result ByteString
  | []      => .ok []
  | a :: as => do
    let bytes ← encode a
    let rest ← encodeMany encode as
    .ok (bytes ++ rest)

def encodeSeparator (p : Key × Nat) : Result ByteString := do
  let key ← appendKey p.1
  let child ← pageId p.2 "child page"
  .ok (key ++ beBytes 8 child)

def encodeInternal (page : InternalPage) : Result ByteString :=
  if page.children.length ≠ page.keys.length + 1 then raise .corruptPage "internal page children must outnumber keys by one"
  else
    match page.children with
    | []            => raise .corruptPage "internal page has no children"
    | first :: rest =>
      if descends (fun l r => decide (r < l)) page.keys then raise .corruptPage "internal separator keys are not sorted"
      else do
        let child ← pageId first "child page"
        let count ← packField 2 page.keys.length
        let separators ← encodeMany encodeSeparator (page.keys.zip rest)
        bounded (internalMagic ++ count ++ [0, 0] ++ beBytes 8 child ++ separators)

/-- `_entry_order(left) > _entry_order(right)` -/
def entryGreater (l r : LeafEntry) : Bool :=
  decide (r.key < l.key ∨ (l.key = r.key ∧ (r.tid.pageId < l.tid.pageId ∨
    (l.tid.pageId = r.tid.pageId ∧ r.tid.slotId < l.tid.slotId))))

def encodeSibling : Option Nat → Result Nat
  | none    => .ok noPage
  | some id => pageId id "sibling page"

def encodeEntry (entry : LeafEntry) : Result ByteString := do
  let key ← appendKey entry.key
  let page ← pageId entry.tid.pageId "TID page"
  if entry.tid.slotId > 2 ^ 32 - 1 then raise .corruptPage "TID slot is outside the index format"
  else .ok (key ++ beBytes 8 page ++ beBytes 4 entry.tid.slotId)

/-- The encoded leaf, before its size is checked. -/
def encodeLeafBody (page : LeafPage) : Result ByteString :=
  if descends entryGreater page.entries then raise .corruptPage "leaf entries are not sorted"
  else do
    let left ← encodeSibling page.leftSibling
    let right ← encodeSibling page.rightSibling
    let count ← packField 2 page.entries.length
    let entries ← encodeMany encodeEntry page.entries
    .ok (leafMagic ++ beBytes 8 left ++ beBytes 8 right ++ count ++ [0, 0] ++ entries)

def encodeLeaf (page : LeafPage) : Result ByteString := do
  let encoded ← encodeLeafBody page
  bounded encoded

/-! ## Decoding -/

def readKey (body : ByteString) (cursor : Nat) : Result (Key × Nat) :=
  if cursor + 2 > body.length then raise .corruptPage "truncated BTree key length"
  else if cursor + 2 + field body cursor 2 > body.length then raise .corruptPage "truncated BTree key"
  else .ok (slice body (cursor + 2) (field body cursor 2), cursor + 2 + field body cursor 2)

/-- The loop over the separators or the entries of a body. -/
def readMany {α : Type} (read : ByteString → Nat → Result (α × Nat)) : Nat → ByteString → Nat → Result (List α × Nat)
  | 0, _, cursor        => .ok ([], cursor)
  | n + 1, body, cursor => do
    let (a, next) ← read body cursor
    let (as, stop) ← readMany read n body next
    .ok (a :: as, stop)

def readSeparator (body : ByteString) (cursor : Nat) : Result ((Key × Nat) × Nat) := do
  let (key, next) ← readKey body cursor
  if next + 8 > body.length then raise .corruptPage "truncated BTree child pointer"
  else .ok ((key, field body next 8), next + 8)

def readEntry (body : ByteString) (cursor : Nat) : Result (LeafEntry × Nat) := do
  let (key, next) ← readKey body cursor
  if next + 12 > body.length then raise .corruptPage "truncated BTree leaf TID"
  else .ok (⟨key, ⟨field body next 8, field body (next + 8) 4⟩⟩, next + 12)

def decodeMeta (body : ByteString) : Result MetaPage :=
  if body.length ≠ metaSize then raise .corruptPage "truncated or trailing BTree metapage"
  else if slice body 0 4 ≠ metaMagic then raise .corruptPage "invalid BTree metapage magic"
  else do
    let page : MetaPage := ⟨field body 4 8, field body 12 2⟩
    let _ ← encodeMeta page
    .ok page

def decodeInternal (body : ByteString) : Result InternalPage :=
  if body.length < internalSize then raise .corruptPage "truncated BTree internal page"
  else if slice body 0 4 ≠ internalMagic then raise .corruptPage "invalid BTree internal page magic"
  else do
    let (separators, cursor) ← readMany readSeparator (field body 4 2) body internalSize
    if cursor ≠ body.length then raise .corruptPage "BTree internal page has trailing bytes"
    else do
      let page : InternalPage := ⟨separators.map Prod.fst, field body 8 8 :: separators.map Prod.snd⟩
      let _ ← encodeInternal page
      .ok page

def decodeSibling (encoded : Nat) : Option Nat := if encoded = noPage then none else some encoded

def decodeLeaf (body : ByteString) : Result LeafPage :=
  if body.length < leafSize then raise .corruptPage "truncated BTree leaf page"
  else if slice body 0 4 ≠ leafMagic then raise .corruptPage "invalid BTree leaf page magic"
  else do
    let (entries, cursor) ← readMany readEntry (field body 20 2) body leafSize
    if cursor ≠ body.length then raise .corruptPage "BTree leaf page has trailing bytes"
    else do
      let page : LeafPage := ⟨entries, decodeSibling (field body 4 8), decodeSibling (field body 12 8)⟩
      let _ ← encodeLeaf page
      .ok page

/-! ## Where a leaf is split -/

def leafBodySize (entries : List LeafEntry) : Nat := 24 + (entries.map (fun e => 2 + e.key.length + 12)).sum

/-- The positions that leave two leaves of a valid size, each with the difference of the sizes. -/
def splitCandidates (entries : List LeafEntry) : List (Nat × Nat) :=
  ((List.range' 1 (entries.length - 1)).filter (fun position =>
    decide (leafBodySize (entries.take position) ≤ pageBodySize ∧ leafBodySize (entries.drop position) ≤ pageBodySize))).map
      (fun position => (((leafBodySize (entries.take position) : Int) - leafBodySize (entries.drop position)).natAbs, position))

/-- `min(candidates)`: the first of the least. -/
def leastPair (best p : Nat × Nat) : Nat × Nat := if p.1 < best.1 ∨ (p.1 = best.1 ∧ p.2 < best.2) then p else best

def leafSplitPosition (entries : List LeafEntry) : Result Nat :=
  if entries.length < 2 then raise .pageFull "one BTree leaf entry exceeds the page capacity"
  else
    match splitCandidates entries with
    | []      => raise .pageFull "BTree leaf cannot be split into valid pages"
    | c :: cs => .ok (cs.foldl leastPair c).2

/-! ## What is written is read -/

/-- **The reader gives the item**, wherever its bytes stand. -/
def Reads {α : Type} (read : ByteString → Nat → Result (α × Nat)) (a : α) (bytes : ByteString) : Prop :=
  ∀ before behind, read (before ++ bytes ++ behind) before.length = .ok (a, before.length + bytes.length)

theorem appendKey_eq_ok {key : Key} {bytes : ByteString} (h : appendKey key = .ok bytes) :
    key.length ≤ 65535 ∧ bytes = beBytes 2 key.length ++ key := by
  unfold appendKey at h
  split at h
  · exact absurd h raise_ne_ok
  · rename_i hlen
    cases h
    exact ⟨not_lt.1 hlen, rfl⟩

theorem pageId_eq_ok {value id : Nat} {f : String} (h : pageId value f = .ok id) : id = value ∧ value < noPage := by
  unfold pageId at h
  split at h
  · exact absurd h raise_ne_ok
  · rename_i hlt
    cases h
    exact ⟨rfl, not_le.1 hlt⟩

theorem noPage_lt {value : Nat} (h : value < noPage) : value < 256 ^ 8 := lt_trans h (by decide)

theorem reads_key {key : Key} {bytes : ByteString} (h : appendKey key = .ok bytes) : Reads readKey key bytes := by
  obtain ⟨hlen, rfl⟩ := appendKey_eq_ok h
  intro before behind
  have hword : (beBytes 2 key.length).length = 2 := length_beBytes _ _
  have hsplit : before ++ (beBytes 2 key.length ++ key) ++ behind = before ++ beBytes 2 key.length ++ (key ++ behind) := by
    simp only [List.append_assoc]
  have hfield : field (before ++ (beBytes 2 key.length ++ key) ++ behind) before.length 2 = key.length := by
    rw [hsplit, field_middle hword, beNat_beBytes 2 _ (by omega)]
  have hslice : slice (before ++ (beBytes 2 key.length ++ key) ++ behind) (before.length + 2) key.length = key := by
    have hstart : before.length + 2 = (before ++ beBytes 2 key.length).length := by rw [List.length_append, hword]
    rw [hsplit, hstart, ← List.append_assoc]
    exact slice_middle _ _ _
  have htotal : (before ++ (beBytes 2 key.length ++ key) ++ behind).length =
      before.length + (2 + key.length) + behind.length := by
    simp only [List.length_append, hword]
  unfold readKey
  rw [hfield, hslice, if_neg (by omega), if_neg (by omega), List.length_append, hword, Nat.add_assoc]

theorem field_behind (before a behind : ByteString) {x : ByteString} {width offset : Nat} (hx : x.length = width)
    (ho : offset = before.length + a.length) : field (before ++ (a ++ x) ++ behind) offset width = Bytes.beNat x := by
  rw [ho, ← List.length_append, ← List.append_assoc]
  exact field_middle hx

theorem reads_separator {p : Key × Nat} {bytes : ByteString} (h : encodeSeparator p = .ok bytes) :
    Reads readSeparator p bytes := by
  obtain ⟨key, hkey, h⟩ := bind_eq_ok.1 h
  obtain ⟨child, hchild, h⟩ := bind_eq_ok.1 h
  cases h
  obtain ⟨rfl, hlt⟩ := pageId_eq_ok hchild
  intro before behind
  have hread := reads_key hkey before (beBytes 8 p.2 ++ behind)
  have hsplit : before ++ key ++ (beBytes 8 p.2 ++ behind) = before ++ (key ++ beBytes 8 p.2) ++ behind := by
    simp only [List.append_assoc]
  rw [hsplit] at hread
  have hword : (beBytes 8 p.2).length = 8 := length_beBytes _ _
  have hfield := field_behind before key behind hword rfl
  rw [beNat_beBytes 8 _ (noPage_lt hlt)] at hfield
  unfold readSeparator
  rw [hread]
  simp only [bind, Except.bind]
  rw [if_neg (by simp only [List.length_append, hword]; omega), hfield, List.length_append, hword, Nat.add_assoc]

theorem reads_entry {entry : LeafEntry} {bytes : ByteString} (h : encodeEntry entry = .ok bytes) :
    Reads readEntry entry bytes := by
  obtain ⟨key, hkey, h⟩ := bind_eq_ok.1 h
  obtain ⟨page, hpage, h⟩ := bind_eq_ok.1 h
  obtain ⟨rfl, hlt⟩ := pageId_eq_ok hpage
  split at h
  · exact absurd h raise_ne_ok
  rename_i hslot
  cases h
  intro before behind
  have hword : (beBytes 8 entry.tid.pageId).length = 8 := length_beBytes _ _
  have hword4 : (beBytes 4 entry.tid.slotId).length = 4 := length_beBytes _ _
  have hread := reads_key hkey before (beBytes 8 entry.tid.pageId ++ beBytes 4 entry.tid.slotId ++ behind)
  have hsplit : before ++ key ++ (beBytes 8 entry.tid.pageId ++ beBytes 4 entry.tid.slotId ++ behind) =
      before ++ (key ++ beBytes 8 entry.tid.pageId ++ beBytes 4 entry.tid.slotId) ++ behind := by
    simp only [List.append_assoc]
  have hsplit' : before ++ (key ++ beBytes 8 entry.tid.pageId ++ beBytes 4 entry.tid.slotId) ++ behind =
      before ++ (key ++ beBytes 8 entry.tid.pageId) ++ (beBytes 4 entry.tid.slotId ++ behind) := by
    simp only [List.append_assoc]
  rw [hsplit] at hread
  have hpageField := field_behind before key (beBytes 4 entry.tid.slotId ++ behind) hword rfl
  rw [← hsplit', beNat_beBytes 8 _ (noPage_lt hlt)] at hpageField
  have hslotField := field_behind before (key ++ beBytes 8 entry.tid.pageId) behind hword4
    (show before.length + key.length + 8 = _ by rw [List.length_append, hword, Nat.add_assoc])
  rw [beNat_beBytes 4 _ (by omega)] at hslotField
  unfold readEntry
  rw [hread]
  simp only [bind, Except.bind]
  rw [if_neg (by simp only [List.length_append, hword, hword4]; omega), hpageField, hslotField]
  simp only [List.length_append, hword, hword4, Nat.add_assoc]

/-- **The loop reads what the loop wrote.** -/
theorem reads_many {α : Type} {encode : α → Result ByteString} {read : ByteString → Nat → Result (α × Nat)}
    (hread : ∀ {a bytes}, encode a = .ok bytes → Reads read a bytes) : ∀ {as : List α} {bytes : ByteString},
    encodeMany encode as = .ok bytes → Reads (fun body cursor => readMany read as.length body cursor) as bytes
  | [], bytes, h, before, behind      => by
    cases h
    rfl
  | a :: as, bytes, h, before, behind => by
    obtain ⟨x, hx, h⟩ := bind_eq_ok.1 h
    obtain ⟨rest, hrest, h⟩ := bind_eq_ok.1 h
    cases h
    have hfirst := hread hx before (rest ++ behind)
    have hothers := reads_many hread hrest (before ++ x) behind
    simp only at hothers
    show readMany read (as.length + 1) (before ++ (x ++ rest) ++ behind) before.length = _
    rw [show before ++ (x ++ rest) ++ behind = before ++ x ++ (rest ++ behind) by simp only [List.append_assoc], readMany, hfirst]
    simp only [bind, Except.bind]
    rw [List.length_append] at hothers
    rw [show before ++ x ++ (rest ++ behind) = before ++ x ++ rest ++ behind by simp only [List.append_assoc],
      hothers, List.length_append,
      Nat.add_assoc]

/-! ## Round trips -/

theorem slice_magic {magic rest : ByteString} (h : magic.length = 4) : slice (magic ++ rest) 0 4 = magic := slice_head h

theorem decodeMeta_encode {page : MetaPage} {body : ByteString} (h : encodeMeta page = .ok body) :
    decodeMeta body = .ok page := by
  have henc := h
  obtain ⟨root, hroot, h⟩ := bind_eq_ok.1 h
  obtain ⟨rfl, hlt⟩ := pageId_eq_ok hroot
  split at h
  · exact absurd h raise_ne_ok
  rename_i hheight
  cases h
  have h8 : (beBytes 8 page.rootPageId).length = 8 := length_beBytes _ _
  have h2 : (beBytes 2 page.height).length = 2 := length_beBytes _ _
  have hmagic : metaMagic.length = 4 := rfl
  generalize hb : metaMagic ++ beBytes 8 page.rootPageId ++ beBytes 2 page.height ++ [0, 0] = body at henc
  have hsum : body = metaMagic ++ (beBytes 8 page.rootPageId ++ (beBytes 2 page.height ++ [0, 0])) := by
    rw [← hb]
    simp only [List.append_assoc]
  have hlen : body.length = metaSize := by
    rw [hsum]
    simp [h8, h2, hmagic, metaSize]
  have hstart : slice body 0 4 = metaMagic := by rw [hsum, slice_magic hmagic]
  have hrootField : field body 4 8 = page.rootPageId := by
    rw [hsum, field_eq]
    simp (disch := simp [hmagic, h8]) only [slice_skip, hmagic, Nat.reduceSub, slice_head]
    exact beNat_beBytes 8 _ (noPage_lt hlt)
  have hheightField : field body 12 2 = page.height := by
    rw [hsum, field_eq]
    simp (disch := simp [hmagic, h8, h2]) only [slice_skip, hmagic, h8, Nat.reduceSub, slice_head]
    exact beNat_beBytes 2 _ (by omega)
  unfold decodeMeta
  rw [if_neg (not_not.2 hlen), if_neg (not_not.2 hstart), hrootField, hheightField]
  simp only [henc, bind, Except.bind]

theorem bounded_eq_ok {encoded body : ByteString} (h : bounded encoded = .ok body) :
    encoded.length ≤ pageBodySize ∧ body = encoded := by
  unfold bounded at h
  split at h
  · exact absurd h raise_ne_ok
  · rename_i hlen
    cases h
    exact ⟨not_lt.1 hlen, rfl⟩

theorem encodeInternal_eq_ok {page : InternalPage} {body : ByteString} (h : encodeInternal page = .ok body) :
    ∃ first rest separators, page.children = first :: rest ∧ rest.length = page.keys.length ∧ first < noPage ∧
      page.keys.length < 256 ^ 2 ∧
      encodeMany encodeSeparator (page.keys.zip rest) = .ok separators ∧
      body = internalMagic ++ (beBytes 2 page.keys.length ++ ([0, 0] ++ (beBytes 8 first ++ separators))) := by
  unfold encodeInternal at h
  split at h
  · exact absurd h raise_ne_ok
  rename_i hlen
  rw [not_not] at hlen
  split at h
  · exact absurd h raise_ne_ok
  rename_i first rest hchildren
  split at h
  · exact absurd h raise_ne_ok
  obtain ⟨child, hchild, h⟩ := bind_eq_ok.1 h
  obtain ⟨count, hcount, h⟩ := bind_eq_ok.1 h
  obtain ⟨separators, hseparators, h⟩ := bind_eq_ok.1 h
  obtain ⟨rfl, hlt⟩ := pageId_eq_ok hchild
  obtain ⟨hcountLt, rfl⟩ := packField_eq_ok hcount
  obtain ⟨-, rfl⟩ := bounded_eq_ok h
  rw [hchildren, List.length_cons] at hlen
  exact ⟨child, rest, separators, hchildren, by omega, hlt, hcountLt, hseparators, by simp only [List.append_assoc]⟩

theorem decodeInternal_encode {page : InternalPage} {body : ByteString} (h : encodeInternal page = .ok body) :
    decodeInternal body = .ok page := by
  obtain ⟨first, rest, separators, hchildren, hlen, hfirst, hcount, hseparators, hbody⟩ := encodeInternal_eq_ok h
  have hzip : (page.keys.zip rest).length = page.keys.length := by
    rw [List.length_zip]
    omega
  have h8 : (beBytes 8 first).length = 8 := length_beBytes _ _
  have h2 : (beBytes 2 page.keys.length).length = 2 := length_beBytes _ _
  have hmagic : internalMagic.length = 4 := rfl
  have hstart : slice body 0 4 = internalMagic := by rw [hbody, slice_magic hmagic]
  have hcountField : field body 4 2 = page.keys.length := by
    rw [hbody, field_eq]
    simp (disch := simp [hmagic, h2]) only [slice_skip, hmagic, Nat.reduceSub, slice_head]
    exact beNat_beBytes 2 _ hcount
  have hfirstField : field body 8 8 = first := by
    rw [hbody, field_eq]
    simp (disch := simp [hmagic, h2, h8]) only [slice_skip, hmagic, h2, List.length_cons, List.length_nil,
      Nat.reduceAdd, Nat.reduceSub,
      slice_head]
    exact beNat_beBytes 8 _ (noPage_lt hfirst)
  have hfront : (internalMagic ++ beBytes 2 page.keys.length ++ [0, 0] ++ beBytes 8 first).length = internalSize := by
    simp [h8, h2, hmagic, internalSize]
  have hsum : body = internalMagic ++ beBytes 2 page.keys.length ++ [0, 0] ++ beBytes 8 first ++ separators ++ [] := by
    rw [hbody]
    simp only [List.append_assoc, List.append_nil]
  have hread := reads_many (fun {a bytes} h => reads_separator h) hseparators
    (internalMagic ++ beBytes 2 page.keys.length ++ [0, 0] ++ beBytes 8 first) []
  simp only [hfront, hzip, ← hsum] at hread
  have htotal : body.length = internalSize + separators.length := by
    rw [hsum, List.append_nil, List.length_append, hfront]
  have hpage : (⟨(page.keys.zip rest).map Prod.fst, first :: (page.keys.zip rest).map Prod.snd⟩ : InternalPage) = page := by
    rw [List.map_fst_zip (le_of_eq hlen.symm), List.map_snd_zip (le_of_eq hlen), ← hchildren]
  unfold decodeInternal
  rw [if_neg (by omega), if_neg (not_not.2 hstart), hcountField, hread]
  simp only [bind, Except.bind]
  rw [if_neg (not_not.2 htotal.symm), hfirstField, hpage, h]

theorem encodeSibling_eq_ok {sibling : Option Nat} {id : Nat} (h : encodeSibling sibling = .ok id) :
    id < 256 ^ 8 ∧ decodeSibling id = sibling := by
  unfold encodeSibling at h
  cases sibling with
  | none =>
    cases h
    exact ⟨by decide, if_pos rfl⟩
  | some s =>
    obtain ⟨rfl, hlt⟩ := pageId_eq_ok h
    exact ⟨noPage_lt hlt, if_neg (ne_of_lt hlt)⟩

theorem encodeLeafBody_eq_ok {page : LeafPage} {body : ByteString} (h : encodeLeafBody page = .ok body) :
    ∃ left right entries, encodeSibling page.leftSibling = .ok left ∧ encodeSibling page.rightSibling = .ok right ∧
      page.entries.length < 256 ^ 2 ∧ encodeMany encodeEntry page.entries = .ok entries ∧
      body = leafMagic ++ (beBytes 8 left ++ (beBytes 8 right ++ (beBytes 2 page.entries.length ++ ([0, 0] ++ entries)))) := by
  unfold encodeLeafBody at h
  split at h
  · exact absurd h raise_ne_ok
  obtain ⟨left, hleft, h⟩ := bind_eq_ok.1 h
  obtain ⟨right, hright, h⟩ := bind_eq_ok.1 h
  obtain ⟨count, hcount, h⟩ := bind_eq_ok.1 h
  obtain ⟨entries, hentries, h⟩ := bind_eq_ok.1 h
  obtain ⟨hlt, rfl⟩ := packField_eq_ok hcount
  cases h
  exact ⟨left, right, entries, hleft, hright, hlt, hentries, by simp only [List.append_assoc]⟩

theorem decodeLeaf_encode {page : LeafPage} {body : ByteString} (h : encodeLeaf page = .ok body) :
    decodeLeaf body = .ok page := by
  have henc := h
  obtain ⟨encoded, hencoded, h⟩ := bind_eq_ok.1 h
  obtain ⟨-, rfl⟩ := bounded_eq_ok h
  obtain ⟨left, right, entries, hleft, hright, hcount, hentries, hbody⟩ := encodeLeafBody_eq_ok hencoded
  obtain ⟨hleftLt, hleftBack⟩ := encodeSibling_eq_ok hleft
  obtain ⟨hrightLt, hrightBack⟩ := encodeSibling_eq_ok hright
  have hl : (beBytes 8 left).length = 8 := length_beBytes _ _
  have hr : (beBytes 8 right).length = 8 := length_beBytes _ _
  have h2 : (beBytes 2 page.entries.length).length = 2 := length_beBytes _ _
  have hmagic : leafMagic.length = 4 := rfl
  have hstart : slice body 0 4 = leafMagic := by rw [hbody, slice_magic hmagic]
  have hleftField : field body 4 8 = left := by
    rw [hbody, field_eq]
    simp (disch := simp [hmagic, hl]) only [slice_skip, hmagic, Nat.reduceSub, slice_head]
    exact beNat_beBytes 8 _ hleftLt
  have hrightField : field body 12 8 = right := by
    rw [hbody, field_eq]
    simp (disch := simp [hmagic, hl, hr]) only [slice_skip, hmagic, hl, Nat.reduceSub, slice_head]
    exact beNat_beBytes 8 _ hrightLt
  have hcountField : field body 20 2 = page.entries.length := by
    rw [hbody, field_eq]
    simp (disch := simp [hmagic, hl, hr, h2]) only [slice_skip, hmagic, hl, hr, Nat.reduceSub, slice_head]
    exact beNat_beBytes 2 _ hcount
  have hfront : (leafMagic ++ beBytes 8 left ++ beBytes 8 right ++ beBytes 2 page.entries.length ++
      [0, 0]).length = leafSize := by
    simp [hl, hr, h2, hmagic, leafSize]
  have hsum : body = leafMagic ++ beBytes 8 left ++ beBytes 8 right ++ beBytes 2 page.entries.length ++
      [0, 0] ++ entries ++ [] := by
    rw [hbody]
    simp only [List.append_assoc, List.append_nil]
  have hread := reads_many (fun {a bytes} h => reads_entry h) hentries
    (leafMagic ++ beBytes 8 left ++ beBytes 8 right ++ beBytes 2 page.entries.length ++ [0, 0]) []
  simp only [hfront, ← hsum] at hread
  have htotal : body.length = leafSize + entries.length := by
    rw [hsum, List.append_nil, List.length_append, hfront]
  unfold decodeLeaf
  rw [if_neg (by omega), if_neg (not_not.2 hstart), hcountField, hread]
  simp only [bind, Except.bind]
  rw [if_neg (not_not.2 htotal.symm), hleftField, hrightField, hleftBack, hrightBack, henc]

/-! ## Sizes -/

theorem length_appendKey {key : Key} {bytes : ByteString} (h : appendKey key = .ok bytes) : bytes.length = 2 + key.length := by
  obtain ⟨-, rfl⟩ := appendKey_eq_ok h
  rw [List.length_append, length_beBytes]

theorem length_encodeEntry {entry : LeafEntry} {bytes : ByteString} (h : encodeEntry entry = .ok bytes) :
    bytes.length = 2 + entry.key.length + 12 := by
  obtain ⟨key, hkey, h⟩ := bind_eq_ok.1 h
  obtain ⟨page, -, h⟩ := bind_eq_ok.1 h
  split at h
  · exact absurd h raise_ne_ok
  cases h
  rw [List.length_append, List.length_append, length_beBytes, length_beBytes, length_appendKey hkey]

theorem length_encodeMany {α : Type} {encode : α → Result ByteString} {size : α → Nat}
    (hsize : ∀ {a bytes}, encode a = .ok bytes → bytes.length = size a) : ∀ {as : List α} {bytes : ByteString},
    encodeMany encode as = .ok bytes → bytes.length = (as.map size).sum
  | [], bytes, h      => by
    cases h
    rfl
  | a :: as, bytes, h => by
    obtain ⟨x, hx, h⟩ := bind_eq_ok.1 h
    obtain ⟨rest, hrest, h⟩ := bind_eq_ok.1 h
    cases h
    rw [List.length_append, hsize hx, length_encodeMany hsize hrest, List.map_cons, List.sum_cons]

/-- **`_leaf_body_size` is the length of the encoded leaf.** -/
theorem length_encodeLeafBody {page : LeafPage} {body : ByteString} (h : encodeLeafBody page = .ok body) :
    body.length = leafBodySize page.entries := by
  obtain ⟨left, right, entries, -, -, -, hentries, rfl⟩ := encodeLeafBody_eq_ok h
  have hmagic : leafMagic.length = 4 := rfl
  have hpad : ([0, 0] : ByteString).length = 2 := rfl
  simp only [List.length_append, length_beBytes, hmagic, hpad,
    length_encodeMany (fun {a bytes} h => length_encodeEntry h) hentries]
  unfold leafBodySize
  omega

/-! ## What is refused, and as what -/

/-- **Every error of the result is of an allowed class.** -/
def RefusedAs (allowed : ErrorClass → Prop) {α : Type} (r : Result α) : Prop := ∀ e, r = .error e → allowed e.kind

section
variable {allowed : ErrorClass → Prop} {α β : Type}

theorem RefusedAs.ok (a : α) : RefusedAs allowed (.ok a : Result α) := by
  intro e h
  cases h

theorem RefusedAs.raise {kind : ErrorClass} (h : allowed kind) (message : String) :
    RefusedAs allowed (raise kind message : Result α) := by
  intro e he
  cases he
  exact h

theorem RefusedAs.bind {x : Result α} {f : α → Result β} (hx : RefusedAs allowed x)
    (hf : ∀ a, x = .ok a → RefusedAs allowed (f a)) :
    RefusedAs allowed (x >>= f) := by
  intro e he
  cases x with
  | error e' =>
    cases he
    exact hx e rfl
  | ok a => exact hf a rfl e he

theorem pageId_refused (h : allowed .corruptPage) (value : Nat) (f : String) : RefusedAs allowed (pageId value f) := by
  unfold pageId
  split
  · exact .raise h _
  · exact .ok _

theorem encodeSibling_refused (h : allowed .corruptPage) (sibling : Option Nat) : RefusedAs allowed (encodeSibling sibling) := by
  cases sibling with
  | none   => exact .ok _
  | some s => exact pageId_refused h s _

theorem appendKey_refused {key : Key} (h : 65535 < key.length → allowed .pageFull) : RefusedAs allowed (appendKey key) := by
  unfold appendKey
  split
  · rename_i hlen
    exact .raise (h hlen) _
  · exact .ok _

theorem encodeEntry_refused {entry : LeafEntry} (hc : allowed .corruptPage) (hf : 65535 < entry.key.length → allowed .pageFull) :
    RefusedAs allowed (encodeEntry entry) := by
  apply RefusedAs.bind (appendKey_refused hf)
  intro key _
  apply RefusedAs.bind (pageId_refused hc _ _)
  intro page _
  split
  · exact .raise hc _
  · exact .ok _

theorem encodeSeparator_refused {p : Key × Nat} (hc : allowed .corruptPage) (hf : allowed .pageFull) :
    RefusedAs allowed (encodeSeparator p) := by
  apply RefusedAs.bind (appendKey_refused fun _ => hf)
  intro key _
  apply RefusedAs.bind (pageId_refused hc _ _)
  intro child _
  exact .ok _

theorem encodeMany_refused {encode : α → Result ByteString} : ∀ {as : List α}, (∀ a ∈ as, RefusedAs allowed (encode a)) →
    RefusedAs allowed (encodeMany encode as)
  | [], _      => .ok _
  | a :: as, h => by
    apply RefusedAs.bind (h a List.mem_cons_self)
    intro x _
    apply RefusedAs.bind (encodeMany_refused fun b hb => h b (List.mem_cons_of_mem a hb))
    intro rest _
    exact .ok _

theorem packField_refused {width n : Nat} (h : ¬n < 256 ^ width → allowed .structError) :
    RefusedAs allowed (packField width n) := by
  unfold packField
  split
  · exact .ok _
  · rename_i hn
    exact .raise (h hn) _

theorem bounded_refused {encoded : ByteString} (h : pageBodySize < encoded.length → allowed .pageFull) :
    RefusedAs allowed (bounded encoded) := by
  unfold bounded
  split
  · rename_i hlen
    exact .raise (h hlen) _
  · exact .ok _

theorem encodeLeaf_refused {page : LeafPage} (hc : allowed .corruptPage)
    (hs : ¬page.entries.length < 256 ^ 2 → allowed .structError)
    (hk : ∀ e ∈ page.entries, 65535 < e.key.length → allowed .pageFull)
    (hf : pageBodySize < leafBodySize page.entries → allowed .pageFull) :
    RefusedAs allowed (encodeLeaf page) := by
  apply RefusedAs.bind
  · unfold encodeLeafBody
    split
    · exact .raise hc _
    apply RefusedAs.bind (encodeSibling_refused hc _)
    intro left _
    apply RefusedAs.bind (encodeSibling_refused hc _)
    intro right _
    apply RefusedAs.bind (packField_refused hs)
    intro count _
    apply RefusedAs.bind (encodeMany_refused fun e he => encodeEntry_refused hc (hk e he))
    intro entries _
    exact .ok _
  · intro body hbody
    apply bounded_refused
    rwa [length_encodeLeafBody hbody]

end

/-! ## A split leaves room -/

theorem key_le_leafBodySize {entries : List LeafEntry} {e : LeafEntry} (h : e ∈ entries) :
    e.key.length ≤ leafBodySize entries := by
  have hle := List.single_le_sum (l := entries.map fun e => 2 + e.key.length + 12)
    (fun _ _ => Nat.zero_le _) _ (List.mem_map_of_mem h)
  unfold leafBodySize
  omega

/-- **A leaf of a valid size is not refused as full.** -/
theorem encodeLeaf_fits {page : LeafPage} (h : leafBodySize page.entries ≤ pageBodySize) :
    RefusedAs (fun kind => kind ≠ .pageFull) (encodeLeaf page) := by
  have hsize : pageBodySize ≤ 65535 := by decide
  refine encodeLeaf_refused (by decide) (fun _ => by decide) ?_ ?_
  · intro e he hlen
    have hkey := key_le_leafBodySize he
    omega
  · intro hfull
    omega

theorem foldl_leastPair_mem : ∀ (cs : List (Nat × Nat)) (c : Nat × Nat), cs.foldl leastPair c ∈ c :: cs
  | [], c      => List.mem_singleton_self c
  | d :: cs, c => by
    rw [List.foldl_cons]
    have hmem := foldl_leastPair_mem cs (leastPair c d)
    have hone : leastPair c d = c ∨ leastPair c d = d := by
      unfold leastPair
      split
      · exact Or.inr rfl
      · exact Or.inl rfl
    rcases List.mem_cons.1 hmem with h | h
    · rw [h]
      rcases hone with hc | hd
      · rw [hc]
        exact List.mem_cons_self
      · rw [hd]
        exact List.mem_cons_of_mem _ List.mem_cons_self
    · exact List.mem_cons_of_mem _ (List.mem_cons_of_mem _ h)

theorem mem_splitCandidates {entries : List LeafEntry} {c : Nat × Nat} (h : c ∈ splitCandidates entries) :
    leafBodySize (entries.take c.2) ≤ pageBodySize ∧ leafBodySize (entries.drop c.2) ≤ pageBodySize := by
  obtain ⟨position, hmem, rfl⟩ := List.mem_map.1 h
  exact of_decide_eq_true (List.mem_filter.1 hmem).2

/-- **Both halves are of a valid size.** -/
theorem leafSplitPosition_fits {entries : List LeafEntry} {position : Nat} (h : leafSplitPosition entries = .ok position) :
    leafBodySize (entries.take position) ≤ pageBodySize ∧ leafBodySize (entries.drop position) ≤ pageBodySize := by
  unfold leafSplitPosition at h
  split at h
  · exact absurd h raise_ne_ok
  split at h
  · exact absurd h raise_ne_ok
  · rename_i c cs hcs
    cases h
    apply mem_splitCandidates
    rw [hcs]
    exact foldl_leastPair_mem cs c

/-! ## What a body is refused for -/

/-- What the decoders may raise. -/
def BodyError (kind : ErrorClass) : Prop := kind = .corruptPage ∨ kind = .pageFull

theorem BodyError.corrupt : BodyError .corruptPage := Or.inl rfl

theorem BodyError.full : BodyError .pageFull := Or.inr rfl

theorem readKey_refused (body : ByteString) (cursor : Nat) : RefusedAs BodyError (readKey body cursor) := by
  unfold readKey
  split
  · exact .raise .corrupt _
  split
  · exact .raise .corrupt _
  · exact .ok _

theorem readSeparator_refused (body : ByteString) (cursor : Nat) : RefusedAs BodyError (readSeparator body cursor) := by
  apply RefusedAs.bind (readKey_refused body cursor)
  rintro ⟨key, next⟩ _
  dsimp only
  split
  · exact .raise .corrupt _
  · exact .ok _

theorem readEntry_refused (body : ByteString) (cursor : Nat) : RefusedAs BodyError (readEntry body cursor) := by
  apply RefusedAs.bind (readKey_refused body cursor)
  rintro ⟨key, next⟩ _
  dsimp only
  split
  · exact .raise .corrupt _
  · exact .ok _

theorem readMany_refused {α : Type} {read : ByteString → Nat → Result (α × Nat)}
    (h : ∀ body cursor, RefusedAs BodyError (read body cursor)) : ∀ (n : Nat) (body : ByteString) (cursor : Nat),
    RefusedAs BodyError (readMany read n body cursor)
  | 0, _, _             => .ok _
  | n + 1, body, cursor => by
    apply RefusedAs.bind (h body cursor)
    rintro ⟨a, next⟩ _
    apply RefusedAs.bind (readMany_refused h n body next)
    rintro ⟨as, stop⟩ _
    exact .ok _

theorem length_readMany {α : Type} {read : ByteString → Nat → Result (α × Nat)} :
    ∀ {n : Nat} {body : ByteString} {cursor stop : Nat} {as : List α},
    readMany read n body cursor = .ok (as, stop) → as.length = n
  | 0, body, cursor, stop, as, h     => by
    cases h
    rfl
  | n + 1, body, cursor, stop, as, h => by
    obtain ⟨⟨a, next⟩, -, h⟩ := bind_eq_ok.1 h
    obtain ⟨⟨rest, stop'⟩, hrest, h⟩ := bind_eq_ok.1 h
    cases h
    rw [List.length_cons, length_readMany hrest]

theorem decodeMeta_refused (body : ByteString) : RefusedAs BodyError (decodeMeta body) := by
  unfold decodeMeta
  split
  · exact .raise .corrupt _
  split
  · exact .raise .corrupt _
  refine RefusedAs.bind ?_ fun _ _ => .ok _
  unfold encodeMeta
  apply RefusedAs.bind (pageId_refused BodyError.corrupt _ _)
  intro root _
  split
  · exact .raise .corrupt _
  · exact .ok _

theorem packField_counted {body : ByteString} {offset n : Nat} (h : offset + 2 ≤ body.length) (hn : n = field body offset 2) :
    RefusedAs BodyError (packField 2 n) :=
  packField_refused fun hge => absurd (hn ▸ field_lt h) hge

theorem decodeInternal_refused (body : ByteString) : RefusedAs BodyError (decodeInternal body) := by
  unfold decodeInternal
  split
  · exact .raise .corrupt _
  rename_i hlen
  have h16 : internalSize = 16 := rfl
  split
  · exact .raise .corrupt _
  apply RefusedAs.bind (readMany_refused readSeparator_refused _ _ _)
  rintro ⟨separators, cursor⟩ hread
  dsimp only
  split
  · exact .raise .corrupt _
  refine RefusedAs.bind ?_ fun _ _ => .ok _
  unfold encodeInternal
  split
  · exact .raise .corrupt _
  split
  · exact .raise .corrupt _
  split
  · exact .raise .corrupt _
  apply RefusedAs.bind (pageId_refused BodyError.corrupt _ _)
  intro child _
  apply RefusedAs.bind (packField_counted (show 4 + 2 ≤ body.length by omega) (by rw [List.length_map, length_readMany hread]))
  intro count _
  apply RefusedAs.bind (encodeMany_refused fun p _ => encodeSeparator_refused (p := p) BodyError.corrupt BodyError.full)
  intro bytes _
  exact bounded_refused fun _ => .full

theorem decodeLeaf_refused (body : ByteString) : RefusedAs BodyError (decodeLeaf body) := by
  unfold decodeLeaf
  split
  · exact .raise .corrupt _
  rename_i hlen
  have h24 : leafSize = 24 := rfl
  split
  · exact .raise .corrupt _
  apply RefusedAs.bind (readMany_refused readEntry_refused _ _ _)
  rintro ⟨entries, cursor⟩ hread
  dsimp only
  split
  · exact .raise .corrupt _
  refine RefusedAs.bind ?_ fun _ _ => .ok _
  refine encodeLeaf_refused .corrupt (fun hcount => ?_) (fun _ _ _ => .full) (fun _ => .full)
  rw [length_readMany hread] at hcount
  exact absurd (field_lt (by omega)) hcount

/-! ## What is read was written -/

/-- **The item that is read stands there**, in the bytes of its encoding. -/
def ReadAs {α : Type} (encode : α → Result ByteString) (read : ByteString → Nat → Result (α × Nat)) : Prop :=
  ∀ body cursor a next bytes, read body cursor = .ok (a, next) → encode a = .ok bytes →
    next = cursor + bytes.length ∧ slice body cursor bytes.length = bytes

theorem readAs_key : ReadAs appendKey readKey := by
  intro body cursor key next bytes h hbytes
  obtain ⟨-, rfl⟩ := appendKey_eq_ok hbytes
  unfold readKey at h
  split at h
  · exact absurd h raise_ne_ok
  rename_i hword
  split at h
  · exact absurd h raise_ne_ok
  rename_i hkey
  cases h
  have hlen : (slice body (cursor + 2) (field body cursor 2)).length = field body cursor 2 := length_slice (by omega)
  rw [List.length_append, length_beBytes, hlen]
  refine ⟨by rw [Nat.add_assoc], ?_⟩
  rw [slice_add, beBytes_field (by omega)]

theorem readAs_separator : ReadAs encodeSeparator readSeparator := by
  intro body cursor p next bytes h hbytes
  obtain ⟨⟨key, middle⟩, hkey, h⟩ := bind_eq_ok.1 h
  obtain ⟨keyBytes, hkeyBytes, hbytes⟩ := bind_eq_ok.1 hbytes
  obtain ⟨child, hchild, hbytes⟩ := bind_eq_ok.1 hbytes
  cases hbytes
  dsimp only at h
  split at h
  · exact absurd h raise_ne_ok
  rename_i hend
  cases h
  obtain ⟨rfl, -⟩ := pageId_eq_ok hchild
  obtain ⟨rfl, hslice⟩ := readAs_key _ _ _ _ _ hkey hkeyBytes
  rw [List.length_append, length_beBytes, slice_add, hslice, beBytes_field (by omega)]
  exact ⟨Nat.add_assoc _ _ _, rfl⟩

theorem readAs_entry : ReadAs encodeEntry readEntry := by
  intro body cursor entry next bytes h hbytes
  obtain ⟨⟨key, middle⟩, hkey, h⟩ := bind_eq_ok.1 h
  obtain ⟨keyBytes, hkeyBytes, hbytes⟩ := bind_eq_ok.1 hbytes
  obtain ⟨page, hpage, hbytes⟩ := bind_eq_ok.1 hbytes
  dsimp only at h
  split at h
  · exact absurd h raise_ne_ok
  rename_i hend
  cases h
  split at hbytes
  · exact absurd hbytes raise_ne_ok
  cases hbytes
  obtain ⟨rfl, -⟩ := pageId_eq_ok hpage
  obtain ⟨rfl, hslice⟩ := readAs_key _ _ _ _ _ hkey hkeyBytes
  simp only [List.length_append, length_beBytes]
  refine ⟨by omega, ?_⟩
  rw [slice_add, slice_add, hslice, beBytes_field (by omega), ← Nat.add_assoc, beBytes_field (by omega)]

theorem readAs_many {α : Type} {encode : α → Result ByteString} {read : ByteString → Nat → Result (α × Nat)}
    (h : ReadAs encode read) :
    ∀ n, ReadAs (encodeMany encode) (readMany read n)
  | 0, body, cursor, as, next, bytes, hread, hbytes     => by
    cases hread
    cases hbytes
    exact ⟨rfl, rfl⟩
  | n + 1, body, cursor, as, next, bytes, hread, hbytes => by
    obtain ⟨⟨a, middle⟩, ha, hread⟩ := bind_eq_ok.1 hread
    obtain ⟨⟨rest, stop⟩, hrest, hread⟩ := bind_eq_ok.1 hread
    cases hread
    obtain ⟨first, hfirst, hbytes⟩ := bind_eq_ok.1 hbytes
    obtain ⟨others, hothers, hbytes⟩ := bind_eq_ok.1 hbytes
    cases hbytes
    obtain ⟨rfl, hslice⟩ := h _ _ _ _ _ ha hfirst
    obtain ⟨rfl, hslices⟩ := readAs_many h n _ _ _ _ _ hrest hothers
    rw [List.length_append, slice_add, hslice, hslices, Nat.add_assoc]
    exact ⟨rfl, rfl⟩

/-- **Two bodies that differ in two bytes at most**, those at an offset. -/
def SameBut (offset : Nat) (body encoded : ByteString) : Prop :=
  body.length = encoded.length ∧ body.take offset = encoded.take offset ∧ body.drop (offset + 2) = encoded.drop (offset + 2)

theorem SameBut.of_parts {body front pad rest : ByteString} {offset : Nat} (hpad : pad.length = 2)
    (hfront : body.take offset = front)
    (hlen : front.length = offset) (hrest : slice body (offset + 2) rest.length = rest)
    (hend : body.length = offset + 2 + rest.length) :
    SameBut offset body (front ++ (pad ++ rest)) := by
  refine ⟨?_, ?_, ?_⟩
  · rw [List.length_append, List.length_append, hpad, hlen, hend, Nat.add_assoc]
  · rw [hfront, ← hlen, List.take_left]
  · have hfrontPad : (front ++ pad).length = offset + 2 := by rw [List.length_append, hlen, hpad]
    rw [← List.append_assoc, ← hfrontPad, List.drop_left, hfrontPad]
    have hall : (body.drop (offset + 2)).length = rest.length := by
      rw [List.length_drop]
      omega
    rw [← hrest, slice, List.take_of_length_le (le_of_eq hall)]

theorem slice_behind {bytes front : ByteString} {offset width n : Nat} (h : bytes.take offset = front) (hn : offset + width = n) :
    bytes.take n = front ++ slice bytes offset width := by
  rw [← h, take_slice, hn]

theorem decodeMeta_sameBut {body : ByteString} {page : MetaPage} (h : decodeMeta body = .ok page) :
    ∃ encoded, encodeMeta page = .ok encoded ∧ SameBut 14 body encoded := by
  unfold decodeMeta at h
  split at h
  · exact absurd h raise_ne_ok
  rename_i hlen
  rw [not_not] at hlen
  have h16 : metaSize = 16 := rfl
  split at h
  · exact absurd h raise_ne_ok
  rename_i hmagic
  rw [not_not, ← take_eq_slice] at hmagic
  obtain ⟨encoded, hencoded, h⟩ := bind_eq_ok.1 h
  cases h
  refine ⟨encoded, hencoded, ?_⟩
  obtain ⟨root, hroot, hencoded⟩ := bind_eq_ok.1 hencoded
  obtain ⟨rfl, -⟩ := pageId_eq_ok hroot
  split at hencoded
  · exact absurd hencoded raise_ne_ok
  cases hencoded
  have hroot : body.take 12 = metaMagic ++ beBytes 8 (field body 4 8) := by
    rw [beBytes_field (by omega)]
    exact slice_behind hmagic rfl
  have hheight : body.take 14 = metaMagic ++ beBytes 8 (field body 4 8) ++ beBytes 2 (field body 12 2) := by
    rw [beBytes_field (show 12 + 2 ≤ body.length by omega)]
    exact slice_behind hroot rfl
  have hpad : ([0, 0] : ByteString).length = 2 := rfl
  rw [← List.append_nil [0, 0]]
  exact SameBut.of_parts hpad hheight (by rw [← hheight, List.length_take]; omega) rfl (by rw [List.length_nil]; omega)

theorem decodeInternal_sameBut {body : ByteString} {page : InternalPage} (h : decodeInternal body = .ok page) :
    ∃ encoded, encodeInternal page = .ok encoded ∧ SameBut 6 body encoded := by
  unfold decodeInternal at h
  split at h
  · exact absurd h raise_ne_ok
  rename_i hlen
  have h16 : internalSize = 16 := rfl
  split at h
  · exact absurd h raise_ne_ok
  rename_i hmagic
  rw [not_not, ← take_eq_slice] at hmagic
  obtain ⟨⟨read, cursor⟩, hread, h⟩ := bind_eq_ok.1 h
  dsimp only at h
  split at h
  · exact absurd h raise_ne_ok
  rename_i hcursor
  rw [not_not] at hcursor
  obtain ⟨encoded, hencoded, h⟩ := bind_eq_ok.1 h
  cases h
  refine ⟨encoded, hencoded, ?_⟩
  obtain ⟨first, rest, separators, hchildren, -, -, -, hseparators, rfl⟩ := encodeInternal_eq_ok hencoded
  obtain ⟨rfl, rfl⟩ := List.cons.inj hchildren
  have hzip : (read.map Prod.fst).zip (read.map Prod.snd) = read := by
    rw [List.zip_map']
    exact List.map_id _
  dsimp only at hseparators ⊢
  rw [hzip] at hseparators
  obtain ⟨rfl, hslices⟩ := readAs_many readAs_separator _ _ _ _ _ _ hread hseparators
  have hcount : body.take 6 = internalMagic ++ beBytes 2 (read.map Prod.fst).length := by
    rw [List.length_map, length_readMany hread, beBytes_field (by omega)]
    exact slice_behind hmagic rfl
  have hrest : slice body 8 (beBytes 8 (field body 8 8) ++ separators).length = beBytes 8 (field body 8 8) ++ separators := by
    rw [List.length_append, length_beBytes, slice_add, beBytes_field (by omega)]
    exact congrArg _ hslices
  have hpad : ([0, 0] : ByteString).length = 2 := rfl
  rw [← List.append_assoc]
  exact SameBut.of_parts hpad hcount (by rw [← hcount, List.length_take]; omega) hrest
    (by rw [List.length_append, length_beBytes]; omega)

theorem encodeSibling_decodeSibling {n id : Nat} (h : encodeSibling (decodeSibling n) = .ok id) : id = n := by
  unfold decodeSibling at h
  split at h
  · rename_i hn
    cases h
    exact hn.symm
  · exact (pageId_eq_ok h).1

theorem decodeLeaf_sameBut {body : ByteString} {page : LeafPage} (h : decodeLeaf body = .ok page) :
    ∃ encoded, encodeLeaf page = .ok encoded ∧ SameBut 22 body encoded := by
  unfold decodeLeaf at h
  split at h
  · exact absurd h raise_ne_ok
  rename_i hlen
  have h24 : leafSize = 24 := rfl
  split at h
  · exact absurd h raise_ne_ok
  rename_i hmagic
  rw [not_not, ← take_eq_slice] at hmagic
  obtain ⟨⟨read, cursor⟩, hread, h⟩ := bind_eq_ok.1 h
  dsimp only at h
  split at h
  · exact absurd h raise_ne_ok
  rename_i hcursor
  rw [not_not] at hcursor
  obtain ⟨encoded, hencoded, h⟩ := bind_eq_ok.1 h
  cases h
  refine ⟨encoded, hencoded, ?_⟩
  obtain ⟨unbounded, hunbounded, hencoded⟩ := bind_eq_ok.1 hencoded
  obtain ⟨-, rfl⟩ := bounded_eq_ok hencoded
  obtain ⟨left, right, entries, hleft, hright, -, hentries, rfl⟩ := encodeLeafBody_eq_ok hunbounded
  obtain rfl := encodeSibling_decodeSibling hleft
  obtain rfl := encodeSibling_decodeSibling hright
  obtain ⟨rfl, hslices⟩ := readAs_many readAs_entry _ _ _ _ _ _ hread hentries
  have hleftPart : body.take 12 = leafMagic ++ beBytes 8 (field body 4 8) := by
    rw [beBytes_field (by omega)]
    exact slice_behind hmagic rfl
  have hrightPart : body.take 20 = leafMagic ++ beBytes 8 (field body 4 8) ++ beBytes 8 (field body 12 8) := by
    rw [beBytes_field (show 12 + 8 ≤ body.length by omega)]
    exact slice_behind hleftPart rfl
  have hcount : body.take 22 = leafMagic ++ beBytes 8 (field body 4 8) ++ beBytes 8 (field body 12 8) ++
      beBytes 2 read.length := by
    rw [length_readMany hread, beBytes_field (show 20 + 2 ≤ body.length by omega)]
    exact slice_behind hrightPart rfl
  have hpad : ([0, 0] : ByteString).length = 2 := rfl
  rw [← List.append_assoc, ← List.append_assoc, ← List.append_assoc]
  exact SameBut.of_parts hpad hcount (by rw [← hcount, List.length_take]; omega) hslices (by omega)

/-! ## The codecs and the arithmetic of a split agree -/

/-- **What is written is read, a leaf is as long as it was planned, and a body is read to its end.** -/
theorem page_codecs_agree :
    ((∀ page body, encodeMeta page = .ok body → decodeMeta body = .ok page) ∧
      (∀ page body, encodeInternal page = .ok body → decodeInternal body = .ok page) ∧
      (∀ page body, encodeLeaf page = .ok body → decodeLeaf body = .ok page)) ∧
    (∀ page body, encodeLeafBody page = .ok body → leafBodySize page.entries = body.length) ∧
    (∀ entries position, leafSplitPosition entries = .ok position → ∀ left right e,
      (encodeLeaf ⟨entries.take position, left, right⟩ = .error e ∨ encodeLeaf ⟨entries.drop position, left, right⟩ = .error e) →
        e.kind ≠ .pageFull) ∧
    (∀ body e, (decodeMeta body = .error e ∨ decodeInternal body = .error e ∨ decodeLeaf body = .error e) →
      e.kind = .corruptPage ∨ e.kind = .pageFull) ∧
    (∀ body page, decodeMeta body = .ok page → ∃ encoded, encodeMeta page = .ok encoded ∧ SameBut 14 body encoded) ∧
    (∀ body page, decodeInternal body = .ok page → ∃ encoded, encodeInternal page = .ok encoded ∧ SameBut 6 body encoded) ∧
    (∀ body page, decodeLeaf body = .ok page → ∃ encoded, encodeLeaf page = .ok encoded ∧ SameBut 22 body encoded) := by
  refine ⟨⟨fun _ _ => decodeMeta_encode, fun _ _ => decodeInternal_encode, fun _ _ => decodeLeaf_encode⟩,
    fun _ _ h => (length_encodeLeafBody h).symm, ?_, ?_, fun _ _ => decodeMeta_sameBut, fun _ _ => decodeInternal_sameBut,
    fun _ _ => decodeLeaf_sameBut⟩
  · intro entries position h left right e he
    obtain ⟨hleft, hright⟩ := leafSplitPosition_fits h
    rcases he with he | he
    · exact encodeLeaf_fits hleft e he
    · exact encodeLeaf_fits hright e he
  · intro body e he
    rcases he with he | he | he
    · exact decodeMeta_refused body e he
    · exact decodeInternal_refused body e he
    · exact decodeLeaf_refused body e he

/-- Separators and entries are read back, and the leaf is as long as its size says. -/
theorem page_codecs_agree_two :
    (∃ body, encodeInternal ⟨[[7], [9, 1]], [1, 2, 3]⟩ = .ok body ∧ decodeInternal body = .ok ⟨[[7], [9, 1]], [1, 2, 3]⟩) ∧
    ∃ body, encodeLeaf ⟨[⟨[7], ⟨2, 0⟩⟩, ⟨[9, 1], ⟨2, 1⟩⟩], some 1, none⟩ = .ok body ∧
      decodeLeaf body = .ok ⟨[⟨[7], ⟨2, 0⟩⟩, ⟨[9, 1], ⟨2, 1⟩⟩], some 1, none⟩ ∧ body.length = 55 :=
  ⟨⟨_, rfl, page_codecs_agree.1.2.1 _ _ rfl⟩, ⟨_, rfl, page_codecs_agree.1.2.2 _ _ rfl, rfl⟩⟩

end BTreePages
end MiniPostgres
