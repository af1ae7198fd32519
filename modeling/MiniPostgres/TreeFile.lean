import MiniPostgres.Executors
import MiniPostgres.Pages
/-!
# TreeFile — the B+Tree in its pages

`index/btree.py` and the results of `index/iterator.py`.  The file of an index is the list of its pages, each with its kind and
its body, as `decode_page` gives them; page 0 is the metapage.  A call that raises leaves the pages as it has written them.  A
loop along the siblings takes one round for each page of the file at most; after that it is interrupted.
-/
namespace MiniPostgres

open BTreePages Executors

/-- The pages of an index, and what the `BTree` object knows of them. -/
structure TreeFile where
  pages      : List (PageKind × ByteString)
  rootPageId : Nat
  height     : Nat

namespace TreeFile

abbrev Action (α : Type) := Program Failure TreeFile α

variable {α β : Type}

/-! ## Pages -/

/-- `PageKind.name` -/
def kindName : PageKind → String
  | .heap          => "HEAP"
  | .btreeMeta     => "BTREE_META"
  | .btreeInternal => "BTREE_INTERNAL"
  | .btreeLeaf     => "BTREE_LEAF"

def fetchPage (page : Nat) : Action (PageKind × ByteString) := do
  match ← .read fun s => s.pages[page]? with
  | none         => raised .corruptPage "short page read: expected 8192 bytes, got 0"
  | some content => pure content

def readPage (page : Nat) (expected : PageKind) : Action ByteString := do
  let (kind, body) ← fetchPage page
  if kind ≠ expected then
    raised .corruptPage ("BTree page " ++ toString page ++ " has kind " ++ kindName kind ++ ", expected " ++ kindName expected)
  else pure body

def readInternal (page : Nat) : Action InternalPage := do
  let body ← readPage page .btreeInternal
  returned (decodeInternal body)

def readLeaf (page : Nat) : Action LeafPage := do
  let body ← readPage page .btreeLeaf
  returned (decodeLeaf body)

def writePage (page : Nat) (kind : PageKind) (body : ByteString) : Action Unit := do
  let _ ← fetchPage page
  .modify fun s => { s with pages := s.pages.set page (kind, body) }

def writeLeaf (page : Nat) (leaf : LeafPage) : Action Unit := do
  let body ← returned (encodeLeaf leaf)
  writePage page .btreeLeaf body

def writeInternal (page : Nat) (internal : InternalPage) : Action Unit := do
  let body ← returned (encodeInternal internal)
  writePage page .btreeInternal body

def newPage (kind : PageKind) : Action Nat := do
  let page ← .read fun s => s.pages.length
  if 2 ^ 64 ≤ page then raised .valueError "page_id must be an unsigned 64-bit integer"
  else do
    .modify fun s => { s with pages := s.pages ++ [(kind, [])] }
    pure page

def allocatePage (kind : PageKind) (body : ByteString) : Action Nat := do
  let page ← newPage kind
  writePage page kind body
  pure page

def writeMeta : Action Unit := do
  let page : MetaPage ← .read fun s => ⟨s.rootPageId, s.height⟩
  let body ← returned (encodeMeta page)
  writePage 0 .btreeMeta body

def open_ : Action Unit := do
  let count ← .read fun s => s.pages.length
  if count = 0 then do
    let first ← newPage .btreeMeta
    if first ≠ 0 then raised .corruptPage "BTree metapage was not allocated at page zero"
    else do
      let root ← newPage .btreeLeaf
      writeLeaf root ⟨[], none, none⟩
      .modify fun s => { s with rootPageId := root, height := 1 }
      writeMeta
  else do
    let (kind, body) ← fetchPage 0
    if kind ≠ .btreeMeta then raised .corruptPage "BTree page zero is not a metapage"
    else do
      let page ← returned (decodeMeta body)
      if count ≤ page.rootPageId then raised .corruptPage "BTree metapage root is not allocated"
      else .modify fun s => { s with rootPageId := page.rootPageId, height := page.height }

/-! ## Searching -/

/-- `bisect_right(keys, key)`: the keys are sorted. -/
def bisectRight (keys : List Key) (key : Key) : Nat := (keys.takeWhile fun k => decide (k ≤ key)).length

/-- `bisect_left` for an entry among sorted ones. -/
def bisectLeft (entries : List LeafEntry) (entry : LeafEntry) : Nat :=
  (entries.takeWhile fun item => entryGreater entry item).length

/-- `items[i]` -/
def item (items : List α) (i : Nat) : Action α :=
  match items[i]? with
  | none   => raised .indexError "tuple index out of range"
  | some a => pure a

/-- The rounds of `_find_leaf`; the path is kept with its last element first. -/
def descend (key : Key) : Nat → Nat → List (Nat × Nat) → Action (Nat × List (Nat × Nat))
  | 0, page, path     => pure (page, path)
  | n + 1, page, path => do
    let internal ← readInternal page
    let index := bisectRight internal.keys key
    let child ← item internal.children index
    descend key n child ((page, index) :: path)

def findLeaf (key : Key) : Action (Nat × List (Nat × Nat)) := do
  let (root, height) ← .read fun s => (s.rootPageId, s.height)
  descend key (height - 1) root []

/-- As many rounds as there are pages. -/
def whileTrue (body : α → Action (α ⊕ β)) (a : α) : Action β := do
  let n ← .read fun s => s.pages.length
  .loop .interrupted body n a

/-- `entries and entries[-1].key >= key` -/
def endsFrom (key : Key) (entries : List LeafEntry) : Bool := entries.getLast?.any fun e => decide (key ≤ e.key)

/-- `entries and entries[-1].key > key` -/
def endsAbove (key : Key) (entries : List LeafEntry) : Bool := entries.getLast?.any fun e => decide (key < e.key)

/-- `entries and entries[0].key > key` -/
def startsAbove (key : Key) (entries : List LeafEntry) : Bool := entries.head?.any fun e => decide (key < e.key)

/-- To the left sibling, as long as it reaches up to the key. -/
def toLeft (key : Key) (leafId : Nat) (leaf : LeafPage) : Action (Nat × LeafPage) :=
  whileTrue (fun (leafId, leaf) =>
    match leaf.leftSibling with
    | none         => pure (.inr (leafId, leaf))
    | some sibling => do
      let left ← readLeaf sibling
      pure (if endsFrom key left.entries then .inl (sibling, left) else .inr (leafId, leaf))) (leafId, leaf)

def firstLeaf (key : Key) : Action (Nat × LeafPage) := do
  let (leafId, _) ← findLeaf key
  let leaf ← readLeaf leafId
  toLeft key leafId leaf

def firstLeafPage (key : Key) : Action Nat := do
  let (leafId, _) ← firstLeaf key
  pure leafId

/-- The right sibling, when it may still hold the key. -/
def onRight (key : Key) (leaf : LeafPage) : Action (Option (Nat × LeafPage)) :=
  match leaf.rightSibling with
  | none         => pure none
  | some sibling =>
    if endsAbove key leaf.entries then pure none
    else do
      let right ← readLeaf sibling
      pure (if startsAbove key right.entries then none else some (sibling, right))

def search (key : Key) : Action (List TID) := do
  let (_, leaf) ← firstLeaf key
  let found ← whileTrue (fun (leaf, found) => do
    let found := found ++ (leaf.entries.filter fun e => e.key = key).map LeafEntry.tid
    match ← onRight key leaf with
    | none            => pure (.inr found)
    | some (_, right) => pure (.inl (right, found))) (leaf, [])
  pure (found.dedup.insertionSort fun a b => a = b ∨ a.before b)

/-- What iterating over `range(lower, upper)` yields. -/
def range (lower upper : Key) : Action (List (Key × TID)) :=
  if upper < lower then raised .valueError "range lower bound must not exceed upper bound"
  else do
    let first ← firstLeafPage lower
    let leaf ← readLeaf first
    whileTrue (fun (leaf, found) => do
      let reached := leaf.entries.takeWhile fun e => decide (e.key < lower ∨ e.key ≤ upper)
      let found := found ++ (reached.filter fun e => !decide (e.key < lower)).map fun e => (e.key, e.tid)
      if reached.length < leaf.entries.length then pure (.inr found)
      else
        match leaf.rightSibling with
        | none         => pure (.inr found)
        | some sibling => do
          let right ← readLeaf sibling
          pure (.inl (right, found))) (leaf, [])

/-! ## Insertion -/

def splitLeaf (pageId : Nat) (page : LeafPage) : Action (Key × Nat) := do
  let splitAt ← returned (leafSplitPosition page.entries)
  let rightEntries := page.entries.drop splitAt
  let rightId ← newPage .btreeLeaf
  writeLeaf rightId ⟨rightEntries, some pageId, page.rightSibling⟩
  writeLeaf pageId ⟨page.entries.take splitAt, page.leftSibling, some rightId⟩
  match page.rightSibling with
  | none         => pure ()
  | some sibling => do
    let oldRight ← readLeaf sibling
    writeLeaf sibling { oldRight with leftSibling := some rightId }
  let first ← item rightEntries 0
  pure (first.key, rightId)

def splitInternal (pageId : Nat) (page : InternalPage) : Action (Key × Nat) := do
  let middle := page.keys.length / 2
  let promoted ← item page.keys middle
  let left : InternalPage := ⟨page.keys.take middle, page.children.take (middle + 1)⟩
  let right : InternalPage := ⟨page.keys.drop (middle + 1), page.children.drop (middle + 1)⟩
  let _ ← returned (encodeInternal left)
  let body ← returned (encodeInternal right)
  let rightId ← allocatePage .btreeInternal body
  writeInternal pageId left
  pure (promoted, rightId)

def propagateSplit : List (Nat × Nat) → Nat → Key → Nat → Action Unit
  | (parentId, childIndex) :: path, leftId, separator, rightId => do
    let parent ← readInternal parentId
    let child ← item parent.children childIndex
    if child ≠ leftId then raised .corruptPage "BTree insertion path no longer matches parent"
    else do
      let updated : InternalPage :=
        ⟨parent.keys.insertIdx childIndex separator, parent.children.insertIdx (childIndex + 1) rightId⟩
      match encodeInternal updated with
      | .ok body => writePage parentId .btreeInternal body
      | .error e =>
        if e.kind = .pageFull then do
          let (promoted, newRightId) ← splitInternal parentId updated
          propagateSplit path parentId promoted newRightId
        else .raise (.raised e)
  | [], leftId, separator, rightId => do
    let body ← returned (encodeInternal ⟨[separator], [leftId, rightId]⟩)
    let root ← allocatePage .btreeInternal body
    .modify fun s => { s with rootPageId := root, height := s.height + 1 }
    writeMeta

def insert (key : Key) (tid : TID) : Action Unit := do
  let found ← search key
  if tid ∈ found then pure ()
  else do
    let (leafId, path) ← findLeaf key
    let leaf ← readLeaf leafId
    let entry : LeafEntry := ⟨key, tid⟩
    let updated := { leaf with entries := leaf.entries.insertIdx (bisectLeft leaf.entries entry) entry }
    match encodeLeaf updated with
    | .ok body => writePage leafId .btreeLeaf body
    | .error e =>
      if e.kind = .pageFull then do
        let (separator, rightId) ← splitLeaf leafId updated
        propagateSplit path leafId separator rightId
      else .raise (.raised e)

/-! ## Deletion -/

def locateEntryLeaf (key : Key) (tid : TID) : Action (Option Nat) := do
  let first ← firstLeafPage key
  whileTrue (fun leafId => do
    let leaf ← readLeaf leafId
    if ⟨key, tid⟩ ∈ leaf.entries then pure (.inr (some leafId))
    else do
      match ← onRight key leaf with
      | none              => pure (.inr none)
      | some (sibling, _) => pure (.inl sibling)) first

/-- The first result of a loop that returns. -/
def firstOf (body : α → Action (Option β)) : List α → Action (Option β)
  | []      => pure none
  | a :: as => do
    match ← body a with
    | none   => firstOf body as
    | some b => pure (some b)

/-- The `visit` of `_path_to_page`. -/
def visit (target : Nat) : Nat → Nat → List (Nat × Nat) → Action (Option (List (Nat × Nat)))
  | 0, page, path     => pure (if page = target then some path else none)
  | n + 1, page, path => do
    let internal ← readInternal page
    firstOf (fun (child, index) => visit target n child ((page, index) :: path)) internal.children.zipIdx

def pathToPage (target : Nat) : Action (Option (List (Nat × Nat))) := do
  let (root, height) ← .read fun s => (s.rootPageId, s.height)
  visit target (height - 1) root []

/-- `try: encode except PageFull: return False` -/
def fits (encoded : Result ByteString) : Action Bool :=
  match encoded with
  | .ok _    => pure true
  | .error e => if e.kind = .pageFull then pure false else .raise (.raised e)

def halfFull (encoded : Result ByteString) : Action Bool := do
  let body ← returned encoded
  pure (decide (pageBodySize / 2 ≤ body.length))

def leafCanLend (page : LeafPage) : Action Bool := if page.entries = [] then pure false else halfFull (encodeLeaf page)

def internalCanLend (page : InternalPage) : Action Bool := if page.keys = [] then pure false else halfFull (encodeInternal page)

def removeParentChild (parent : InternalPage) (childIndex : Nat) : InternalPage :=
  ⟨parent.keys.eraseIdx (if childIndex > 0 then childIndex - 1 else 0), parent.children.eraseIdx childIndex⟩

def setLeafLeftSibling (pageId leftId : Nat) : Action Unit := do
  let leaf ← readLeaf pageId
  writeLeaf pageId { leaf with leftSibling := some leftId }

/-- A sibling lends, when it may and the page has room: the two pages are written, and the separator between them. -/
def lend (canLend : Action Bool) (fit : Action Bool) (write : Action Unit) : Action Bool := do
  if ← canLend then
    if ← fit then do
      write
      pure true
    else pure false
  else pure false

section
variable (pageId : Nat) (page : LeafPage) (parentId childIndex : Nat) (parent : InternalPage)

def borrowLeafLeft : Action Bool :=
  if childIndex > 0 then do
    let leftId ← item parent.children (childIndex - 1)
    let left ← readLeaf leftId
    match left.entries.getLast? with
    | none          => pure false
    | some borrowed => do
      let newLeft := { left with entries := left.entries.dropLast }
      let newPage := { page with entries := borrowed :: page.entries }
      lend (leafCanLend newLeft) (fits (encodeLeaf newPage)) do
        writeLeaf leftId newLeft
        writeLeaf pageId newPage
        writeInternal parentId ⟨parent.keys.set (childIndex - 1) borrowed.key, parent.children⟩
  else pure false

def borrowLeafRight : Action Bool :=
  if childIndex + 1 < parent.children.length then do
    let rightId ← item parent.children (childIndex + 1)
    let right ← readLeaf rightId
    match right.entries with
    | []               => pure false
    | borrowed :: rest => do
      let newPage := { page with entries := page.entries ++ [borrowed] }
      let newRight := { right with entries := rest }
      lend (leafCanLend newRight) (fits (encodeLeaf newPage)) do
        let first ← item rest 0
        writeLeaf pageId newPage
        writeLeaf rightId newRight
        writeInternal parentId ⟨parent.keys.set childIndex first.key, parent.children⟩
  else pure false

/-- Into the left leaf; the parent without the page. -/
def mergeLeafLeft : Action (Option InternalPage) :=
  if childIndex > 0 then do
    let leftId ← item parent.children (childIndex - 1)
    let left ← readLeaf leftId
    let merged : LeafPage := ⟨left.entries ++ page.entries, left.leftSibling, page.rightSibling⟩
    if ← fits (encodeLeaf merged) then do
      writeLeaf leftId merged
      match page.rightSibling with
      | none         => pure ()
      | some sibling => setLeafLeftSibling sibling leftId
      let reduced := removeParentChild parent childIndex
      writeInternal parentId reduced
      pure (some reduced)
    else pure none
  else pure none

/-- With the right leaf; the parent without that one. -/
def mergeLeafRight : Action (Option InternalPage) :=
  if childIndex + 1 < parent.children.length then do
    let rightId ← item parent.children (childIndex + 1)
    let right ← readLeaf rightId
    let merged : LeafPage := ⟨page.entries ++ right.entries, page.leftSibling, right.rightSibling⟩
    if ← fits (encodeLeaf merged) then do
      writeLeaf pageId merged
      match right.rightSibling with
      | none         => pure ()
      | some sibling => setLeafLeftSibling sibling pageId
      let reduced := removeParentChild parent (childIndex + 1)
      writeInternal parentId reduced
      pure (some reduced)
    else pure none
  else pure none

end

section
variable (pageId : Nat) (page : InternalPage) (parentId childIndex : Nat) (parent : InternalPage)

def borrowInternalLeft : Action Bool :=
  if childIndex > 0 then do
    let leftId ← item parent.children (childIndex - 1)
    let left ← readInternal leftId
    match left.keys.getLast? with
    | none   => pure false
    | some k => do
      let separator ← item parent.keys (childIndex - 1)
      let child ← item left.children (left.children.length - 1)
      let newLeft : InternalPage := ⟨left.keys.dropLast, left.children.dropLast⟩
      let newPage : InternalPage := ⟨separator :: page.keys, child :: page.children⟩
      lend (internalCanLend newLeft) (fits (encodeInternal newPage)) do
        writeInternal leftId newLeft
        writeInternal pageId newPage
        writeInternal parentId ⟨parent.keys.set (childIndex - 1) k, parent.children⟩
  else pure false

def borrowInternalRight : Action Bool :=
  if childIndex + 1 < parent.children.length then do
    let rightId ← item parent.children (childIndex + 1)
    let right ← readInternal rightId
    match right.keys with
    | []        => pure false
    | k :: rest => do
      let separator ← item parent.keys childIndex
      let child ← item right.children 0
      let newPage : InternalPage := ⟨page.keys ++ [separator], page.children ++ [child]⟩
      let newRight : InternalPage := ⟨rest, right.children.tail⟩
      lend (internalCanLend newRight) (fits (encodeInternal newPage)) do
        writeInternal pageId newPage
        writeInternal rightId newRight
        writeInternal parentId ⟨parent.keys.set childIndex k, parent.children⟩
  else pure false

/-- Into the left page; the parent without the page. -/
def mergeInternalLeft : Action (Option InternalPage) :=
  if childIndex > 0 then do
    let leftId ← item parent.children (childIndex - 1)
    let left ← readInternal leftId
    let separator ← item parent.keys (childIndex - 1)
    let merged : InternalPage := ⟨left.keys ++ separator :: page.keys, left.children ++ page.children⟩
    if ← fits (encodeInternal merged) then do
      writeInternal leftId merged
      let reduced := removeParentChild parent childIndex
      writeInternal parentId reduced
      pure (some reduced)
    else pure none
  else pure none

/-- With the right page; the parent without that one. -/
def mergeInternalRight : Action (Option InternalPage) :=
  if childIndex + 1 < parent.children.length then do
    let rightId ← item parent.children (childIndex + 1)
    let right ← readInternal rightId
    let separator ← item parent.keys childIndex
    let merged : InternalPage := ⟨page.keys ++ separator :: right.keys, page.children ++ right.children⟩
    if ← fits (encodeInternal merged) then do
      writeInternal pageId merged
      let reduced := removeParentChild parent (childIndex + 1)
      writeInternal parentId reduced
      pure (some reduced)
    else pure none
  else pure none

end

/-- The root with one child left: the child is the root. -/
def shrinkRoot (page : InternalPage) : Action Unit := do
  let height ← .read fun s => s.height
  match page.children with
  | [child] =>
    if height > 1 then do
      .modify fun s => { s with rootPageId := child, height := s.height - 1 }
      writeMeta
    else pure ()
  | _       => pure ()

def rebalanceInternal (pageId : Nat) (page : InternalPage) : List (Nat × Nat) → Action Unit
  | []                               => do
    let root ← .read fun s => s.rootPageId
    if pageId = root then shrinkRoot page
    else if ← halfFull (encodeInternal page) then pure ()
    else raised .corruptPage "non-root internal page has no parent path"
  | (parentId, childIndex) :: higher => do
    let root ← .read fun s => s.rootPageId
    if pageId = root then shrinkRoot page
    else if ← halfFull (encodeInternal page) then pure ()
    else do
      let parent ← readInternal parentId
      if ← borrowInternalLeft pageId page parentId childIndex parent then pure ()
      else if ← borrowInternalRight pageId page parentId childIndex parent then pure ()
      else
        match ← mergeInternalLeft page parentId childIndex parent with
        | some reduced => rebalanceInternal parentId reduced higher
        | none         =>
          match ← mergeInternalRight pageId page parentId childIndex parent with
          | some reduced => rebalanceInternal parentId reduced higher
          | none         => pure ()

def rebalanceLeaf (pageId : Nat) (page : LeafPage) : List (Nat × Nat) → Action Unit
  | []                                  => pure ()
  | (parentId, childIndex) :: ancestors => do
    let full ← halfFull (encodeLeaf page)
    if full ∧ page.entries ≠ [] then pure ()
    else do
      let parent ← readInternal parentId
      if ← borrowLeafLeft pageId page parentId childIndex parent then pure ()
      else if ← borrowLeafRight pageId page parentId childIndex parent then pure ()
      else
        match ← mergeLeafLeft page parentId childIndex parent with
        | some reduced => rebalanceInternal parentId reduced ancestors
        | none         =>
          match ← mergeLeafRight pageId page parentId childIndex parent with
          | some reduced => rebalanceInternal parentId reduced ancestors
          | none         => pure ()

/-- `[f(item) for item in items]` -/
def mapEach (f : α → Action β) : List α → Action (List β)
  | []      => pure []
  | a :: as => do
    let b ← f a
    let bs ← mapEach f as
    pure (b :: bs)

/-- `_refresh_all_separators`, `n` levels above the leaves. -/
def refreshAllSeparators : Nat → Nat → Action (Option Key)
  | 0, page     => do
    let leaf ← readLeaf page
    pure (leaf.entries.head?.map LeafEntry.key)
  | n + 1, page => do
    let internal ← readInternal page
    let firstKeys ← mapEach (refreshAllSeparators n) internal.children
    if firstKeys.tail.any Option.isNone then raised .corruptPage "non-leftmost BTree subtree is empty"
    else do
      let refreshed : InternalPage := ⟨firstKeys.tail.filterMap fun k => k, internal.children⟩
      if refreshed ≠ internal then writeInternal page refreshed else pure ()
      item firstKeys 0

def delete (key : Key) (tid : TID) : Action Bool := do
  match ← locateEntryLeaf key tid with
  | none        => pure false
  | some leafId => do
    match ← pathToPage leafId with
    | none      => raised .corruptPage "reachable BTree leaf has no root path"
    | some path => do
      let leaf ← readLeaf leafId
      if ⟨key, tid⟩ ∈ leaf.entries then do
        let updated := { leaf with entries := leaf.entries.erase ⟨key, tid⟩ }
        writeLeaf leafId updated
        rebalanceLeaf leafId updated path
        let (root, height) ← .read fun s => (s.rootPageId, s.height)
        let _ ← refreshAllSeparators (height - 1) root
        pure true
      else pure false

end TreeFile
end MiniPostgres
