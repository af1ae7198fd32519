import MiniPostgres.Index
import MiniPostgres.Horizon
/-!
# Vacuum — chain pruning and ordinary reclamation

`version_chain` and `prune_chain` of `heap.py` and `vacuum` of `indexed.py`.  The first loop picks the chains whose root is
indexed and whose second member is not, and unlinks their dead inner members; the second loop reclaims the other dead
versions with their index entries.  Both loops run over the versions scanned at the start, and read the heap as it is
when they reach them.
-/
namespace MiniPostgres

namespace HeapTable

/-- The loop of `version_chain`, from a root on page `page`. -/
def versionChainLoop (t : HeapTable) (page : Nat) : Nat → List TID → Option TID → Result (List (TID × TupleVersion))
  | _, _, none => .ok []
  | 0, _, some _ => raise .corruptPage "tuple version chain contains a cycle"
  | n + 1, visited, some current =>
    if current ∈ visited then raise .corruptPage "tuple version chain contains a cycle"
    else if current.pageId ≠ page then raise .corruptPage "HOT chain leaves its root heap page"
    else
      match t.physicalVersion current with
      | none         => raise .corruptPage "tuple version chain points to a dead slot"
      | some version => do
        let rest ← t.versionChainLoop page n (current :: visited) version.nextTid
        .ok ((current, version) :: rest)

def versionChain (t : HeapTable) (rootTid : TID) : Result (List (TID × TupleVersion)) :=
  t.versionChainLoop rootTid.pageId (t.scanVersions.length + 1) [] (some rootTid)

/-- The loop of `prune_chain`; the counters are the versions and the bytes removed. -/
def pruneLoop (removable : List TID) :
    Nat → HeapTable → TID → TupleVersion → Option TID → Nat × Nat → Result (HeapTable × Nat × Nat)
  | _, t, _, _, none, counters => .ok (t, counters)
  | 0, _, _, _, some _, _ => raise .runtimeError "the pruned chain is longer than the heap"
  | n + 1, t, predecessorTid, predecessor, some current, (removed, reclaimed) =>
    match t.physicalVersion current with
    | none         => raise .corruptPage "tuple version chain points to a dead slot"
    | some version =>
      if current ∈ removable then do
        let predecessor := { predecessor with nextTid := version.nextTid }
        let t ← t.setVersion predecessorTid predecessor
        let (t, bytes) := t.reclaimVersion current
        pruneLoop removable n t predecessorTid predecessor version.nextTid (removed + 1, reclaimed + bytes)
      else pruneLoop removable n t current version version.nextTid (removed, reclaimed)

def pruneChain (t : HeapTable) (rootTid : TID) (removable : List TID) : Result (HeapTable × Nat × Nat) :=
  match t.physicalVersion rootTid with
  | none             => .ok (t, 0, 0)
  | some predecessor => pruneLoop removable (t.scanVersions.length + 1) t rootTid predecessor predecessor.nextTid (0, 0)

end HeapTable

structure VacuumResult where
  pagesScanned        : Nat
  deadVersionsRemoved : Nat
  indexEntriesRemoved : Nat
  reclaimedBytes      : Nat
  hotVersionsPruned   : Nat
  deriving DecidableEq, Repr

/-- `any(tid in tree.search(key) for binding in indexes)`: the first hit ends the loop. -/
def indexedByAny (tid : TID) (values : Values) : List IndexBinding → Result Bool
  | [] => .ok false
  | b :: bs => do
    let key ← b.key values
    if tid ∈ b.tree.search key then .ok true else indexedByAny tid values bs

/-- `any(tid not in tree.search(key) for binding in indexes)`, negated. -/
def indexedByAll (tid : TID) (values : Values) : List IndexBinding → Result Bool
  | [] => .ok true
  | b :: bs => do
    let key ← b.key values
    if tid ∈ b.tree.search key then indexedByAll tid values bs else .ok false

def deleteKeys : List IndexBinding → List Key → TID → List IndexBinding × Nat
  | b :: bs, k :: ks, tid =>
    let (tree, found) := b.tree.delete k tid
    let (bs', n) := deleteKeys bs ks tid
    ({ b with tree := tree } :: bs', if found then n + 1 else n)
  | bs, _, _ => (bs, 0)

/-- What the first loop carries: the heap, the TIDs of the chains it walked, versions pruned and bytes freed. -/
structure Pruning where
  heap      : HeapTable
  processed : List TID
  pruned    : Nat
  bytes     : Nat

/-- The members of a pruned chain that go: the dead ones but for the root and the newest. -/
def removableOf (chain : List (TID × TupleVersion)) (horizon : Nat) (statuses : StatusTable) : List TID :=
  ((chain.tail.filter (fun p => classifyVersion p.2 horizon statuses = .dead)).map Prod.fst).filter
    (fun tid => some tid ≠ (chain.getLast?).map Prod.fst)

/-- Whether the first loop prunes the chain of this version of the scan. -/
def selects (indexes : List IndexBinding) (continuations : List TID) (heap : HeapTable) (rootTid : TID)
    (rootVersion : TupleVersion) : Result Bool :=
  match rootVersion.nextTid with
  | none      => .ok false
  | some next =>
    if rootTid ∈ continuations then .ok false
    else do
      let rootIndexed ← indexedByAny rootTid rootVersion.values indexes
      let successorIndexed ← match heap.physicalVersion next with
        | none           => .ok false
        | some successor => indexedByAny next successor.values indexes
      .ok (rootIndexed && !successorIndexed)

def pruneStep (indexes : List IndexBinding) (continuations : List TID) (horizon : Nat) (statuses : StatusTable)
    (p : Pruning) (root : TID × TupleVersion) : Result Pruning := do
  let selected ← selects indexes continuations p.heap root.1 root.2
  if selected then do
    let chain ← p.heap.versionChain root.1
    let (heap, pruned, bytes) ← p.heap.pruneChain root.1 (removableOf chain horizon statuses)
    .ok ⟨heap, chain.map Prod.fst ++ p.processed, p.pruned + pruned, p.bytes + bytes⟩
  else .ok p

/-- What the second loop carries. -/
structure Sweeping where
  heap    : HeapTable
  indexes : List IndexBinding
  removed : Nat
  entries : Nat
  bytes   : Nat

/-- The guard of the second loop: an indexed table keeps a version whose next version is not indexed on its own. -/
def heldBack (heap : HeapTable) (indexes : List IndexBinding) (version : TupleVersion) : Result Bool :=
  match version.nextTid with
  | none      => .ok false
  | some next =>
    if indexes = [] then .ok false
    else
      match heap.physicalVersion next with
      | none           => .ok true
      | some successor => do
        let indexed ← indexedByAll next successor.values indexes
        .ok !indexed

def sweepStep (processed : List TID) (horizon : Nat) (statuses : StatusTable) (s : Sweeping)
    (item : TID × TupleVersion) : Result Sweeping :=
  if item.1 ∈ processed then .ok s
  else do
    let held ← heldBack s.heap s.indexes item.2
    if held then .ok s
    else if classifyVersion item.2 horizon statuses = .keep then .ok s
    else do
      let keys ← keysOf s.indexes item.2.values
      let (indexes, found) := deleteKeys s.indexes keys item.1
      let (heap, bytes) := s.heap.reclaimVersion item.1
      .ok ⟨heap, indexes, if bytes = 0 then s.removed else s.removed + 1, s.entries + found, s.bytes + bytes⟩

def IndexedTable.vacuum (t : IndexedTable) (horizon : Nat) (statuses : StatusTable) :
    Result (IndexedTable × VacuumResult) := do
  let versions := t.heap.scanVersions
  let p ← versions.foldlM (pruneStep t.indexes t.heap.continuations horizon statuses) ⟨t.heap, [], 0, 0⟩
  let s ← versions.foldlM (sweepStep p.processed horizon statuses) ⟨p.heap, t.indexes, p.pruned, 0, p.bytes⟩
  .ok (⟨s.heap, s.indexes⟩, ⟨s.heap.pages.length, s.removed, s.entries, s.bytes, p.pruned⟩)

end MiniPostgres
