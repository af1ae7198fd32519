import MiniPostgres.HeapRun
/-!
# Index — index keys, trees and the index-aware table

`index/key.py`, the multimap that `index/btree.py` implements, and the version writes of `storage/indexed.py`.  A tree is
the list of its entries: `insert` and `delete` act on one exact key/TID pair and `search` returns the TIDs of a key in TID
order, which is all that the table reads of it.

The locks of `insert_mvcc` and `replace_mvcc` are not here: a function of this module is what one of them does once it has
the locks.
-/
namespace MiniPostgres

abbrev Key := List UInt8

/-! ## Key encoding -/

def bigEndian64 (n : Nat) : List UInt8 := (List.range 8).reverse.map (fun i => UInt8.ofNat (n / 256 ^ i % 256))

def signBit : Nat := 2 ^ 63

/-- An IEEE 754 pattern with all exponent bits and a non-zero fraction. -/
def isNan (bits : BitVec 64) : Bool := decide (bits.toNat / 2 ^ 52 % 2 ^ 11 = 2 ^ 11 - 1 ∧ bits.toNat % 2 ^ 52 ≠ 0)

/-- The bit flip that makes byte order the order of floats. -/
def sortableFloat (bits : BitVec 64) : Nat :=
  if signBit ≤ bits.toNat then 2 ^ 64 - 1 - bits.toNat else bits.toNat + signBit

/-- A zero byte of a text is escaped, and the text ends with two zero bytes. -/
def escapeText (bytes : List UInt8) : List UInt8 := bytes.flatMap (fun b => if b = 0 then [0, 255] else [b]) ++ [0, 0]

def encodeComponent (dataType : DataType) (value : Scalar) : Result (List UInt8) :=
  match value with
  | .null => raise .typeMismatch "NULL index key is outside the frozen scope"
  | value =>
    match dataType with
    | .int64 =>
      match value with
      | .int n => do
        let n ← validateInt64 n
        .ok (1 :: bigEndian64 (n + signBit).toNat)
      | _ => raise .typeMismatch "index key component must be INT64"
    | .float64 =>
      match value with
      | .float bits =>
        if isNan bits then raise .typeMismatch "NaN index keys are outside the frozen scope"
        else .ok (2 :: bigEndian64 (sortableFloat bits))
      | _ => raise .typeMismatch "index key component must be FLOAT64"
    | .boolean =>
      match value with
      | .bool b => .ok [3, if b then 1 else 0]
      | _ => raise .typeMismatch "index key component must be BOOLEAN"
    | .text =>
      match value with
      | .text s => .ok (4 :: escapeText (utf8 s))
      | _ => raise .typeMismatch "index key component must be TEXT"

/-- The loop of `KeyCodec.encode` over the zipped types and values. -/
def encodeComponents : List DataType → Values → Result Key
  | d :: ds, v :: vs => do
    let bytes ← encodeComponent d v
    let rest ← encodeComponents ds vs
    .ok (bytes ++ rest)
  | _, _ => .ok []

def KeyCodec.encode (dataTypes : List DataType) (values : Values) : Result Key :=
  if values.length ≠ dataTypes.length then
    raise .typeMismatch ("index key requires " ++ toString dataTypes.length ++ " components")
  else encodeComponents dataTypes values

/-! ## Trees and bindings -/

/-- The entries of a B+Tree. -/
abbrev BTree := List (Key × TID)

namespace BTree

def search (tree : BTree) (key : Key) : List TID :=
  (((tree.filter (fun e => e.1 = key)).map Prod.snd).dedup).insertionSort (fun a b => a = b ∨ a.before b)

def insert (tree : BTree) (key : Key) (tid : TID) : BTree := if tid ∈ tree.search key then tree else tree ++ [(key, tid)]

def delete (tree : BTree) (key : Key) (tid : TID) : BTree × Bool :=
  if (key, tid) ∈ tree then (tree.erase (key, tid), true) else (tree, false)

theorem mem_search {tree : BTree} {key : Key} {tid : TID} : tid ∈ tree.search key ↔ (key, tid) ∈ tree := by
  simp only [search, List.mem_insertionSort, List.mem_dedup, List.mem_map, List.mem_filter, decide_eq_true_eq]
  constructor
  · rintro ⟨⟨k, t⟩, ⟨hm, rfl⟩, rfl⟩; exact hm
  · intro h; exact ⟨(key, tid), ⟨h, rfl⟩, rfl⟩

end BTree

structure IndexMetadata where
  indexId   : Nat
  name      : List Char
  columnIds : List Nat
  unique    : Bool
  deriving DecidableEq, Repr

structure IndexBinding where
  metadata  : IndexMetadata
  dataTypes : List DataType
  tree      : BTree
  deriving DecidableEq

/-- The values of the index's columns. -/
def indexedValues (values : Values) : List Nat → Result Values
  | [] => .ok []
  | c :: cs =>
    match values[c]? with
    | none   => raise .indexError "tuple index out of range"
    | some v => do let rest ← indexedValues values cs; .ok (v :: rest)

/-- `IndexBinding.key`: a type mismatch of the codec is a constraint violation. -/
def IndexBinding.key (b : IndexBinding) (values : Values) : Result Key := do
  let columns ← indexedValues values b.metadata.columnIds
  match KeyCodec.encode b.dataTypes columns with
  | .ok key  => .ok key
  | .error e => if e.kind = .typeMismatch then raise .constraintViolation e.message else .error e

/-! ## The index-aware table -/

structure IndexedTable where
  heap    : HeapTable
  indexes : List IndexBinding
  deriving DecidableEq

/-- `_keys`: one key for each index. -/
def keysOf : List IndexBinding → Values → Result (List Key)
  | [], _ => .ok []
  | b :: bs, values => do
    let key ← b.key values
    let keys ← keysOf bs values
    .ok (key :: keys)

/-- The entries of a new version, one in each index. -/
def insertKeys : List IndexBinding → List Key → TID → List IndexBinding
  | b :: bs, k :: ks, tid => { b with tree := b.tree.insert k tid } :: insertKeys bs ks tid
  | bs, _, _ => bs

/-- The test `_check_unique_global` makes on one candidate version: it rejects the key. -/
def uniqueConflict (version : TupleVersion) (xid : Nat) (statuses : StatusTable) : Bool :=
  decide (¬ ((if version.xmin = xid then TransactionStatus.inProgress else statuses.get version.xmin) = .aborted) ∧
    version.xmax ≠ xid ∧ ¬ (version.xmax ≠ 0 ∧ statuses.get version.xmax = .committed))

/-- The candidates of one key, but for the version being replaced. -/
def conflicts (heap : HeapTable) (b : IndexBinding) (key : Key) (xid : Nat) (statuses : StatusTable)
    (ignored : Option TID) : Bool :=
  (b.tree.search key).any (fun c => decide (some c ≠ ignored) &&
    match heap.physicalVersion c with
    | none   => false
    | some v => uniqueConflict v xid statuses)

def checkUniqueGlobal (heap : HeapTable) (xid : Nat) (statuses : StatusTable) (ignored : Option TID) :
    List IndexBinding → List Key → Result Unit
  | b :: bs, k :: ks =>
    if b.metadata.unique ∧ conflicts heap b k xid statuses ignored then
      raise .constraintViolation ("unique index " ++ String.ofList b.metadata.name ++ " rejects duplicate key")
    else checkUniqueGlobal heap xid statuses ignored bs ks
  | _, _ => .ok ()

def hotEligible (sameHeapPage : Bool) (oldKeys newKeys : List Key) : Bool := sameHeapPage && decide (oldKeys = newKeys)

/-- `CREATE INDEX`: the entries of the committed live rows. -/
def buildTree (b : IndexBinding) : List (TID × Values) → List Key → Result BTree
  | [], _ => .ok b.tree
  | (tid, values) :: rows, seen => do
    let key ← b.key values
    if b.metadata.unique ∧ key ∈ seen then
      raise .constraintViolation ("unique index " ++ String.ofList b.metadata.name ++ " rejects duplicate key")
    else buildTree { b with tree := b.tree.insert key tid } rows (key :: seen)

end MiniPostgres
