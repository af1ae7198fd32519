import MiniPostgres.VacuumSpec
import MiniPostgres.Refinement
/-!
# TableRun — transactions, indexes and vacuums over one table

The calls of `HeapRun.lean`, the index-aware writes of `storage/indexed.py` as one session makes them, `CREATE INDEX`, any
other change of the index entries, and vacuums.  A vacuum that raises keeps what it did before it raised.

`call_stepped` says that every call but a vacuum is a step of the heap.
-/
namespace MiniPostgres

open History (Write WF getElem?_concat lt_of_getElem?)

structure TableState where
  heap    : HeapState
  indexes : List IndexBinding

/-- A fold of raising steps, up to the first one that raises. -/
def progress {σ α : Type} (f : σ → α → Result σ) : σ → List α → σ
  | s, [] => s
  | s, a :: l =>
    match f s a with
    | .ok s'   => progress f s' l
    | .error _ => s

theorem progress_of_ok {σ α : Type} {f : σ → α → Result σ} : ∀ {l : List α} {s s' : σ}, l.foldlM f s = .ok s' →
    progress f s l = s'
  | [], _, _, h => by cases h; rfl
  | a :: l, s, s', h => by
    rw [List.foldlM_cons] at h
    obtain ⟨s₁, h₁, h₂⟩ := bind_eq_ok.1 h
    simp only [progress, h₁]
    exact progress_of_ok h₂

theorem progress_keeps {σ α : Type} {f : σ → α → Result σ} {P : σ → Prop}
    (hstep : ∀ s a s', P s → f s a = .ok s' → P s') : ∀ (l : List α) (s : σ), P s → P (progress f s l)
  | [], _, h => h
  | a :: l, s, h => by
    simp only [progress]
    split
    · rename_i s' hs
      exact progress_keeps hstep l s' (hstep s a s' h hs)
    · exact h

/-- What a vacuum leaves behind, also when it raises. -/
def IndexedTable.vacuumEffect (t : IndexedTable) (horizon : Nat) (statuses : StatusTable) : IndexedTable :=
  let p := progress (pruneStep t.indexes t.heap.continuations horizon statuses) ⟨t.heap, [], 0, 0⟩ t.heap.scanVersions
  match t.heap.scanVersions.foldlM (pruneStep t.indexes t.heap.continuations horizon statuses) ⟨t.heap, [], 0, 0⟩ with
  | .error _ => ⟨p.heap, t.indexes⟩
  | .ok p    =>
    let s := progress (sweepStep p.processed horizon statuses) ⟨p.heap, t.indexes, p.pruned, 0, p.bytes⟩
      t.heap.scanVersions
    ⟨s.heap, s.indexes⟩

theorem vacuumEffect_of_ok {t t' : IndexedTable} {horizon : Nat} {st : StatusTable} {r : VacuumResult}
    (h : t.vacuum horizon st = .ok (t', r)) : t.vacuumEffect horizon st = t' := by
  obtain ⟨p, hp, h⟩ := bind_eq_ok.1 h
  obtain ⟨s, hs, he⟩ := bind_eq_ok.1 h
  cases he
  unfold IndexedTable.vacuumEffect
  rw [hp]
  simp only [progress_of_ok hs]

namespace TableState

def start (r : Recovered) (schema : Schema) : TableState := ⟨HeapState.start r schema, []⟩

def table (s : TableState) : IndexedTable := ⟨s.heap.table, s.indexes⟩

def statuses (s : TableState) : StatusTable := s.heap.manager.statuses

def insertMvcc (s : TableState) (xid : Nat) (values : Values) : Result (TableState × TID) := do
  let validated ← s.heap.table.schema.validateRow values
  let keys ← keysOf s.indexes validated
  checkUniqueGlobal s.heap.table xid s.statuses none s.indexes keys
  let (heap, tid) ← s.heap.insertVersion xid validated
  .ok (⟨heap, insertKeys s.indexes keys tid⟩, tid)

def checkRepeatableReadWriteConflict (s : TableState) (rootTid : TID) (t : Transaction) (snapshot : Snapshot)
    (globallyLive : Option (TID × Values)) : Result Unit :=
  if t.isolation ≠ .repeatableRead then .ok ()
  else do
    let visible ← s.heap.table.resolveVisible rootTid snapshot t.xid s.statuses
    if visible.map Prod.fst ≠ globallyLive.map Prod.fst then
      raise .serializationConflict "could not serialize access due to concurrent update"
    else .ok ()

/-- `replace_mvcc`; the flag is false when the recheck of the predicate refused the newest version. -/
def replaceMvcc (s : TableState) (xid : Nat) (tid : TID) (snapshot : Snapshot) (values : Values)
    (recheck : Values → Bool) : Result (TableState × Option TID × Bool) := do
  let t ← s.heap.manager.object xid
  let root ← s.heap.table.rootTid tid
  let visible ← s.heap.table.resolveGloballyLive root xid s.statuses
  s.checkRepeatableReadWriteConflict root t snapshot visible
  match visible with
  | none => .ok (s, none, true)
  | some (visibleTid, oldValues) =>
    if t.isolation = .readCommitted ∧ recheck oldValues = false then .ok (s, none, false)
    else do
      let validated ← s.heap.table.schema.validateRow values
      let oldKeys ← keysOf s.indexes oldValues
      let newKeys ← keysOf s.indexes validated
      checkUniqueGlobal s.heap.table xid s.statuses (some visibleTid) s.indexes newKeys
      let (heap, replacement) ← s.heap.replaceVersion xid visibleTid validated
      match replacement with
      | none     => .ok (s, none, true)
      | some new =>
        if hotEligible (decide (new.pageId = visibleTid.pageId)) oldKeys newKeys then .ok (⟨heap, s.indexes⟩, some new, true)
        else .ok (⟨heap, insertKeys s.indexes newKeys new⟩, some new, true)

def deleteMvcc (s : TableState) (xid : Nat) (tid : TID) (snapshot : Snapshot) (recheck : Values → Bool) :
    Result (TableState × Bool) := do
  let t ← s.heap.manager.object xid
  let root ← s.heap.table.rootTid tid
  let visible ← s.heap.table.resolveGloballyLive root xid s.statuses
  s.checkRepeatableReadWriteConflict root t snapshot visible
  match visible with
  | none => .ok (s, false)
  | some (visibleTid, oldValues) =>
    if t.isolation = .readCommitted ∧ recheck oldValues = false then .ok (s, false)
    else do
      let (heap, deleted) ← s.heap.deleteVersion xid visibleTid
      .ok (⟨heap, s.indexes⟩, deleted)

/-- `CREATE INDEX` over the committed live rows. -/
def createIndex (s : TableState) (metadata : IndexMetadata) (dataTypes : List DataType) : Result TableState := do
  let rows ← s.heap.table.scanGloballyLive s.statuses
  let tree ← buildTree ⟨metadata, dataTypes, []⟩ rows []
  .ok ⟨s.heap, s.indexes ++ [⟨metadata, dataTypes, tree⟩]⟩

end TableState

inductive TableCall
  | heap (c : HeapCall)
  /-- Any change of the index entries. -/
  | indexes (bs : List IndexBinding)
  | insertMvcc (xid : Nat) (values : Values)
  | replaceMvcc (xid : Nat) (tid : TID) (snapshot : Snapshot) (values : Values)
  | deleteMvcc (xid : Nat) (tid : TID) (snapshot : Snapshot)
  | createIndex (metadata : IndexMetadata) (dataTypes : List DataType)
  | vacuum (horizon : Nat)

namespace TableState

def call (s : TableState) : TableCall → Result TableState
  | .heap c              => do let h ← s.heap.call c; .ok ⟨h, s.indexes⟩
  | .indexes bs          => .ok ⟨s.heap, bs⟩
  | .insertMvcc x v      => do let r ← s.insertMvcc x v; .ok r.1
  | .replaceMvcc x a n v => do let r ← s.replaceMvcc x a n v (fun _ => true); .ok r.1
  | .deleteMvcc x a n    => do let r ← s.deleteMvcc x a n (fun _ => true); .ok r.1
  | .createIndex m d     => s.createIndex m d
  | .vacuum horizon      =>
    let t := s.table.vacuumEffect horizon s.statuses
    .ok ⟨{ s.heap with table := t.heap }, t.indexes⟩

def step (s : TableState) (c : TableCall) : TableState :=
  match s.call c with
  | .ok s'   => s'
  | .error _ => s

def run (s : TableState) (calls : List TableCall) : TableState := calls.foldl step s

/-- Every step of the run meets a condition, in the state before it. -/
def Along (P : TableState → TableCall → Prop) : TableState → List TableCall → Prop
  | _, [] => True
  | s, c :: calls => P s c ∧ Along P (s.step c) calls

end TableState

/-! ## What one call can do -/

/-- A call writes over no version, or over one that is live for the writer. -/
def TableCall.liveWrite (s : TableState) : TableCall → Prop
  | .heap c => c.liveWrite s.heap
  | _       => True

namespace TableState

theorem insertMvcc_stepped {live : Prop} {s s' : TableState} (hi : TransactionManager.Inv s.heap.manager) {x : Nat}
    {values : Values} {tid : TID} (h : s.insertMvcc x values = .ok (s', tid)) : HeapStepped live s.heap s'.heap := by
  obtain ⟨validated, -, h⟩ := bind_eq_ok.1 h
  obtain ⟨keys, -, h⟩ := bind_eq_ok.1 h
  obtain ⟨u, -, h⟩ := bind_eq_ok.1 h
  obtain ⟨⟨heap, tid'⟩, hins, he⟩ := bind_eq_ok.1 h
  cases he
  exact HeapState.insertVersion_stepped hi hins

theorem replaceMvcc_stepped {s s' : TableState} (hi : TransactionManager.Inv s.heap.manager)
    (hx : ∀ a v, s.heap.table.physicalVersion a = some v → 2 ≤ v.xmin) {x : Nat} {tid : TID} {n : Snapshot}
    {values : Values} {recheck : Values → Bool} {r : Option TID × Bool}
    (h : s.replaceMvcc x tid n values recheck = .ok (s', r)) : HeapStepped True s.heap s'.heap := by
  obtain ⟨t, -, h⟩ := bind_eq_ok.1 h
  obtain ⟨root, -, h⟩ := bind_eq_ok.1 h
  obtain ⟨visible, hv, h⟩ := bind_eq_ok.1 h
  obtain ⟨u, -, h⟩ := bind_eq_ok.1 h
  cases visible with
  | none => cases h; exact .same
  | some q =>
    obtain ⟨a, old⟩ := q
    simp only at h
    split at h
    · cases h; exact .same
    · obtain ⟨validated, -, h⟩ := bind_eq_ok.1 h
      obtain ⟨oldKeys, -, h⟩ := bind_eq_ok.1 h
      obtain ⟨newKeys, -, h⟩ := bind_eq_ok.1 h
      obtain ⟨u, -, h⟩ := bind_eq_ok.1 h
      obtain ⟨⟨heap, replacement⟩, hr, h⟩ := bind_eq_ok.1 h
      have hs : HeapStepped True s.heap heap :=
        HeapState.replaceVersion_stepped hi (fun _ => HeapState.liveFor_of_resolved hx hv) hr
      cases replacement with
      | none => cases h; exact .same
      | some new =>
        simp only at h
        split at h
        · cases h; exact hs
        · cases h; exact hs

theorem deleteMvcc_stepped {s s' : TableState} (hi : TransactionManager.Inv s.heap.manager)
    (hx : ∀ a v, s.heap.table.physicalVersion a = some v → 2 ≤ v.xmin) {x : Nat} {tid : TID} {n : Snapshot}
    {recheck : Values → Bool} {b : Bool} (h : s.deleteMvcc x tid n recheck = .ok (s', b)) : HeapStepped True s.heap s'.heap := by
  obtain ⟨t, -, h⟩ := bind_eq_ok.1 h
  obtain ⟨root, -, h⟩ := bind_eq_ok.1 h
  obtain ⟨visible, hv, h⟩ := bind_eq_ok.1 h
  obtain ⟨u, -, h⟩ := bind_eq_ok.1 h
  cases visible with
  | none => cases h; exact .same
  | some q =>
    obtain ⟨a, old⟩ := q
    simp only at h
    split at h
    · cases h; exact .same
    · obtain ⟨⟨heap, deleted⟩, hr, he⟩ := bind_eq_ok.1 h
      cases he
      exact HeapState.deleteVersion_stepped hi (fun _ => HeapState.liveFor_of_resolved hx hv) hr

/-- **Every call but a vacuum is a step of the heap.** -/
theorem call_stepped {live : Prop} {s s' : TableState} (hi : TransactionManager.Inv s.heap.manager)
    (hx : ∀ a v, s.heap.table.physicalVersion a = some v → 2 ≤ v.xmin) {c : TableCall}
    (hv : ∀ horizon, c ≠ .vacuum horizon) (hlive : live → c.liveWrite s) (h : s.call c = .ok s') :
    HeapStepped live s.heap s'.heap := by
  cases c with
  | heap c =>
    obtain ⟨h', hc, he⟩ := bind_eq_ok.1 h
    cases he
    exact HeapState.call_stepped hi hx hlive hc
  | indexes bs => cases h; exact .same
  | insertMvcc x v =>
    obtain ⟨⟨s₁, tid⟩, hr, he⟩ := bind_eq_ok.1 h
    cases he
    exact insertMvcc_stepped hi hr
  | replaceMvcc x a n v =>
    obtain ⟨⟨s₁, r⟩, hr, he⟩ := bind_eq_ok.1 h
    cases he
    exact (replaceMvcc_stepped hi hx hr).weaken (fun _ => trivial)
  | deleteMvcc x a n =>
    obtain ⟨⟨s₁, r⟩, hr, he⟩ := bind_eq_ok.1 h
    cases he
    exact (deleteMvcc_stepped hi hx hr).weaken (fun _ => trivial)
  | createIndex m d =>
    obtain ⟨rows, -, h⟩ := bind_eq_ok.1 h
    obtain ⟨tree, -, he⟩ := bind_eq_ok.1 h
    cases he
    exact .same
  | vacuum horizon => exact absurd rfl (hv horizon)

theorem step_stepped {live : Prop} {s : TableState} (hi : TransactionManager.Inv s.heap.manager)
    (hx : ∀ a v, s.heap.table.physicalVersion a = some v → 2 ≤ v.xmin) {c : TableCall}
    (hv : ∀ horizon, c ≠ .vacuum horizon) (hlive : live → c.liveWrite s) : HeapStepped live s.heap (s.step c).heap := by
  unfold step
  split
  · rename_i s' hs
    exact call_stepped hi hx hv hlive hs
  · exact .same

theorem step_vacuum (s : TableState) (horizon : Nat) :
    s.step (.vacuum horizon) = ⟨{ s.heap with table := (s.table.vacuumEffect horizon s.statuses).heap },
      (s.table.vacuumEffect horizon s.statuses).indexes⟩ := rfl

end TableState
end MiniPostgres
