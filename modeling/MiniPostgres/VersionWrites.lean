import MiniPostgres.HeapSpec
import MiniPostgres.Vacuum
/-!
# VersionWrites — rewrites of a stored version, in any order

The five functions of `heap.py` that write versions, and the outcomes of the transactions.  An exception leaves what the function
had written before it, so here a function gives back the heap with its result or its exception (`Kept`); where the function of
`Heap.lean` returns, the two agree.
-/
namespace MiniPostgres
namespace HeapTable

/-- A function of the heap that may raise, with the heap it leaves. -/
abbrev Kept (α : Type) := HeapTable → HeapTable × Result α

namespace Kept

variable {α β : Type}

def pure (a : α) : Kept α := fun t => (t, .ok a)

def bind (x : Kept α) (f : α → Kept β) : Kept β := fun t =>
  match (x t).2 with
  | .ok a    => f a (x t).1
  | .error e => ((x t).1, .error e)

/-- A function that writes nothing when it raises. -/
def ofResult (f : HeapTable → Result (HeapTable × α)) : Kept α := fun t =>
  match f t with
  | .ok (t', a) => (t', .ok a)
  | .error e    => (t, .error e)

/-- The result together with the heap, if the action returns. -/
def returned (p : HeapTable × Result α) : Result (HeapTable × α) := p.2.map (fun a => (p.1, a))

theorem returned_ofResult (f : HeapTable → Result (HeapTable × α)) (t : HeapTable) : returned (ofResult f t) = f t := by
  unfold ofResult
  cases f t <;> rfl

theorem ofResult_ok {f : HeapTable → Result (HeapTable × α)} {t t' : HeapTable} {a : α} (h : f t = .ok (t', a)) :
    ofResult f t = (t', .ok a) := by
  unfold ofResult
  rw [h]

theorem ofResult_error {f : HeapTable → Result (HeapTable × α)} {t : HeapTable} {e : Error} (h : f t = .error e) :
    ofResult f t = (t, .error e) := by
  unfold ofResult
  rw [h]

theorem bind_ok {x : Kept α} {f : α → Kept β} {t : HeapTable} {a : α} (h : (x t).2 = .ok a) : bind x f t = f a (x t).1 := by
  unfold bind
  rw [h]

theorem bind_error {x : Kept α} {f : α → Kept β} {t : HeapTable} {e : Error} (h : (x t).2 = .error e) :
    bind x f t = ((x t).1, .error e) := by
  unfold bind
  rw [h]

theorem returned_bind (x : Kept α) (f : α → Kept β) (t : HeapTable) :
    returned (bind x f t) = (returned (x t)).bind (fun p => returned (f p.2 p.1)) := by
  unfold bind returned
  cases (x t).2 <;> rfl

end Kept

/-! ## The functions, with what an exception leaves -/

def tryPagesKept (v : TupleVersion) : List Nat → Kept (Option TID)
  | []              => .pure none
  | pageId :: pages => .bind (.ofResult (fun t => t.tryInsert pageId v)) (fun tid =>
    match tid with
    | some tid => .pure (some tid)
    | none     => tryPagesKept v pages)

def placeKept (v : TupleVersion) (size : Nat) (preferredPageId : Option Nat) : Kept TID :=
  .bind (tryPagesKept v preferredPageId.toList) (fun preferred =>
    match preferred with
    | some tid => .pure tid
    | none     => fun t =>
      Kept.bind (tryPagesKept v ((t.freeSpace.candidatePages size).filter (fun p => some p ≠ preferredPageId))) (fun found =>
        match found with
        | some tid => .pure tid
        | none     => .ofResult (fun t => t.insertNewPage v)) t)

def insertVersionKept (xid : Nat) (values : Values) (preferredPageId : Option Nat) : Kept TID := fun t =>
  match t.schema.validateRow values with
  | .error e      => (t, .error e)
  | .ok validated =>
    match encodeVersion t.schema ⟨xid, 0, none, validated⟩ with
    | .error e => (t, .error e)
    | .ok size => placeKept ⟨xid, 0, none, validated⟩ size preferredPageId t

def setVersionKept (tid : TID) (version : TupleVersion) : Kept Unit :=
  .ofResult (fun t => (t.setVersion tid version).map (fun t' => (t', ())))

def replaceVersionKept (tid : TID) (xid : Nat) (statuses : StatusTable) (values : Values) : Kept (Option TID) := fun t =>
  match t.physicalVersion tid with
  | none     => (t, .ok none)
  | some old =>
    if writable old statuses then
      Kept.bind (insertVersionKept xid values (some tid.pageId)) (fun replacement =>
        .bind (setVersionKept tid ⟨old.xmin, xid, some replacement, old.values⟩) (fun _ => .pure (some replacement))) t
    else (t, .ok none)

def deleteVersionKept (tid : TID) (xid : Nat) (statuses : StatusTable) : Kept Bool := fun t =>
  match t.physicalVersion tid with
  | none     => (t, .ok false)
  | some old =>
    if writable old statuses then
      Kept.bind (setVersionKept tid ⟨old.xmin, xid, old.nextTid, old.values⟩) (fun _ => .pure true) t
    else (t, .ok false)

def reclaimVersionKept (tid : TID) : Kept Nat := fun t => ((t.reclaimVersion tid).1, .ok (t.reclaimVersion tid).2)

def pruneLoopKept (removable : List TID) : Nat → TID → TupleVersion → Option TID → Nat × Nat → Kept (Nat × Nat)
  | _, _, _, none, counters                                                  => .pure counters
  | 0, _, _, some _, _                                                       =>
    fun t => (t, raise .runtimeError "the pruned chain is longer than the heap")
  | n + 1, predecessorTid, predecessor, some current, (removed, reclaimed) => fun t =>
    match t.physicalVersion current with
    | none         => (t, raise .corruptPage "tuple version chain points to a dead slot")
    | some version =>
      if current ∈ removable then
        Kept.bind (setVersionKept predecessorTid { predecessor with nextTid := version.nextTid }) (fun _ =>
          .bind (reclaimVersionKept current) (fun bytes =>
            pruneLoopKept removable n predecessorTid { predecessor with nextTid := version.nextTid } version.nextTid
              (removed + 1, reclaimed + bytes))) t
      else pruneLoopKept removable n current version version.nextTid (removed, reclaimed) t

def pruneChainKept (rootTid : TID) (removable : List TID) : Kept (Nat × Nat) := fun t =>
  match t.physicalVersion rootTid with
  | none             => (t, .ok (0, 0))
  | some predecessor =>
    pruneLoopKept removable (t.scanVersions.length + 1) rootTid predecessor predecessor.nextTid (0, 0) t

/-! ## They return what the functions of the heap return -/

section returns

open Kept

theorem returned_tryPagesKept (v : TupleVersion) : ∀ (pages : List Nat) (t : HeapTable),
    returned (tryPagesKept v pages t) = t.tryPages v pages
  | [], _              => rfl
  | pageId :: pages, t => by
    unfold tryPagesKept tryPages
    rw [returned_bind, returned_ofResult]
    refine congrArg (Except.bind (t.tryInsert pageId v)) (funext fun p => ?_)
    obtain ⟨t', tid⟩ := p
    cases tid with
    | some tid => rfl
    | none => exact returned_tryPagesKept v pages t'

theorem returned_insertVersionKept (xid : Nat) (values : Values) (preferredPageId : Option Nat) (t : HeapTable) :
    returned (insertVersionKept xid values preferredPageId t) = t.insertVersion xid values preferredPageId := by
  unfold insertVersionKept insertVersion
  cases t.schema.validateRow values with
  | error e => rfl
  | ok validated =>
    simp only [Bind.bind, Except.bind]
    cases encodeVersion t.schema ⟨xid, 0, none, validated⟩ with
    | error e => rfl
    | ok size =>
      simp only [placeKept]
      rw [returned_bind, returned_tryPagesKept]
      refine congrArg (Except.bind (t.tryPages _ _)) (funext fun p => ?_)
      obtain ⟨t', preferred⟩ := p
      cases preferred with
      | some tid => rfl
      | none =>
        simp only
        rw [returned_bind, returned_tryPagesKept]
        refine congrArg (Except.bind (t'.tryPages _ _)) (funext fun p => ?_)
        obtain ⟨t'', found⟩ := p
        cases found with
        | some tid => rfl
        | none => exact returned_ofResult _ _

theorem returned_setVersionKept (tid : TID) (version : TupleVersion) (t : HeapTable) :
    returned (setVersionKept tid version t) = (t.setVersion tid version).map (fun t' => (t', ())) := returned_ofResult _ _

theorem returned_replaceVersionKept (tid : TID) (xid : Nat) (statuses : StatusTable) (values : Values) (t : HeapTable) :
    returned (replaceVersionKept tid xid statuses values t) = t.replaceVersion tid xid statuses values := by
  unfold replaceVersionKept replaceVersion
  cases t.physicalVersion tid with
  | none => rfl
  | some old =>
    simp only
    split
    · rw [returned_bind, returned_insertVersionKept]
      refine congrArg (Except.bind (t.insertVersion _ _ _)) (funext fun p => ?_)
      obtain ⟨t', replacement⟩ := p
      rw [returned_bind, returned_setVersionKept]
      cases t'.setVersion tid ⟨old.xmin, xid, some replacement, old.values⟩ <;> rfl
    · rfl

theorem returned_deleteVersionKept (tid : TID) (xid : Nat) (statuses : StatusTable) (t : HeapTable) :
    returned (deleteVersionKept tid xid statuses t) = t.deleteVersion tid xid statuses := by
  unfold deleteVersionKept deleteVersion
  cases t.physicalVersion tid with
  | none => rfl
  | some old =>
    simp only
    split
    · rw [returned_bind, returned_setVersionKept]
      cases t.setVersion tid ⟨old.xmin, xid, old.nextTid, old.values⟩ <;> rfl
    · rfl

theorem returned_pruneLoopKept (removable : List TID) : ∀ (n : Nat) (predecessorTid : TID) (predecessor : TupleVersion)
    (current : Option TID) (counters : Nat × Nat) (t : HeapTable),
    returned (pruneLoopKept removable n predecessorTid predecessor current counters t) =
      (pruneLoop removable n t predecessorTid predecessor current counters).map (fun p => (p.1, p.2.1, p.2.2))
  | n, _, _, none, _, _        => by cases n <;> rfl
  | 0, _, _, some _, _, _      => rfl
  | n + 1, predecessorTid, predecessor, some current, (removed, reclaimed), t => by
    unfold pruneLoopKept pruneLoop
    cases t.physicalVersion current with
    | none => rfl
    | some version =>
      simp only
      split
      · rw [returned_bind, returned_setVersionKept]
        cases t.setVersion predecessorTid { predecessor with nextTid := version.nextTid } with
        | error e => rfl
        | ok t' => exact returned_pruneLoopKept removable n _ _ _ _ _
      · exact returned_pruneLoopKept removable n _ _ _ _ _

theorem returned_pruneChainKept (rootTid : TID) (removable : List TID) (t : HeapTable) :
    returned (pruneChainKept rootTid removable t) = t.pruneChain rootTid removable := by
  unfold pruneChainKept pruneChain
  cases t.physicalVersion rootTid with
  | none => rfl
  | some predecessor =>
    simp only
    rw [returned_pruneLoopKept]
    cases pruneLoop removable (t.scanVersions.length + 1) t rootTid predecessor predecessor.nextTid (0, 0) <;> rfl

end returns

/-! ## What may happen to a stored version -/

/-- **Every version that is still there** has its creator and its values, and another deleter only if it could be written. -/
def Retains (statuses : StatusTable) (t t' : HeapTable) : Prop :=
  ∀ tid v v', t.physicalVersion tid = some v → t'.physicalVersion tid = some v' →
    v'.xmin = v.xmin ∧ v'.values = v.values ∧ (v'.xmax = v.xmax ∨ writable v statuses = true)

/-- No dead slot has been filled. -/
def NoneBorn (t t' : HeapTable) : Prop := ∀ tid, t.physicalVersion tid = none → t'.physicalVersion tid = none

/-- No version has been changed. -/
def NoneChanged (t t' : HeapTable) : Prop := ∀ tid v, t.physicalVersion tid = some v → t'.physicalVersion tid = some v

variable {statuses : StatusTable} {t t' t'' : HeapTable}

theorem writable_congr {v w : TupleVersion} (h : v.xmax = w.xmax) : writable v statuses = writable w statuses := by
  unfold writable
  rw [h]

theorem Retains.refl (statuses : StatusTable) (t : HeapTable) : Retains statuses t t := by
  intro tid v v' h h'
  cases h.symm.trans h'
  exact ⟨rfl, rfl, .inl rfl⟩

theorem NoneChanged.retains (h : NoneChanged t t') : Retains statuses t t' := by
  intro tid v v' hv hv'
  cases (h tid v hv).symm.trans hv'
  exact ⟨rfl, rfl, .inl rfl⟩

theorem NoneChanged.then (h : NoneChanged t t') (h' : Retains statuses t' t'') : Retains statuses t t'' :=
  fun tid v v'' hv hv'' => h' tid v v'' (h tid v hv) hv''

theorem Retains.trans (h : Retains statuses t t') (h' : Retains statuses t' t'') (hb : NoneBorn t' t'') :
    Retains statuses t t'' := by
  intro tid v v'' hv hv''
  cases hmid : t'.physicalVersion tid with
  | none =>
    rw [hb tid hmid] at hv''
    cases hv''
  | some v' =>
    obtain ⟨h1, h2, h3⟩ := h tid v v' hv hmid
    obtain ⟨h1', h2', h3'⟩ := h' tid v' v'' hmid hv''
    refine ⟨h1'.trans h1, h2'.trans h2, ?_⟩
    by_cases heq : v'.xmax = v.xmax
    · rw [heq, writable_congr heq] at h3'
      exact h3'
    · exact .inr (h3.resolve_left heq)

theorem NoneBorn.trans (h : NoneBorn t t') (h' : NoneBorn t' t'') : NoneBorn t t'' := fun tid hd => h' tid (h tid hd)

theorem tryPagesKept_spec (v : TupleVersion) : ∀ (pages : List Nat) (t : HeapTable), NoneChanged t (tryPagesKept v pages t).1
  | [], _              => fun _ _ h => h
  | pageId :: pages, t => by
    have htry : ∀ x, t.tryInsert pageId v = .ok x → NoneChanged t x.1 := by
      intro x hx
      rcases tryInsert_eq_ok hx with ⟨-, hs⟩ | ⟨tid, -, hi⟩
      · intro c w hw
        rw [hs.physicalVersion]
        exact hw
      · intro c w hw
        rw [hi.keeps (by rw [hw]; exact Option.some_ne_none w)]
        exact hw
    unfold tryPagesKept
    cases hr : t.tryInsert pageId v with
    | error e =>
      rw [Kept.bind_error (e := e) (by rw [Kept.ofResult_error hr]), Kept.ofResult_error hr]
      exact fun _ _ h => h
    | ok x =>
      obtain ⟨t', tid⟩ := x
      rw [Kept.bind_ok (a := tid) (by rw [Kept.ofResult_ok hr]), Kept.ofResult_ok hr]
      cases tid with
      | some tid => exact htry _ hr
      | none => exact fun c w hw => tryPagesKept_spec v pages t' c w (htry _ hr c w hw)

/-- **An insertion changes no version**, whether it returns or raises. -/
theorem insertVersionKept_spec (xid : Nat) (values : Values) (preferredPageId : Option Nat) (t : HeapTable) :
    NoneChanged t (insertVersionKept xid values preferredPageId t).1 := by
  unfold insertVersionKept
  split
  · exact fun _ _ h => h
  · rename_i validated _
    split
    · exact fun _ _ h => h
    · rename_i size _
      have hfirst := tryPagesKept_spec ⟨xid, 0, none, validated⟩ preferredPageId.toList t
      unfold placeKept
      cases hp : (tryPagesKept ⟨xid, 0, none, validated⟩ preferredPageId.toList t).2 with
      | error e =>
        rw [Kept.bind_error hp]
        exact hfirst
      | ok preferred =>
        rw [Kept.bind_ok hp]
        generalize (tryPagesKept ⟨xid, 0, none, validated⟩ preferredPageId.toList t).1 = t' at hfirst ⊢
        cases preferred with
        | some tid => exact hfirst
        | none =>
          simp only
          generalize (t'.freeSpace.candidatePages size).filter (fun p => some p ≠ preferredPageId) = pages
          have hsecond := tryPagesKept_spec ⟨xid, 0, none, validated⟩ pages t'
          have hboth : NoneChanged t (tryPagesKept ⟨xid, 0, none, validated⟩ pages t').1 :=
            fun c w hw => hsecond c w (hfirst c w hw)
          cases hf : (tryPagesKept ⟨xid, 0, none, validated⟩ pages t').2 with
          | error e =>
            rw [Kept.bind_error hf]
            exact hboth
          | ok found =>
            rw [Kept.bind_ok hf]
            generalize (tryPagesKept ⟨xid, 0, none, validated⟩ pages t').1 = t'' at hboth ⊢
            cases found with
            | some tid => exact hboth
            | none =>
              simp only
              cases hnew : t''.insertNewPage ⟨xid, 0, none, validated⟩ with
              | error e =>
                rw [Kept.ofResult_error hnew]
                exact hboth
              | ok x =>
                rw [@Kept.ofResult_ok _ _ t'' x.1 x.2 hnew]
                have hi := insertNewPage_eq_ok hnew
                intro c w hw
                rw [hi.keeps (by rw [hboth c w hw]; exact Option.some_ne_none w)]
                exact hboth c w hw

/-- **A version write** raises and changes nothing, or rewrites the one version. -/
theorem setVersionKept_spec (tid : TID) (version : TupleVersion) (t : HeapTable) :
    ((∃ e, (setVersionKept tid version t).2 = .error e) ∧ (setVersionKept tid version t).1 = t) ∨
      ((setVersionKept tid version t).2 = .ok () ∧ Rewritten t (setVersionKept tid version t).1 tid (some version)) := by
  unfold setVersionKept
  cases hs : t.setVersion tid version with
  | error e =>
    rw [Kept.ofResult_error (e := e) (by rw [hs]; rfl)]
    exact .inl ⟨⟨e, rfl⟩, rfl⟩
  | ok t' =>
    rw [@Kept.ofResult_ok _ _ t t' () (by rw [hs]; rfl)]
    exact .inr ⟨rfl, (setVersion_eq_ok hs).1⟩

theorem Rewritten.noneBorn {tid : TID} {x : Option TupleVersion} (h : Rewritten t t' tid x) : NoneBorn t t' := by
  intro c hc
  have hne : c ≠ tid := fun he => h.live (by rw [← he]; exact hc)
  rw [h.versions, Function.update_of_ne hne]
  exact hc

theorem Rewritten.retains {tid : TID} {old version : TupleVersion} (h : Rewritten t t' tid (some version))
    (hold : t.physicalVersion tid = some old) (hmin : version.xmin = old.xmin) (hvalues : version.values = old.values)
    (hmax : version.xmax = old.xmax ∨ writable old statuses = true) : Retains statuses t t' := by
  intro c v v' hv hv'
  rw [h.versions] at hv'
  by_cases hc : c = tid
  · subst hc
    rw [Function.update_self] at hv'
    cases hv'
    cases hold.symm.trans hv
    exact ⟨hmin, hvalues, hmax⟩
  · rw [Function.update_of_ne hc, hv] at hv'
    cases hv'
    exact ⟨rfl, rfl, .inl rfl⟩

theorem setVersionKept_retains {tid : TID} {old : TupleVersion} (version : TupleVersion) (hold : t.physicalVersion tid = some old)
    (hmin : version.xmin = old.xmin) (hvalues : version.values = old.values)
    (hmax : version.xmax = old.xmax ∨ writable old statuses = true) :
    Retains statuses t (setVersionKept tid version t).1 ∧ NoneBorn t (setVersionKept tid version t).1 := by
  rcases setVersionKept_spec tid version t with ⟨-, he⟩ | ⟨-, hr⟩
  · rw [he]
    exact ⟨.refl statuses t, fun _ h => h⟩
  · exact ⟨hr.retains hold hmin hvalues hmax, hr.noneBorn⟩

theorem bind_pure_fst {α β : Type} (x : Kept α) (f : α → β) (t : HeapTable) :
    (Kept.bind x (fun a => .pure (f a)) t).1 = (x t).1 := by
  unfold Kept.bind
  cases (x t).2 <;> rfl

theorem deleteVersionKept_retains (tid : TID) (xid : Nat) (statuses : StatusTable) (t : HeapTable) :
    Retains statuses t (deleteVersionKept tid xid statuses t).1 := by
  unfold deleteVersionKept
  split
  · exact .refl statuses t
  · rename_i old hold
    split
    · rename_i hw
      rw [bind_pure_fst]
      exact (setVersionKept_retains ⟨old.xmin, xid, old.nextTid, old.values⟩ hold rfl rfl (.inr hw)).1
    · exact .refl statuses t

theorem reclaimVersionKept_get {tid c : TID} {v : TupleVersion} (h : (reclaimVersionKept tid t).1.physicalVersion c = some v) :
    t.physicalVersion c = some v := by
  simp only [reclaimVersionKept, (t.reclaimVersion_versions tid).1, Function.update_apply] at h
  split at h
  · cases h
  · exact h

theorem replaceVersionKept_retains (tid : TID) (xid : Nat) (statuses : StatusTable) (values : Values) (t : HeapTable) :
    Retains statuses t (replaceVersionKept tid xid statuses values t).1 := by
  unfold replaceVersionKept
  split
  · exact .refl statuses t
  · rename_i old hold
    split
    · rename_i hw
      have hins := insertVersionKept_spec xid values (some tid.pageId) t
      cases hr : (insertVersionKept xid values (some tid.pageId) t).2 with
      | error e =>
        rw [Kept.bind_error hr]
        exact hins.retains
      | ok replacement =>
        rw [Kept.bind_ok hr, bind_pure_fst]
        exact hins.then (setVersionKept_retains ⟨old.xmin, xid, some replacement, old.values⟩
          (hins tid old hold) rfl rfl (.inr hw)).1
    · exact .refl statuses t

theorem reclaimVersionKept_retains (tid : TID) (statuses : StatusTable) (t : HeapTable) :
    Retains statuses t (reclaimVersionKept tid t).1 ∧ NoneBorn t (reclaimVersionKept tid t).1 := by
  constructor
  · intro c v v' h h'
    cases h.symm.trans (reclaimVersionKept_get h')
    exact ⟨rfl, rfl, .inl rfl⟩
  · intro c hc
    simp only [reclaimVersionKept, (t.reclaimVersion_versions tid).1, Function.update_apply, hc]
    split <;> rfl

/-- **The copy that the loop of `prune_chain` writes back** has the creator, the deleter and the values of the stored version, as
long as that is there. -/
theorem pruneLoopKept_retains (removable : List TID) : ∀ (n : Nat) (predecessorTid : TID) (predecessor : TupleVersion)
    (current : Option TID) (counters : Nat × Nat) (t : HeapTable),
    (∀ v, t.physicalVersion predecessorTid = some v →
      predecessor.xmin = v.xmin ∧ predecessor.xmax = v.xmax ∧ predecessor.values = v.values) →
    Retains statuses t (pruneLoopKept removable n predecessorTid predecessor current counters t).1 ∧
      NoneBorn t (pruneLoopKept removable n predecessorTid predecessor current counters t).1
  | n, _, _, none, _, t, _     => by cases n <;> exact ⟨.refl statuses t, fun _ h => h⟩
  | 0, _, _, some _, _, t, _   => ⟨.refl statuses t, fun _ h => h⟩
  | n + 1, predecessorTid, predecessor, some current, (removed, reclaimed), t, hcopy => by
    unfold pruneLoopKept
    split
    · exact ⟨.refl statuses t, fun _ h => h⟩
    · rename_i version hversion
      split
      · have hset : Retains statuses t (setVersionKept predecessorTid { predecessor with nextTid := version.nextTid } t).1 ∧
            NoneBorn t (setVersionKept predecessorTid { predecessor with nextTid := version.nextTid } t).1 := by
          cases hp : t.physicalVersion predecessorTid with
          | none =>
            rcases setVersionKept_spec predecessorTid { predecessor with nextTid := version.nextTid } t with ⟨-, he⟩ | ⟨-, hr⟩
            · rw [he]
              exact ⟨.refl statuses t, fun _ h => h⟩
            · exact absurd hp hr.live
          | some v =>
            obtain ⟨h1, h2, h3⟩ := hcopy v hp
            exact setVersionKept_retains { predecessor with nextTid := version.nextTid } hp h1 h3 (.inl h2)
        rcases setVersionKept_spec predecessorTid { predecessor with nextTid := version.nextTid } t with ⟨⟨e, he⟩, -⟩ | ⟨hok, hr⟩
        · rw [Kept.bind_error he]
          exact hset
        · rw [Kept.bind_ok hok, Kept.bind_ok (a := ((setVersionKept predecessorTid _ t).1.reclaimVersion current).2) rfl]
          generalize (setVersionKept predecessorTid { predecessor with nextTid := version.nextTid } t).1 = t₁ at hset hr ⊢
          have hreclaim := reclaimVersionKept_retains current statuses t₁
          have hrec := pruneLoopKept_retains removable n predecessorTid
            { predecessor with nextTid := version.nextTid } version.nextTid (removed + 1,
              reclaimed + (t₁.reclaimVersion current).2)
            (reclaimVersionKept current t₁).1 (by
              intro v hv
              have hstored := reclaimVersionKept_get hv
              rw [hr.versions, Function.update_self] at hstored
              cases hstored
              exact ⟨rfl, rfl, rfl⟩)
          exact ⟨(hset.1.trans hreclaim.1 hreclaim.2).trans hrec.1 hrec.2, (hset.2.trans hreclaim.2).trans hrec.2⟩
      · exact pruneLoopKept_retains removable n current version version.nextTid (removed, reclaimed) t (by
          intro v hv
          cases hversion.symm.trans hv
          exact ⟨rfl, rfl, rfl⟩)

theorem pruneChainKept_retains (rootTid : TID) (removable : List TID) (statuses : StatusTable) (t : HeapTable) :
    Retains statuses t (pruneChainKept rootTid removable t).1 := by
  unfold pruneChainKept
  split
  · exact .refl statuses t
  · rename_i predecessor hroot
    refine (pruneLoopKept_retains removable _ rootTid predecessor _ _ t (fun v hv => ?_)).1
    cases hroot.symm.trans hv
    exact ⟨rfl, rfl, rfl⟩

end HeapTable

/-! ## Runs -/

structure VersionState where
  heap     : HeapTable
  statuses : StatusTable

inductive VersionCall
  | insert (xid : Nat) (values : Values) (preferredPageId : Option Nat)
  | replace (tid : TID) (xid : Nat) (values : Values)
  | delete (tid : TID) (xid : Nat)
  | prune (rootTid : TID) (removable : List TID)
  | reclaim (tid : TID)
  | commit (xid : Nat)
  | abort (xid : Nat)

namespace VersionState

open HeapTable

/-- `statuses.set(xid, status)`; the table stays as it is when that raises. -/
def outcome (s : VersionState) (xid : Nat) (status : TransactionStatus) : VersionState :=
  match s.statuses.set xid status with
  | .ok statuses => { s with statuses := statuses }
  | .error _     => s

def step (s : VersionState) : VersionCall → VersionState
  | .insert xid values preferredPageId => { s with heap := (insertVersionKept xid values preferredPageId s.heap).1 }
  | .replace tid xid values            => { s with heap := (replaceVersionKept tid xid s.statuses values s.heap).1 }
  | .delete tid xid                    => { s with heap := (deleteVersionKept tid xid s.statuses s.heap).1 }
  | .prune rootTid removable           => { s with heap := (pruneChainKept rootTid removable s.heap).1 }
  | .reclaim tid                       => { s with heap := (reclaimVersionKept tid s.heap).1 }
  | .commit xid                        => s.outcome xid .committed
  | .abort xid                         => s.outcome xid .aborted

def run (s : VersionState) (calls : List VersionCall) : VersionState := calls.foldl step s

/-- The version is there before and after every call. -/
def Persists (s : VersionState) (tid : TID) : List VersionCall → Prop
  | []         => s.heap.physicalVersion tid ≠ none
  | c :: calls => s.heap.physicalVersion tid ≠ none ∧ (s.step c).Persists tid calls

instance decidablePersists (tid : TID) : ∀ (calls : List VersionCall) (s : VersionState), Decidable (s.Persists tid calls)
  | [], s         => inferInstanceAs (Decidable (s.heap.physicalVersion tid ≠ none))
  | c :: calls, s =>
    have := decidablePersists tid calls (s.step c)
    inferInstanceAs (Decidable (s.heap.physicalVersion tid ≠ none ∧ (s.step c).Persists tid calls))

/-- The transaction has deleted or replaced the version. -/
def DeletedBy (s : VersionState) (tid : TID) (xid : Nat) : Prop :=
  xid ≠ 0 ∧ ∃ v, s.heap.physicalVersion tid = some v ∧ v.xmax = xid

theorem outcome_heap (s : VersionState) (xid : Nat) (status : TransactionStatus) : (s.outcome xid status).heap = s.heap := by
  unfold outcome
  split <;> rfl

theorem outcome_aborted {s : VersionState} {x : Nat} (h : s.statuses.get x = .aborted) (xid : Nat) (status : TransactionStatus) :
    (s.outcome xid status).statuses.get x = .aborted := by
  unfold outcome StatusTable.set
  by_cases hraise : s.statuses.get xid ≠ .inProgress ∧ s.statuses.get xid ≠ status
  · rw [if_pos hraise]
    exact h
  · rw [if_neg hraise]
    by_cases hx : x = xid
    · subst hx
      have hstatus : status = .aborted := by
        by_contra hne
        exact hraise ⟨by rw [h]; decide, by rw [h]; exact fun he => hne he.symm⟩
      rw [hstatus]
      simp [StatusTable.get]
    · simp only [StatusTable.get, Function.update_of_ne hx]
      exact h

theorem step_aborted {s : VersionState} {x : Nat} (h : s.statuses.get x = .aborted) (c : VersionCall) :
    (s.step c).statuses.get x = .aborted := by
  cases c with
  | commit xid => exact outcome_aborted h xid .committed
  | abort xid => exact outcome_aborted h xid .aborted
  | _ => exact h

theorem run_aborted : ∀ (calls : List VersionCall) {s : VersionState} {x : Nat}, s.statuses.get x = .aborted →
    (s.run calls).statuses.get x = .aborted
  | [], _, _, h         => h
  | c :: calls, _, _, h => run_aborted calls (step_aborted h c)

theorem step_retains (s : VersionState) (c : VersionCall) : Retains s.statuses s.heap (s.step c).heap := by
  cases c with
  | insert xid values preferredPageId => exact (insertVersionKept_spec xid values preferredPageId s.heap).retains
  | replace tid xid values => exact replaceVersionKept_retains tid xid s.statuses values s.heap
  | delete tid xid => exact deleteVersionKept_retains tid xid s.statuses s.heap
  | prune rootTid removable => exact pruneChainKept_retains rootTid removable s.statuses s.heap
  | reclaim tid => exact (reclaimVersionKept_retains tid s.statuses s.heap).1
  | commit xid =>
    rw [step, outcome_heap]
    exact .refl s.statuses s.heap
  | abort xid =>
    rw [step, outcome_heap]
    exact .refl s.statuses s.heap

theorem run_retains : ∀ (calls : List VersionCall) {s : VersionState} {tid : TID} {v v' : TupleVersion}, s.Persists tid calls →
    s.heap.physicalVersion tid = some v → (s.run calls).heap.physicalVersion tid = some v' →
      v'.xmin = v.xmin ∧ v'.values = v.values ∧ (v.xmax ≠ 0 → (s.run calls).statuses.get v.xmax ≠ .aborted → v'.xmax = v.xmax)
  | [], s, tid, v, v', _, h, h' => by
    cases h.symm.trans h'
    exact ⟨rfl, rfl, fun _ _ => rfl⟩
  | c :: calls, s, tid, v, v', hp, h, h' => by
    have hnext : (s.step c).heap.physicalVersion tid ≠ none := by
      cases calls with
      | nil => exact hp.2
      | cons d rest => exact hp.2.1
    obtain ⟨w, hw⟩ := Option.ne_none_iff_exists'.1 hnext
    obtain ⟨h1, h2, h3⟩ := step_retains s c tid v w h hw
    obtain ⟨h1', h2', h3'⟩ := run_retains calls hp.2 hw h'
    refine ⟨h1'.trans h1, h2'.trans h2, fun hne hlive => ?_⟩
    have hnow : s.statuses.get v.xmax ≠ .aborted := fun ha => hlive (run_aborted (c :: calls) ha)
    have heq : w.xmax = v.xmax := by
      refine h3.resolve_right (fun hw => ?_)
      unfold writable at hw
      exact (of_decide_eq_true hw).elim hne hnow
    rw [heq] at h3'
    exact h3' hne hlive

/-- **No row history forks**: while a version is there, its creator and its values stay, and so does its deleter unless that has
aborted by the end of the run; two deleters that have not are one. -/
theorem row_history_not_forked (s : VersionState) (calls later : List VersionCall) (tid : TID) (v v' : TupleVersion)
    (h : s.heap.physicalVersion tid = some v) (hp : s.Persists tid calls)
    (h' : (s.run calls).heap.physicalVersion tid = some v') :
    (v'.xmin = v.xmin ∧ v'.values = v.values) ∧
    (v.xmax ≠ 0 → (s.run (calls ++ later)).statuses.get v.xmax ≠ .aborted → v'.xmax = v.xmax) ∧
    ∀ x y, s.DeletedBy tid x → (s.run calls).DeletedBy tid y → (s.run (calls ++ later)).statuses.get x ≠ .aborted →
      (s.run (calls ++ later)).statuses.get y ≠ .aborted → x = y := by
  obtain ⟨hmin, hvalues, hmax⟩ := run_retains calls hp h h'
  have hlater : ∀ x, (s.run (calls ++ later)).statuses.get x ≠ .aborted → (s.run calls).statuses.get x ≠ .aborted := by
    intro x hx ha
    refine hx ?_
    unfold run
    rw [List.foldl_append]
    exact run_aborted later ha
  refine ⟨⟨hmin, hvalues⟩, fun hne hx => hmax hne (hlater _ hx), ?_⟩
  rintro x y ⟨hx0, w, hw, rfl⟩ ⟨-, w', hw', rfl⟩ hx -
  cases h.symm.trans hw
  cases h'.symm.trans hw'
  exact (hmax hx0 (hlater _ hx)).symm

/-- A table of one integer column. -/
def oneColumn : Schema := ⟨[⟨"a".toList, .int64, true⟩]⟩

/-- Transaction 2 deletes the version of transaction 9 and aborts, and 3 deletes it again. -/
def deletedTwice : VersionState :=
  VersionState.run ⟨HeapTable.create oneColumn, StatusTable.empty⟩
    [.insert 9 [.int 7] none, .delete ⟨0, 0⟩ 2, .abort 2, .delete ⟨0, 0⟩ 3]

def writtenInVain : List VersionCall := [.replace ⟨0, 0⟩ 4 [.int 8], .insert 4 [.int 9] none, .delete ⟨0, 0⟩ 5, .abort 4]

/-- The version stays that of transaction 9, and the deleter of it is 3. -/
theorem row_history_not_forked_deletedTwice :
    deletedTwice.DeletedBy ⟨0, 0⟩ 3 ∧ ∃ v, (deletedTwice.run writtenInVain).heap.physicalVersion ⟨0, 0⟩ = some v ∧
      (v.xmin = 9 ∧ v.values = [.int 7]) ∧ v.xmax = 3 ∧
      ∀ y, (deletedTwice.run writtenInVain).DeletedBy ⟨0, 0⟩ y →
        (deletedTwice.run (writtenInVain ++ [.commit 3])).statuses.get y ≠ .aborted → 3 = y := by
  have hold : deletedTwice.heap.physicalVersion ⟨0, 0⟩ = some ⟨9, 3, none, [.int 7]⟩ := by decide +kernel
  have hkept : deletedTwice.Persists ⟨0, 0⟩ writtenInVain := by decide +kernel
  have hlive : (deletedTwice.run (writtenInVain ++ [.commit 3])).statuses.get 3 ≠ .aborted := by decide +kernel
  have hdeleted : deletedTwice.DeletedBy ⟨0, 0⟩ 3 := ⟨by decide, _, hold, rfl⟩
  obtain ⟨v, hv⟩ : ∃ v, (deletedTwice.run writtenInVain).heap.physicalVersion ⟨0, 0⟩ = some v :=
    Option.isSome_iff_exists.1 (by decide +kernel)
  obtain ⟨hbody, hmax, hdeleter⟩ := row_history_not_forked deletedTwice writtenInVain [.commit 3] ⟨0, 0⟩ _ v hold hkept hv
  exact ⟨hdeleted, v, hv, hbody, hmax (by decide) hlive, fun y hy => hdeleter 3 y hdeleted hy hlive⟩

end VersionState
end MiniPostgres
