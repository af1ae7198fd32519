import MiniPostgres.Lib.Fuel
import MiniPostgres.Lib.Pull
/-!
# Cursor — states that are pulled

A cursor is a state with a call that gives the next item and the state behind it, or nothing at the end.  `Delivers` relates one
call to what remains of the cursor, and `consume` is the loop that calls until the end: it folds what remains.
-/

open Fueled

namespace Pull

variable {ε α σ : Type}

/-- What a loop makes of the items; its body may fail, and so may the iterator behind the last item. -/
def fold (body : σ → α → Except ε σ) (s : σ) (p : Pull ε α) : Except ε σ := do
  let t ← p.items.foldlM body s
  match p.failure with
  | some e => .error e
  | none   => .ok t

theorem fold_nil (body : σ → α → Except ε σ) (s : σ) : fold body s ⟨[], none⟩ = .ok s := rfl

theorem fold_cons (body : σ → α → Except ε σ) (s : σ) (x : α) (xs : List α) (failure : Option ε) :
    fold body s ⟨x :: xs, failure⟩ = body s x >>= fun t => fold body t ⟨xs, failure⟩ := by
  unfold fold
  simp only [List.foldlM_cons]
  cases body s x <;> rfl

theorem fold_eq_ok {body : σ → α → Except ε σ} {s t : σ} {p : Pull ε α} :
    fold body s p = .ok t ↔ p.failure = none ∧ p.items.foldlM body s = .ok t := by
  obtain ⟨items, failure⟩ := p
  unfold fold
  cases items.foldlM body s with
  | error e => exact ⟨fun h => (by cases h), fun h => (by cases h.2)⟩
  | ok u =>
    cases failure with
    | some e => exact ⟨fun h => (by cases h), fun h => (by cases h.1)⟩
    | none => exact ⟨fun h => ⟨rfl, h⟩, fun h => h.2⟩

theorem fold_append (before : List α) (p : Pull ε α) :
    fold (fun xs x => .ok (xs ++ [x])) before p = p.drain.map (before ++ ·) := by
  obtain ⟨items, failure⟩ := p
  induction items generalizing before with
  | nil =>
    cases failure with
    | some e => rfl
    | none => simp [fold_nil, drain, Except.map]
  | cons x xs ih =>
    rw [fold_cons]
    refine (ih (before ++ [x])).trans ?_
    cases failure with
    | some e => rfl
    | none => simp [drain, Except.map]

end Pull

namespace Cursor

variable {ε α β σ τ : Type}

/-- **One call.**  It gives the first remaining item and a state for the others, or the failure, or nothing at the end. -/
inductive Delivers (holds : σ → Pull ε α → Prop) (call : Nat → Fueled ε (Option α × σ)) : Pull ε α → Prop
  | item {x : α} {xs : List α} {failure : Option ε} {s : σ} :
      Comes call (.ok (some x, s)) → holds s ⟨xs, failure⟩ → Delivers holds call ⟨x :: xs, failure⟩
  | ended {s : σ} : Comes call (.ok (none, s)) → Delivers holds call ⟨[], none⟩
  | failed {e : ε} : Comes call (.error e) → Delivers holds call ⟨[], some e⟩

theorem Delivers.single {holds : σ → Pull ε α → Prop} {call : Nat → Fueled ε (Option α × σ)} {x : α} {s : σ} {p : Pull ε α}
    (hc : Comes call (.ok (some x, s))) (hs : holds s p) : Delivers holds call ((Pull.ofList [x]).append p) :=
  show Delivers holds call ⟨x :: p.items, p.failure⟩ from .item hc hs

theorem Delivers.round {holds : σ → Pull ε α → Prop} {call inner : Nat → Fueled ε (Option α × σ)} {p : Pull ε α}
    (h : Delivers holds inner p) (hcall : ∀ n, call (n + 1) = inner n) : Delivers holds call p := by
  cases h with
  | item hc hs => exact .item (hc.round hcall) hs
  | ended hc => exact .ended (hc.round hcall)
  | failed hc => exact .failed (hc.round hcall)

theorem Delivers.bind {holds : σ → Pull ε α → Prop} {f : Nat → Fueled ε β} {g : β → Nat → Fueled ε (Option α × σ)} {b : β}
    {p : Pull ε α} (hf : Comes f (.ok b)) (h : Delivers holds (g b) p) : Delivers holds (fun n => f n >>= fun x => g x n) p := by
  cases h with
  | item hc hs => exact .item (hf.bind hc) hs
  | ended hc => exact .ended (hf.bind hc)
  | failed hc => exact .failed (hf.bind hc)

theorem Delivers.congr {holds : σ → Pull ε α → Prop} {call inner : Nat → Fueled ε (Option α × σ)} {p : Pull ε α}
    (h : Delivers holds inner p) (hcall : ∀ n, call n = inner n) : Delivers holds call p := by
  rwa [funext hcall]

/-- The outcome of a call is `r`, next to a state. -/
def Results (call : Nat → Fueled ε (α × σ)) (r : Except ε α) : Prop := ∃ o, Comes call o ∧ o.map Prod.fst = r

theorem Results.ok {call : Nat → Fueled ε (α × σ)} {a : α} (h : Results call (.ok a)) : ∃ s, Comes call (.ok (a, s)) := by
  obtain ⟨o, ho, hr⟩ := h
  cases o with
  | error e => cases hr
  | ok p => cases hr; exact ⟨p.2, ho⟩

theorem Results.error {call : Nat → Fueled ε (α × σ)} {e : ε} (h : Results call (.error e)) : Comes call (.error e) := by
  obtain ⟨o, ho, hr⟩ := h
  cases o with
  | error e' => cases hr; exact ho
  | ok p => cases hr

/-- `while (item := next()) is not None`, with what the body makes of an item. -/
def consume (next : Nat → σ → Fueled ε (Option α × σ)) (body : τ → α → Except ε τ) : Nat → τ → σ → Fueled ε (τ × σ)
  | 0, _, _     => outOfFuel
  | n + 1, t, s => do
    let (item, s) ← next n s
    match item with
    | none   => pure (t, s)
    | some x => do
      let t ← done (body t x)
      consume next body n t s

/-- **A loop over a cursor ends, and folds what remains.** -/
theorem consume_results {holds : σ → Pull ε α → Prop} {next : Nat → σ → Fueled ε (Option α × σ)}
    (hnext : ∀ s p, holds s p → Delivers holds (fun n => next n s) p) (body : τ → α → Except ε τ) :
    ∀ (items : List α) (failure : Option ε) (t : τ) (s : σ), holds s ⟨items, failure⟩ →
      Results (fun n => consume next body n t s) (Pull.fold body t ⟨items, failure⟩) := by
  intro items failure
  induction items with
  | nil =>
    intro t s hs
    cases hnext s _ hs with
    | ended hc => exact ⟨_, (hc.bind (comes_pure _)).round (fun _ => rfl), rfl⟩
    | failed hc => exact ⟨_, hc.bind_error.round (fun _ => rfl), rfl⟩
  | cons x xs ih =>
    intro t s hs
    cases hnext s _ hs with
    | item hc hs' =>
      rename_i s'
      rw [Pull.fold_cons]
      cases hb : body t x with
      | error e =>
        refine ⟨.error e, (hc.bind (Comes.congr (comes_done (.error e)) (fun n => ?_))).round (fun _ => rfl), rfl⟩
        show (done (body t x) >>= fun t => consume next body n t s') = done (.error e)
        rw [hb]
        rfl
      | ok t' =>
        obtain ⟨o, ho, hr⟩ := ih t' s' hs'
        refine ⟨o, (hc.bind (Comes.congr ho (fun n => ?_))).round (fun _ => rfl), hr⟩
        show (done (body t x) >>= fun t => consume next body n t s') = consume next body n t' s'
        rw [hb]
        rfl

end Cursor
