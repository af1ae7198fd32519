/-!
# Program — what a program keeps, whether it returns or raises

Programs over a state that keep what they wrote when they raise.  `Keeps inv x` says that `x` preserves the invariant on every way
out; it goes through sequences, handlers, `finally`, loops, and programs that run on a part of the state.
-/

/-- A program that keeps its state when it raises. -/
def Program (ε σ α : Type) := σ → Except ε α × σ

namespace Program

variable {ε σ τ α β : Type}

instance : Monad (Program ε σ) where
  pure a := fun s => (.ok a, s)
  bind x f := fun s =>
    match x s with
    | (.ok a, s)    => f a s
    | (.error e, s) => (.error e, s)

def raise (e : ε) : Program ε σ α := fun s => (.error e, s)

def ofExcept (r : Except ε α) : Program ε σ α := fun s => (r, s)

def read (f : σ → α) : Program ε σ α := fun s => (.ok (f s), s)

def modify (f : σ → σ) : Program ε σ Unit := fun s => (.ok (), f s)

/-- `try: x except: h` -/
def rescue (x : Program ε σ α) (h : ε → Program ε σ α) : Program ε σ α := fun s =>
  match x s with
  | (.ok a, s)    => (.ok a, s)
  | (.error e, s) => h e s

/-- `try: x finally: f`, where an exception of `f` replaces that of `x`. -/
def finally_ (x : Program ε σ α) (f : Program ε σ Unit) : Program ε σ α := fun s =>
  match f (x s).2 with
  | (.ok _, t)    => ((x s).1, t)
  | (.error e, t) => (.error e, t)

/-- A program on a part of the state. -/
def focus (get : σ → τ) (put : τ → σ → σ) (x : Program ε τ α) : Program ε σ α := fun s => ((x (get s)).1, put (x (get s)).2 s)

def forEach (xs : List α) (body : α → Program ε σ Unit) : Program ε σ Unit :=
  match xs with
  | []      => pure ()
  | x :: xs => do
    body x
    forEach xs body

/-- Rounds of a loop, each on what the last one left, until one ends it with a result; after `n` rounds it is interrupted by
`stop`. -/
def loop {γ : Type} (stop : ε) (body : β → Program ε σ (β ⊕ γ)) : Nat → β → Program ε σ γ
  | 0, _     => raise stop
  | n + 1, b => do
    match ← body b with
    | .inl b => loop stop body n b
    | .inr c => pure c

/-- `while (a := next()) is not None`, with what the rounds before have made of `b`. -/
def whileSome (stop : ε) (next : Program ε σ (Option α)) (body : β → α → Program ε σ β) (n : Nat) (b : β) : Program ε σ β :=
  loop stop (fun b => do
    match ← next with
    | none   => pure (.inr b)
    | some a => do
      let b ← body b a
      pure (.inl b)) n b

/-! ## Programs in turn -/

theorem bind_ok {x : Program ε σ α} {f : α → Program ε σ β} {s t : σ} {a : α} (h : x s = (.ok a, t)) : (x >>= f) s = f a t := by
  show (match x s with | (.ok a, s) => f a s | (.error e, s) => (.error e, s)) = _
  rw [h]

theorem bind_error {x : Program ε σ α} {f : α → Program ε σ β} {s t : σ} {e : ε} (h : x s = (.error e, t)) :
    (x >>= f) s = (.error e, t) := by
  show (match x s with | (.ok a, s) => f a s | (.error e, s) => (.error e, s)) = _
  rw [h]

/-- **A sequence returns exactly when both programs do.** -/
theorem bind_eq_ok {x : Program ε σ α} {f : α → Program ε σ β} {s u : σ} {b : β} :
    (x >>= f) s = (.ok b, u) ↔ ∃ a t, x s = (.ok a, t) ∧ f a t = (.ok b, u) := by
  constructor
  · intro h
    cases hx : x s with
    | mk r t =>
      cases r with
      | error e =>
        rw [bind_error hx] at h
        cases h
      | ok a    =>
        rw [bind_ok hx] at h
        exact ⟨a, t, rfl, h⟩
  · rintro ⟨a, t, hx, h⟩
    rw [bind_ok hx, h]

theorem finally_ok {x : Program ε σ α} {f : Program ε σ Unit} {s : σ} (h : (f (x s).2).1 = .ok ()) :
    finally_ x f s = ((x s).1, (f (x s).2).2) := by
  unfold finally_
  generalize f (x s).2 = r at h
  obtain ⟨r, t⟩ := r
  cases h
  rfl

/-! ## What a program keeps -/

def Keeps (inv : σ → Prop) (x : Program ε σ α) : Prop := ∀ s, inv s → inv (x s).2

namespace Keeps

variable {inv : σ → Prop}

theorem pure (a : α) : Keeps inv (Pure.pure a : Program ε σ α) := fun _ h => h

theorem raise (e : ε) : Keeps inv (Program.raise e : Program ε σ α) := fun _ h => h

theorem ofExcept (r : Except ε α) : Keeps inv (Program.ofExcept r : Program ε σ α) := fun _ h => h

theorem read (f : σ → α) : Keeps inv (Program.read f : Program ε σ α) := fun _ h => h

theorem modify {f : σ → σ} (h : ∀ s, inv s → inv (f s)) : Keeps inv (Program.modify f : Program ε σ Unit) := h

theorem andThen {inv' : σ → Prop} {x : Program ε σ α} {f : α → Program ε σ β} (hx : Keeps inv x) (himp : ∀ s, inv s → inv' s)
    (hf : ∀ a s, inv s → inv' (f a s).2) : ∀ s, inv s → inv' ((x >>= f) s).2 := by
  intro s h
  have hs := hx s h
  cases hr : x s with
  | mk r t =>
    rw [hr] at hs
    cases r with
    | error e =>
      rw [bind_error hr]
      exact himp t hs
    | ok a    =>
      rw [bind_ok hr]
      exact hf a t hs

theorem bind {x : Program ε σ α} {f : α → Program ε σ β} (hx : Keeps inv x) (hf : ∀ a, Keeps inv (f a)) : Keeps inv (x >>= f) :=
  andThen hx (fun _ h => h) hf

theorem rescue {x : Program ε σ α} {h : ε → Program ε σ α} (hx : Keeps inv x) (hh : ∀ e, Keeps inv (h e)) :
    Keeps inv (Program.rescue x h) := by
  intro s hs
  have hx := hx s hs
  unfold Program.rescue
  split
  · rename_i hr
    rwa [hr] at hx
  · rename_i hr
    rw [hr] at hx
    exact hh _ _ hx

theorem finally_ {x : Program ε σ α} {f : Program ε σ Unit} (hx : Keeps inv x) (hf : Keeps inv f) :
    Keeps inv (Program.finally_ x f) := by
  intro s hs
  have hf := hf _ (hx s hs)
  unfold Program.finally_
  split <;> rename_i hr <;> rwa [hr] at hf

theorem ite {c : Prop} [Decidable c] {x y : Program ε σ α} (hx : Keeps inv x) (hy : Keeps inv y) :
    Keeps inv (if c then x else y) := by
  split
  · exact hx
  · exact hy

theorem forEach {body : α → Program ε σ Unit} (h : ∀ x, Keeps inv (body x)) : ∀ xs, Keeps inv (Program.forEach xs body)
  | []      => pure ()
  | x :: xs => bind (h x) fun _ => forEach h xs

theorem loop {γ : Type} {stop : ε} {body : β → Program ε σ (β ⊕ γ)} (h : ∀ b, Keeps inv (body b)) :
    ∀ n b, Keeps inv (Program.loop stop body n b)
  | 0, _     => raise stop
  | n + 1, b => bind (h b) fun r => by
    cases r with
    | inl b => exact loop h n b
    | inr c => exact pure c

theorem whileSome {stop : ε} {next : Program ε σ (Option α)} {body : β → α → Program ε σ β} (hn : Keeps inv next)
    (hb : ∀ b a, Keeps inv (body b a)) (n : Nat) (b : β) : Keeps inv (Program.whileSome stop next body n b) := by
  refine loop (fun b => bind hn fun a => ?_) n b
  cases a with
  | none   => exact pure _
  | some a => exact bind (hb b a) fun b => pure _

/-- **On a part of the state**: the invariant of the whole is one of the part, for what is around it. -/
theorem focus {get : σ → τ} {put : τ → σ → σ} {x : Program ε τ α} (part : σ → τ → Prop) (hx : ∀ s, Keeps (part s) x)
    (hget : ∀ s, inv s → part s (get s)) (hput : ∀ s t, inv s → part s t → inv (put t s)) : Keeps inv (Program.focus get put x) :=
  fun s h => hput s _ h (hx s _ (hget s h))

end Keeps
end Program
