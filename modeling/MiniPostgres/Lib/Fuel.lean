import Mathlib
/-!
# Fuel — loops that may not end

A loop runs on fuel: each round takes one unit, and without fuel it has no outcome.  A computation comes to an outcome when
every large enough amount of fuel gives it; outcomes compose along `bind`.
-/

/-- An outcome, or none when the fuel runs out. -/
abbrev Fueled (ε α : Type) := ExceptT ε Option α

namespace Fueled

variable {ε α β : Type}

def outOfFuel : Fueled ε α := ExceptT.mk none

/-- A computation that is over. -/
def done (r : Except ε α) : Fueled ε α := ExceptT.mk (some r)

/-- Enough fuel gives the outcome. -/
def Comes (f : Nat → Fueled ε α) (r : Except ε α) : Prop := ∃ enough, ∀ n, enough ≤ n → f n = done r

theorem comes_done (r : Except ε α) : Comes (fun _ => done r) r := ⟨0, fun _ _ => rfl⟩

theorem comes_pure (a : α) : Comes (fun _ => (pure a : Fueled ε α)) (.ok a) := ⟨0, fun _ _ => rfl⟩

theorem Comes.congr {f g : Nat → Fueled ε α} {r : Except ε α} (h : Comes g r) (hfg : ∀ n, f n = g n) : Comes f r := by
  obtain ⟨enough, h⟩ := h
  exact ⟨enough, fun n hn => by rw [hfg, h n hn]⟩

theorem Comes.round {f g : Nat → Fueled ε α} {r : Except ε α} (h : Comes g r) (hfg : ∀ n, f (n + 1) = g n) : Comes f r := by
  obtain ⟨enough, h⟩ := h
  refine ⟨enough + 1, fun n hn => ?_⟩
  obtain ⟨m, rfl⟩ : ∃ m, n = m + 1 := ⟨n - 1, by omega⟩
  rw [hfg, h m (by omega)]

theorem Comes.now {f : Nat → Fueled ε α} {r : Except ε α} (h : ∀ n, f (n + 1) = done r) : Comes f r :=
  Comes.round (comes_done r) h

theorem Comes.bind {f : Nat → Fueled ε α} {g : α → Nat → Fueled ε β} {a : α} {r : Except ε β} (hf : Comes f (.ok a))
    (hg : Comes (g a) r) : Comes (fun n => f n >>= fun x => g x n) r := by
  obtain ⟨m, hf⟩ := hf
  obtain ⟨k, hg⟩ := hg
  refine ⟨max m k, fun n hn => ?_⟩
  simp only [hf n (le_trans (le_max_left _ _) hn)]
  exact hg n (le_trans (le_max_right _ _) hn)

theorem Comes.bind_error {f : Nat → Fueled ε α} {g : α → Nat → Fueled ε β} {e : ε} (hf : Comes f (.error e)) :
    Comes (fun n => f n >>= fun x => g x n) (.error e) := by
  obtain ⟨m, hf⟩ := hf
  refine ⟨m, fun n hn => ?_⟩
  simp only [hf n hn]
  rfl

theorem Comes.unique {f : Nat → Fueled ε α} {r s : Except ε α} (hr : Comes f r) (hs : Comes f s) : r = s := by
  obtain ⟨m, hr⟩ := hr
  obtain ⟨k, hs⟩ := hs
  have h := (hr (max m k) (le_max_left _ _)).symm.trans (hs (max m k) (le_max_right _ _))
  exact Option.some.inj h

end Fueled
