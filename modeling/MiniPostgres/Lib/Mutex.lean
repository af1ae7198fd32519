import Mathlib.Data.List.Basic
/-!
# Mutex — reentrant mutexes

The holder of a mutex with the number of its further acquisitions.  `lock` gives nothing where the caller would wait.  At most one
thread is inside (`depth_unique`).
-/
namespace ReentrantMutex

/-- A mutex that is free, or that a thread holds once and `n` times more. -/
abbrev Mutex (τ : Type) := Option (τ × Nat)

namespace Mutex

variable {τ : Type} [DecidableEq τ]

def free : Mutex τ := none

/-- How often a thread has taken the mutex. -/
def depth : Mutex τ → τ → Nat
  | none, _        => 0
  | some (u, n), t => if u = t then n + 1 else 0

def lock : Mutex τ → τ → Option (Mutex τ)
  | none, t        => some (some (t, 0))
  | some (u, n), t => if u = t then some (some (u, n + 1)) else none

def unlock : Mutex τ → τ → Mutex τ
  | none, _            => none
  | some (u, 0), t     => if u = t then none else some (u, 0)
  | some (u, n + 1), t => if u = t then some (u, n) else some (u, n + 1)

/-- **One thread at a time is inside.** -/
theorem depth_unique {m : Mutex τ} {t u : τ} (ht : 0 < m.depth t) (hu : 0 < m.depth u) : t = u := by
  cases m with
  | none => simp [depth] at ht
  | some h =>
    simp only [depth] at ht hu
    split at ht
    · rename_i h1
      split at hu
      · rename_i h2; rw [← h1, h2]
      · omega
    · omega

theorem depth_lock {m m' : Mutex τ} {t : τ} (h : m.lock t = some m') (u : τ) :
    m'.depth u = m.depth u + if u = t then 1 else 0 := by
  cases m with
  | none =>
    cases h
    simp only [depth, Nat.zero_add, eq_comm]
  | some p =>
    simp only [lock] at h
    split at h
    · rename_i he
      cases h
      simp only [depth]
      by_cases hu : u = t
      · rw [if_pos (by rw [he, hu]), if_pos (by rw [he, hu]), if_pos hu]
      · rw [if_neg (by rw [he]; exact Ne.symm hu), if_neg (by rw [he]; exact Ne.symm hu), if_neg hu]
    · cases h

theorem depth_unlock {m : Mutex τ} {t : τ} (h : 0 < m.depth t) (u : τ) :
    (m.unlock t).depth u = m.depth u - if u = t then 1 else 0 := by
  cases m with
  | none => simp [depth] at h
  | some p =>
    obtain ⟨v, n⟩ := p
    simp only [depth] at h
    split at h
    · rename_i hv
      cases n with
      | zero =>
        simp only [unlock, if_pos hv, depth]
        by_cases hu : u = t
        · rw [if_pos (by rw [hv, hu]), if_pos hu]
        · rw [if_neg (by rw [hv]; exact Ne.symm hu)]
          simp
      | succ n =>
        simp only [unlock, if_pos hv, depth]
        by_cases hu : u = t
        · rw [if_pos (by rw [hv, hu]), if_pos (by rw [hv, hu]), if_pos hu]
          rfl
        · rw [if_neg (by rw [hv]; exact Ne.symm hu), if_neg (by rw [hv]; exact Ne.symm hu), if_neg hu]
    · omega

end Mutex
end ReentrantMutex
