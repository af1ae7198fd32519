import MiniPostgres.BufferPool
/-!
# ClockSweep — eviction is complete

`ClockReplacer.evict` sweeps twice round the frames.  The first round returns the first evictable frame without a reference bit,
or clears the bit of every evictable frame; then the second returns the first evictable frame, if there is one.
-/
namespace MiniPostgres

namespace ClockReplacer

def ahead (c : ClockReplacer) (steps : Nat) : Nat := (c.hand + steps) % c.frameCount

/-- The frame is passed within so many steps. -/
def Passed (c : ClockReplacer) (steps i : Nat) : Prop := ∃ t < steps, i = c.ahead t

/-- The clock after steps that found no victim: the evictable frames that were passed have lost their reference bits. -/
structure Turned (c : ClockReplacer) (steps : Nat) (c' : ClockReplacer) : Prop where
  frameCount : c'.frameCount = c.frameCount
  hand       : c'.hand < c.frameCount
  evictable  : c'.evictable = c.evictable
  referenced : ∀ i, c'.referenced i = true ↔ c.referenced i = true ∧ ¬(c.Passed steps i ∧ c.evictable i = true)

variable {c : ClockReplacer}

theorem ahead_zero (h : c.hand < c.frameCount) : c.ahead 0 = c.hand := Nat.mod_eq_of_lt h

theorem ahead_lt (h : c.hand < c.frameCount) (t : Nat) : c.ahead t < c.frameCount := Nat.mod_lt _ (by omega)

theorem ahead_succ (c' : ClockReplacer) (hn : c'.frameCount = c.frameCount)
    (hh : c'.hand = (c.hand + 1) % c.frameCount) (t : Nat) :
    c'.ahead t = c.ahead (t + 1) := by
  unfold ahead
  rw [hn, hh, Nat.mod_add_mod, Nat.add_assoc, Nat.add_comm 1 t]

theorem ahead_ne_hand (h : c.hand < c.frameCount) {t : Nat} (h0 : 0 < t) (ht : t < c.frameCount) : c.ahead t ≠ c.hand := by
  unfold ahead
  intro heq
  by_cases hw : c.hand + t < c.frameCount
  · rw [Nat.mod_eq_of_lt hw] at heq
    omega
  · rw [Nat.mod_eq_sub_mod (by omega), Nat.mod_eq_of_lt (by omega)] at heq
    omega

theorem passed_round (h : c.hand < c.frameCount) {i : Nat} (hi : i < c.frameCount) : c.Passed c.frameCount i := by
  by_cases hle : c.hand ≤ i
  · refine ⟨i - c.hand, by omega, ?_⟩
    unfold ahead
    rw [show c.hand + (i - c.hand) = i by omega, Nat.mod_eq_of_lt hi]
  · refine ⟨i + c.frameCount - c.hand, by omega, ?_⟩
    unfold ahead
    rw [show c.hand + (i + c.frameCount - c.hand) = i + c.frameCount by omega, Nat.add_mod_right, Nat.mod_eq_of_lt hi]

theorem Passed.lt (h : c.hand < c.frameCount) {n i : Nat} (hp : c.Passed n i) : i < c.frameCount := by
  obtain ⟨t, -, rfl⟩ := hp
  exact ahead_lt h t

theorem passed_succ_iff (c' : ClockReplacer) (h : c.hand < c.frameCount) (hn : c'.frameCount = c.frameCount)
    (hh : c'.hand = (c.hand + 1) % c.frameCount) (n i : Nat) : c.Passed (n + 1) i ↔ i = c.hand ∨ c'.Passed n i := by
  constructor
  · rintro ⟨_ | t, ht, rfl⟩
    · exact .inl (ahead_zero h)
    · exact .inr ⟨t, by omega, (ahead_succ c' hn hh t).symm⟩
  · rintro (rfl | ⟨t, ht, rfl⟩)
    · exact ⟨0, Nat.succ_pos n, (ahead_zero h).symm⟩
    · exact ⟨t + 1, by omega, ahead_succ c' hn hh t⟩

/-- What steps of the sweep do: they find a victim, which is evictable, or turn the clock. -/
inductive Swept (c : ClockReplacer) (n : Nat) : Prop
  | found (i : Nat) : (sweep n c).2 = some i → c.Passed n i → c.evictable i = true → (n ≤ c.frameCount → c.referenced i = false) →
      Swept c n
  | none : (sweep n c).2 = Option.none → c.Turned n (sweep n c).1 →
      (∀ i, c.Passed n i → c.evictable i = true → c.referenced i = true) → Swept c n

def moved (c : ClockReplacer) (referenced : Nat → Bool) : ClockReplacer :=
  { c with hand := (c.hand + 1) % c.frameCount, referenced := referenced }

/-- **One step more**: the frame under the hand is not evictable, or has a reference bit to lose. -/
theorem Swept.step {n : Nat} (referenced : Nat → Bool) (h : c.hand < c.frameCount)
    (hsweep : sweep (n + 1) c = sweep n (c.moved referenced)) (hhand : c.evictable c.hand = true → c.referenced c.hand = true)
    (href : ∀ i, referenced i = true ↔ c.referenced i = true ∧ ¬(i = c.hand ∧ c.evictable i = true))
    (hs : Swept (c.moved referenced) n) : Swept c (n + 1) := by
  have hpassed := fun i => passed_succ_iff (c.moved referenced) h rfl rfl n i
  cases hs with
  | found i hfound hp he hr =>
    refine .found i (by rw [hsweep, hfound]) ((hpassed i).2 (.inr hp)) he (fun hn => ?_)
    obtain ⟨t, ht, hi⟩ := hp
    have hi : i = c.ahead (t + 1) := hi.trans (ahead_succ (c := c) (c.moved referenced) rfl rfl t)
    have hne : i ≠ c.hand := by
      rw [hi]
      exact ahead_ne_hand h (Nat.succ_pos t) (by omega)
    have hfalse : referenced i = false := hr (by show n ≤ c.frameCount; omega)
    cases hc : c.referenced i with
    | false => rfl
    | true => exact absurd ((href i).2 ⟨hc, fun hcon => hne hcon.1⟩) (by rw [hfalse]; exact Bool.false_ne_true)
  | none hnone ht hall =>
    refine .none (by rw [hsweep, hnone]) ?_ (fun i hp he => ?_)
    · rw [hsweep]
      refine ⟨ht.frameCount, ht.hand, ht.evictable, fun i => ?_⟩
      rw [ht.referenced i, hpassed i]
      show referenced i = true ∧ ¬(_ ∧ c.evictable i = true) ↔ _
      rw [href i]
      tauto
    · rcases (hpassed i).1 hp with rfl | hp
      · exact hhand he
      · exact ((href i).1 (hall i hp he)).1

/-- **Steps of the sweep**, by recursion on their number. -/
theorem swept : ∀ (n : Nat) (c : ClockReplacer), c.hand < c.frameCount → Swept c n
  | 0, c, h => by
    have hno : ∀ i, ¬c.Passed 0 i := by
      rintro i ⟨t, ht, -⟩
      cases ht
    exact .none rfl ⟨rfl, h, rfl, fun i => ⟨fun hr => ⟨hr, fun hp => hno i hp.1⟩, fun hr => hr.1⟩⟩ (fun i hp => absurd hp (hno i))
  | n + 1, c, h => by
    have hlt : (c.hand + 1) % c.frameCount < c.frameCount := Nat.mod_lt _ (by omega)
    by_cases he : c.evictable c.hand = false
    · refine Swept.step c.referenced h ?_ (fun ht => ?_) (fun i => ?_) (swept n (c.moved c.referenced) hlt)
      · rw [sweep, if_pos he]
        rfl
      · rw [he] at ht
        cases ht
      · refine ⟨fun hr => ⟨hr, ?_⟩, fun hr => hr.1⟩
        rintro ⟨rfl, ht⟩
        rw [he] at ht
        cases ht
    · have he : c.evictable c.hand = true := by simpa using he
      by_cases hr : c.referenced c.hand = true
      · refine Swept.step (Function.update c.referenced c.hand false) h ?_ (fun _ => hr) (fun i => ?_)
          (swept n (c.moved (Function.update c.referenced c.hand false)) hlt)
        · rw [sweep, if_neg (by rw [he]; exact Bool.noConfusion), if_pos hr]
          rfl
        · by_cases hi : i = c.hand
          · subst hi
            rw [Function.update_self]
            simp [he]
          · rw [Function.update_of_ne hi]
            exact ⟨fun hri => ⟨hri, fun hcon => hi hcon.1⟩, fun hri => hri.1⟩
      · refine .found c.hand ?_ ⟨0, Nat.succ_pos n, (ahead_zero h).symm⟩ he (fun _ => by simpa using hr)
        rw [sweep, if_neg (by rw [he]; exact Bool.noConfusion), if_neg hr]

theorem sweep_add : ∀ (m n : Nat) (c : ClockReplacer), (sweep m c).2 = none → sweep (m + n) c = sweep n (sweep m c).1
  | 0, n, c, _ => by rw [Nat.zero_add]; rfl
  | m + 1, n, c, h => by
    rw [Nat.succ_add, sweep]
    rw [sweep] at h
    conv_rhs => rw [sweep]
    simp only at h ⊢
    split
    · rename_i he
      rw [if_pos he] at h
      exact sweep_add m n _ h
    · rename_i he
      rw [if_neg he] at h
      split
      · rename_i hr
        rw [if_pos hr] at h
        exact sweep_add m n _ h
      · rename_i hr
        rw [if_neg hr] at h
        cases h

theorem sweep_found : ∀ (m n : Nat) (c : ClockReplacer) (i : Nat), (sweep m c).2 = some i → sweep (m + n) c = sweep m c
  | 0, n, c, i, h => by cases h
  | m + 1, n, c, i, h => by
    rw [Nat.succ_add, sweep]
    rw [sweep] at h
    conv_rhs => rw [sweep]
    simp only at h ⊢
    split
    · rename_i he
      rw [if_pos he] at h
      exact sweep_found m n _ i h
    · rename_i he
      rw [if_neg he] at h
      split
      · rename_i hr
        rw [if_pos hr] at h
        exact sweep_found m n _ i h
      · rfl

/-- **Eviction is complete**: it fails only when no frame is evictable, its victim is an evictable frame that loses that mark
alone, and a victim with a reference bit means that every evictable frame had one. -/
theorem evict_complete (c : ClockReplacer) (h : c.hand < c.frameCount) :
    (c.evict.2 = none ↔ ∀ i < c.frameCount, c.evictable i = false) ∧
    ∀ i, c.evict.2 = some i → i < c.frameCount ∧ c.evictable i = true ∧
      c.evict.1.evictable = Function.update c.evictable i false ∧
      (c.referenced i = true → ∀ j < c.frameCount, c.evictable j = true → c.referenced j = true) := by
  have hmark : ∀ i, c.evict.2 = some i → c.evict.1.evictable = Function.update c.evictable i false := by
    intro i hi
    rcases sweep_cases (c.frameCount * 2) c with ⟨hnone, -⟩ | ⟨j, hj, -, hupdate⟩
    · unfold evict at hi
      rw [hnone] at hi
      cases hi
    · unfold evict at hi ⊢
      rw [hj] at hi
      cases hi
      exact hupdate
  cases swept c.frameCount c h with
  | found i hi hp he hr =>
    have hevict : c.evict = sweep c.frameCount c := by
      unfold evict
      rw [Nat.mul_two, sweep_found _ _ c i hi]
    have hvictim : c.evict.2 = some i := by rw [hevict, hi]
    refine ⟨⟨fun hn => ?_, fun hall => ?_⟩, fun j hj => ?_⟩
    · rw [hvictim] at hn
      cases hn
    · rw [hall i (hp.lt h)] at he
      cases he
    · rw [hvictim] at hj
      cases hj
      refine ⟨hp.lt h, he, hmark i hvictim, fun href => ?_⟩
      rw [hr (Nat.le_refl _)] at href
      cases href
  | none hnone ht hall =>
    have hevict : c.evict = sweep c.frameCount (sweep c.frameCount c).1 := by
      unfold evict
      rw [Nat.mul_two, sweep_add _ _ c hnone]
    have hcleared : ∀ j < c.frameCount, c.evictable j = true → (sweep c.frameCount c).1.referenced j = false := by
      intro j hj he
      rw [← Bool.not_eq_true, ht.referenced j]
      exact fun hcon => hcon.2 ⟨passed_round h hj, he⟩
    have hhand : (sweep c.frameCount c).1.hand < (sweep c.frameCount c).1.frameCount := by
      rw [ht.frameCount]
      exact ht.hand
    cases swept c.frameCount _ hhand with
    | found i hi hp he _ =>
      rw [ht.evictable] at he
      have hlt := hp.lt hhand
      rw [ht.frameCount] at hlt
      have hvictim : c.evict.2 = some i := by rw [hevict, hi]
      refine ⟨⟨fun hn => ?_, fun hno => ?_⟩, fun j hj => ?_⟩
      · rw [hvictim] at hn
        cases hn
      · rw [hno i hlt] at he
        cases he
      · rw [hvictim] at hj
        cases hj
        exact ⟨hlt, he, hmark i hvictim, fun _ j hj hej => hall j (passed_round h hj) hej⟩
    | none hnone' _ hall' =>
      have hfails : c.evict.2 = Option.none := by rw [hevict, hnone']
      refine ⟨⟨fun _ i hi => ?_, fun _ => hfails⟩, fun j hj => ?_⟩
      · rw [← Bool.not_eq_true]
        intro he
        have hpassed : (sweep c.frameCount c).1.Passed c.frameCount i := by
          have hround := passed_round hhand (i := i) (by rw [ht.frameCount]; exact hi)
          rwa [ht.frameCount] at hround
        have href := hall' i hpassed (by rw [ht.evictable]; exact he)
        rw [hcleared i hi he] at href
        cases href
      · rw [hfails] at hj
        cases hj

/-- Two evictable frames, of which one has a reference bit. -/
theorem evict_complete_two :
    ((⟨2, fun i => i == 0, fun _ => true, 0⟩ : ClockReplacer).evict.2 = none ↔ ∀ i < 2, true = false) ∧
    ∀ i, (⟨2, fun i => i == 0, fun _ => true, 0⟩ : ClockReplacer).evict.2 = some i → i < 2 ∧ true = true ∧
      (⟨2, fun i => i == 0, fun _ => true, 0⟩ : ClockReplacer).evict.1.evictable = Function.update (fun _ => true) i false ∧
      ((i == 0) = true → ∀ j < 2, true = true → (j == 0) = true) :=
  evict_complete ⟨2, fun i => i == 0, fun _ => true, 0⟩ (by decide)

end ClockReplacer

end MiniPostgres
