import Mathlib
/-!
# Pull — iterators that may fail

What a consumer gets from an iterator: its items in order, and then the end or a failure.  `bind` runs one iterator for each
item of another and stops at the first failure; without a failure it is `flatMap`, and with one its items are a prefix of that.
-/

/-- The items of an iterator up to its end or its first failure. -/
structure Pull (ε α : Type) where
  items   : List α
  failure : Option ε
  deriving DecidableEq

namespace Pull

variable {ε α β γ : Type}

def ofList (items : List α) : Pull ε α := ⟨items, none⟩

/-- One call: an item, or a failure. -/
def ofExcept : Except ε α → Pull ε α
  | .ok x    => ⟨[x], none⟩
  | .error e => ⟨[], some e⟩

def bindItems (f : α → Pull ε β) (failure : Option ε) : List α → Pull ε β
  | []      => ⟨[], failure⟩
  | x :: xs =>
    match (f x).failure with
    | some e => ⟨(f x).items, some e⟩
    | none   => ⟨(f x).items ++ (bindItems f failure xs).items, (bindItems f failure xs).failure⟩

def bind (p : Pull ε α) (f : α → Pull ε β) : Pull ε β := bindItems f p.failure p.items

/-- A call that gives all items, or a failure and none. -/
def ofResult : Except ε (List α) → Pull ε α
  | .ok xs   => ⟨xs, none⟩
  | .error e => ⟨[], some e⟩

/-- One iterator, and the other behind it. -/
def append (p q : Pull ε α) : Pull ε α :=
  match p.failure with
  | some e => ⟨p.items, some e⟩
  | none   => ⟨p.items ++ q.items, q.failure⟩

/-- A consumer that stops after `n` items does not meet a failure behind them. -/
def take (n : Nat) (p : Pull ε α) : Pull ε α := if n ≤ p.items.length then ⟨p.items.take n, none⟩ else p

/-- A consumer that wants every item. -/
def drain (p : Pull ε α) : Except ε (List α) :=
  match p.failure with
  | some e => .error e
  | none   => .ok p.items

theorem drain_eq_ok {p : Pull ε α} {xs : List α} : p.drain = .ok xs ↔ p = ⟨xs, none⟩ := by
  obtain ⟨items, failure⟩ := p
  unfold drain
  cases failure with
  | none => simp
  | some e => simp

theorem bind_cons (x : α) (xs : List α) (failure : Option ε) (f : α → Pull ε β) :
    (⟨x :: xs, failure⟩ : Pull ε α).bind f = (f x).append (bind ⟨xs, failure⟩ f) := by
  unfold bind append
  simp only [bindItems]

theorem empty_append (p : Pull ε α) : (ofList [] : Pull ε α).append p = p := rfl

theorem append_empty (p : Pull ε α) : p.append (ofList []) = p := by
  obtain ⟨items, failure⟩ := p
  cases failure <;> simp [append, ofList]

theorem append_assoc (p q r : Pull ε α) : (p.append q).append r = p.append (q.append r) := by
  unfold append
  cases p.failure with
  | some e => rfl
  | none =>
    cases q.failure with
    | some e => rfl
    | none => simp only [List.append_assoc]

theorem take_zero (p : Pull ε α) : p.take 0 = ofList [] := rfl

theorem take_cons (n : Nat) (x : α) (xs : List α) (failure : Option ε) :
    (⟨x :: xs, failure⟩ : Pull ε α).take (n + 1) = (ofList [x]).append (take n ⟨xs, failure⟩) := by
  unfold take
  simp only [List.length_cons, Nat.add_le_add_iff_right]
  split <;> rfl

/-- **A bind fails exactly when the outer iterator or an inner one does.** -/
theorem bind_failure {p : Pull ε α} {f : α → Pull ε β} :
    (p.bind f).failure = none ↔ p.failure = none ∧ ∀ x ∈ p.items, (f x).failure = none := by
  obtain ⟨items, failure⟩ := p
  unfold bind
  induction items with
  | nil => simp [bindItems]
  | cons x xs ih =>
    simp only [bindItems, List.forall_mem_cons] at ih ⊢
    cases hx : (f x).failure with
    | some e => simp
    | none => simpa using ih

theorem bind_items {p : Pull ε α} {f : α → Pull ε β} (h : ∀ x ∈ p.items, (f x).failure = none) :
    (p.bind f).items = p.items.flatMap (fun x => (f x).items) := by
  obtain ⟨items, failure⟩ := p
  unfold bind
  induction items with
  | nil => rfl
  | cons x xs ih =>
    simp only [List.forall_mem_cons] at h
    simp only [bindItems, h.1, List.flatMap_cons] at ih ⊢
    rw [ih h.2]

/-- **Up to its failure a bind is `flatMap`.** -/
theorem bind_initial (p : Pull ε α) (f : α → Pull ε β) : (p.bind f).items <+: p.items.flatMap (fun x => (f x).items) := by
  obtain ⟨items, failure⟩ := p
  unfold bind
  induction items with
  | nil => exact List.prefix_rfl
  | cons x xs ih =>
    simp only [bindItems, List.flatMap_cons] at ih ⊢
    cases (f x).failure with
    | some e => exact List.prefix_append _ _
    | none => exact (List.prefix_append_right_inj _).2 ih

theorem mem_bind {p : Pull ε α} {f : α → Pull ε β} {y : β} (h : y ∈ (p.bind f).items) : ∃ x ∈ p.items, y ∈ (f x).items :=
  List.mem_flatMap.1 ((bind_initial p f).subset h)

theorem bind_failed {p : Pull ε α} {f : α → Pull ε β} {e : ε} (h : (p.bind f).failure = some e) :
    p.failure = some e ∨ ∃ x ∈ p.items, (f x).failure = some e := by
  obtain ⟨items, failure⟩ := p
  unfold bind at h
  induction items with
  | nil => exact Or.inl h
  | cons x xs ih =>
    simp only [bindItems] at h ih
    cases hx : (f x).failure with
    | some e' =>
      rw [hx] at h
      exact Or.inr ⟨x, List.mem_cons_self, by rw [hx]; exact h⟩
    | none =>
      rw [hx] at h
      rcases ih h with h | ⟨y, hy, h⟩
      · exact Or.inl h
      · exact Or.inr ⟨y, List.mem_cons_of_mem _ hy, h⟩

theorem drain_eq_error {p : Pull ε α} {e : ε} : p.drain = .error e ↔ p.failure = some e := by
  unfold drain
  cases p.failure with
  | none => simp
  | some e' => simp

/-- An iterator that agrees with a list as far as it goes. -/
structure Along (p : Pull ε α) (xs : List α) : Prop where
  items : p.items <+: xs
  whole : p.failure = none → p.items = xs

/-- **Iterators that agree with lists do so under a bind.** -/
theorem Along.bind {p : Pull ε α} {xs : List α} {f : α → Pull ε β} {g : α → List β} (h : Along p xs)
    (hf : ∀ x, Along (f x) (g x)) : Along (p.bind f) (xs.flatMap g) := by
  obtain ⟨items, failure⟩ := p
  have hstart : ∀ items, (bindItems f failure items).items <+: items.flatMap g ∧
      ((bindItems f failure items).failure = none → (bindItems f failure items).items = items.flatMap g) := by
    intro items
    induction items with
    | nil => exact ⟨List.prefix_rfl, fun _ => rfl⟩
    | cons x rest ih =>
      simp only [bindItems, List.flatMap_cons]
      cases hx : (f x).failure with
      | some e => exact ⟨(hf x).items.trans (List.prefix_append _ _), fun hn => by cases hn⟩
      | none =>
        rw [(hf x).whole hx]
        exact ⟨(List.prefix_append_right_inj _).2 ih.1, fun hn => by rw [ih.2 hn]⟩
  refine ⟨?_, fun hn => ?_⟩
  · obtain ⟨rest, hr⟩ := h.items
    refine (hstart items).1.trans ?_
    rw [← hr, List.flatMap_append]
    exact List.prefix_append _ _
  · have hp : failure = none := (bind_failure.1 hn).1
    exact ((hstart items).2 hn).trans (by rw [← h.whole hp])

theorem along_ofResult {r : Except ε (List α)} {xs : List α} (h : ∀ ys, r = .ok ys → ys = xs) : Along (ofResult r) xs := by
  cases r with
  | ok ys => exact ⟨by rw [h ys rfl]; exact List.prefix_rfl, fun _ => h ys rfl⟩
  | error e => exact ⟨List.nil_prefix, fun hn => by cases hn⟩

theorem along_ofExcept (r : Except ε α) : Along (ofExcept r) r.toOption.toList := by
  cases r with
  | ok x => exact ⟨List.prefix_rfl, fun _ => rfl⟩
  | error e => exact ⟨List.prefix_rfl, fun _ => rfl⟩

theorem along_ofList (xs : List α) : Along (ofList xs : Pull ε α) xs := ⟨List.prefix_rfl, fun _ => rfl⟩

theorem Along.drain {p : Pull ε α} {xs ys : List α} (h : Along p xs) (hd : p.drain = .ok ys) : ys = xs := by
  rw [drain_eq_ok] at hd
  rw [← h.whole (by rw [hd]), hd]

theorem Along.take {p : Pull ε α} {xs : List α} (h : Along p xs) (n : Nat) : Along (p.take n) (xs.take n) := by
  unfold Pull.take
  split
  · rename_i hn
    obtain ⟨rest, hr⟩ := h.items
    have heq : p.items.take n = xs.take n := by rw [← hr, List.take_append_of_le_length hn]
    exact ⟨by rw [heq], fun _ => heq⟩
  · rename_i hn
    obtain ⟨rest, hr⟩ := h.items
    refine ⟨?_, fun hf => ?_⟩
    · rw [← hr, List.take_append, List.take_of_length_le (by omega)]
      exact List.prefix_append _ _
    · have hw := h.whole hf
      rw [hw, List.take_of_length_le (by rw [← hw]; omega)]

end Pull
