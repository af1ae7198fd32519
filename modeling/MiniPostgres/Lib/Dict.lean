import Mathlib
/-!
# Dict — a dictionary that keeps the order of insertion

A key that is set again keeps its place; a key that is erased leaves no trace.
-/

abbrev Dict (κ ν : Type) := List (κ × ν)

namespace Dict

variable {κ ν : Type} [DecidableEq κ]

def keys (d : Dict κ ν) : List κ := d.map Prod.fst

def get? (d : Dict κ ν) (k : κ) : Option ν := (d.find? (fun e => decide (e.1 = k))).map Prod.snd

def set : Dict κ ν → κ → ν → Dict κ ν
  | [], k, v     => [(k, v)]
  | e :: d, k, v => if e.1 = k then (k, v) :: d else e :: set d k v

def erase (d : Dict κ ν) (k : κ) : Dict κ ν := d.filter (fun e => decide (e.1 ≠ k))

/-- The dictionary of a list of entries; a later entry replaces an earlier one. -/
def ofList (entries : List (κ × ν)) : Dict κ ν := entries.foldl (fun d e => set d e.1 e.2) []

omit [DecidableEq κ] in
theorem mem_keys_of_mem {d : Dict κ ν} {e : κ × ν} (h : e ∈ d) : e.1 ∈ keys d := List.mem_map_of_mem h

theorem set_of_notMem : ∀ {d : Dict κ ν} {k : κ} (v : ν), k ∉ keys d → set d k v = d ++ [(k, v)]
  | [], _, _, _     => rfl
  | e :: d, k, v, h => by
    have hne : e.1 ≠ k := fun he => h (by rw [← he]; exact List.mem_cons_self)
    rw [set, if_neg hne, set_of_notMem v (fun hm => h (List.mem_cons_of_mem _ hm)), List.cons_append]

omit [DecidableEq κ] in
theorem nodup_keys_append {d : Dict κ ν} {k : κ} (v : ν) (hd : (keys d).Nodup) (hk : k ∉ keys d) :
    (keys (d ++ [(k, v)])).Nodup := by
  unfold keys at hd hk ⊢
  rw [List.map_append, List.nodup_append]
  refine ⟨hd, List.nodup_singleton _, fun x hx y hy he => hk ?_⟩
  rw [List.map_singleton, List.mem_singleton] at hy
  have hxk : x = k := he.trans hy
  rw [← hxk]
  exact hx

theorem erase_of_notMem {d : Dict κ ν} {k : κ} (h : k ∉ keys d) : erase d k = d :=
  List.filter_eq_self.2 (fun _ he => decide_eq_true (fun heq => h (by rw [← heq]; exact mem_keys_of_mem he)))

theorem notMem_keys_erase (d : Dict κ ν) (k : κ) : k ∉ keys (erase d k) := by
  intro h
  obtain ⟨e, he, rfl⟩ := List.mem_map.1 h
  exact of_decide_eq_true (List.mem_filter.1 he).2 rfl

/-- **Erasing a new key takes the setting back.** -/
theorem erase_set {d : Dict κ ν} {k : κ} (v : ν) (h : k ∉ keys d) : erase (set d k v) k = d := by
  rw [set_of_notMem v h, erase, List.filter_append, ← erase, erase_of_notMem h]
  simp

theorem erase_set_eq_iff {d : Dict κ ν} {k : κ} (v : ν) : erase (set d k v) k = d ↔ k ∉ keys d := by
  refine ⟨fun h => ?_, erase_set v⟩
  rw [← h]
  exact notMem_keys_erase _ k

/-- **The dictionary of entries with distinct keys is the list of them.** -/
theorem ofList_of_nodup {entries : List (κ × ν)} (h : (keys entries).Nodup) : ofList entries = entries := by
  have hloop : ∀ (rest d : List (κ × ν)), (keys (d ++ rest)).Nodup →
      rest.foldl (fun d e => set d e.1 e.2) d = d ++ rest := by
    intro rest
    induction rest with
    | nil => exact fun d _ => (List.append_nil d).symm
    | cons e rest ih =>
      intro d hd
      have hnew : e.1 ∉ keys d := by
        intro hm
        unfold keys at hd hm
        rw [List.map_append, List.nodup_append] at hd
        exact hd.2.2 e.1 hm e.1 (by simp) rfl
      rw [List.foldl_cons, set_of_notMem e.2 hnew, ih _ (by simpa [keys] using hd), List.append_assoc]
      rfl
  exact hloop entries [] h

theorem mem_of_get? {d : Dict κ ν} {k : κ} {v : ν} (h : get? d k = some v) : (k, v) ∈ d := by
  obtain ⟨e, he, rfl⟩ := Option.map_eq_some_iff.1 h
  have hk : e.1 = k := by simpa using List.find?_some he
  rw [← hk]
  exact List.mem_of_find?_eq_some he

theorem get?_append {d : Dict κ ν} {k : κ} {v : ν} (h : get? d k = some v) (d' : Dict κ ν) : get? (d ++ d') k = some v := by
  obtain ⟨e, he, rfl⟩ := Option.map_eq_some_iff.1 h
  unfold get?
  rw [List.find?_append, he]
  rfl

theorem get?_set_self : ∀ (d : Dict κ ν) (k : κ) (v : ν), get? (set d k v) k = some v
  | [], k, v     => by simp [set, get?]
  | e :: d, k, v => by
    have ih := get?_set_self d k v
    unfold get? at ih ⊢
    rw [set]
    split
    · simp
    · rename_i hne
      rw [List.find?_cons_of_neg (by simpa using hne)]
      exact ih

end Dict
