/-!
Association lists kept in the order in which their keys were first set. They hold local names,
component tables and mount keys, whose order can be seen in what a page is made of.
-/

namespace LiveTemplate

set_option autoImplicit false

universe u v

/-- Keys with their values, each key once, oldest first. -/
abbrev Assoc (κ : Type u) (α : Type v) := List (κ × α)

namespace Assoc

variable {κ : Type u} {α : Type v} [DecidableEq κ]

/-- The value held under a key. -/
def get? : Assoc κ α → κ → Option α
  | [], _ => none
  | (k, v) :: rest, key => if k = key then some v else get? rest key

def contains (xs : Assoc κ α) (key : κ) : Bool := (get? xs key).isSome

/-- Sets a key: in its old place when it is known, at the end otherwise. -/
def set : Assoc κ α → κ → α → Assoc κ α
  | [], key, value => [(key, value)]
  | (k, v) :: rest, key, value =>
    if k = key then (key, value) :: rest else (k, v) :: set rest key value

/-- Sets every entry of a second list, in its order. -/
def setAll (xs ys : Assoc κ α) : Assoc κ α := ys.foldl (fun acc e => set acc e.1 e.2) xs

omit [DecidableEq κ] in
def keys (xs : Assoc κ α) : List κ := xs.map Prod.fst

attribute [local simp] get? set

@[simp] theorem get?_nil (key : κ) : get? ([] : Assoc κ α) key = none := rfl

theorem get?_set_self (xs : Assoc κ α) (key : κ) (value : α) :
    get? (set xs key value) key = some value := by
  induction xs with
  | nil => simp
  | cons e rest ih => by_cases h : e.1 = key <;> simp [h, ih]

theorem get?_set_of_ne (xs : Assoc κ α) {key other : κ} (value : α) (h : key ≠ other) :
    get? (set xs key value) other = get? xs other := by
  induction xs with
  | nil => simp [h]
  | cons e rest ih =>
    by_cases he : e.1 = key
    · have hne : e.1 ≠ other := by rw [he]; exact h
      simp [he, h]
    · by_cases ho : e.1 = other
      · have hk : ¬ other = key := fun hk => h hk.symm
        simp [ho, hk]
      · simp [he, ho, ih]

/-- A known key keeps its place, a new one comes last. -/
theorem keys_set (xs : Assoc κ α) (key : κ) (value : α) :
    keys (set xs key value) = if key ∈ keys xs then keys xs else keys xs ++ [key] := by
  induction xs with
  | nil => simp [keys]
  | cons e rest ih =>
    by_cases h : e.1 = key
    · simp [keys, h]
    · have h' : ¬ key = e.1 := fun hk => h hk.symm
      simp only [keys] at ih
      by_cases hm : key ∈ rest.map Prod.fst <;> simp [keys, h, h', hm, ih]

theorem mem_keys_iff {xs : Assoc κ α} {key : κ} : key ∈ keys xs ↔ (get? xs key).isSome = true := by
  induction xs with
  | nil => simp [keys]
  | cons e rest ih =>
    rw [keys, List.map_cons, List.mem_cons, get?]
    by_cases h : e.1 = key
    · simp [h]
    · rw [if_neg h, ← ih]
      exact or_iff_right fun hkey => h hkey.symm

theorem get?_append (xs ys : Assoc κ α) (key : κ) :
    get? (xs ++ ys) key = (get? xs key).or (get? ys key) := by
  induction xs with
  | nil => rfl
  | cons e rest ih =>
    rw [List.cons_append, get?, get?, ih]
    split <;> rfl

theorem mem_of_get? {xs : Assoc κ α} {key : κ} {value : α} (h : get? xs key = some value) :
    (key, value) ∈ xs := by
  induction xs with
  | nil => simp at h
  | cons e rest ih =>
    rw [get?] at h
    split at h
    · rename_i he
      obtain rfl := Option.some.inj h
      rw [← he]
      exact List.mem_cons_self
    · exact List.mem_cons_of_mem _ (ih h)

theorem get?_of_mem {xs : Assoc κ α} {key : κ} {value : α} (hn : (keys xs).Nodup)
    (h : (key, value) ∈ xs) : get? xs key = some value := by
  induction xs with
  | nil => simp at h
  | cons e rest ih =>
    rw [keys, List.map_cons, List.nodup_cons] at hn
    rcases List.mem_cons.1 h with rfl | h
    · simp
    · have hne : e.1 ≠ key := by
        rintro rfl
        exact hn.1 (List.mem_map.2 ⟨_, h, rfl⟩)
      rw [get?, if_neg hne]
      exact ih hn.2 h

end Assoc

end LiveTemplate
