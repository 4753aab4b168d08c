import Mathlib.Data.List.Basic

/-!
# Dictionaries in insertion order

A dictionary is its list of entries. Storing a present key keeps its position.
-/

namespace IcsDeception

/-- A dictionary with keys in insertion order. -/
abbrev Dict (κ α : Type) := List (κ × α)

namespace Dict

variable {κ α : Type} [DecidableEq κ]

/-- `d[key] = a`. -/
def store (d : Dict κ α) (key : κ) (a : α) : Dict κ α :=
  match d with
  | [] => [(key, a)]
  | (k, b) :: rest => if k = key then (k, a) :: rest else (k, b) :: store rest key a

variable [BEq κ] [LawfulBEq κ]

theorem lookup_store_self (d : Dict κ α) (key : κ) (a : α) :
    (d.store key a).lookup key = some a := by
  induction d with
  | nil => simp [store]
  | cons p rest ih =>
      obtain ⟨k, b⟩ := p
      rw [store]
      split_ifs with hk
      · simp [hk]
      · simp [List.lookup_cons, beq_false_of_ne (Ne.symm hk), ih]

theorem lookup_store_ne (d : Dict κ α) {key other : κ} (h : other ≠ key) (a : α) :
    (d.store key a).lookup other = d.lookup other := by
  induction d with
  | nil => simp [store, List.lookup_cons, beq_false_of_ne h]
  | cons p rest ih =>
      obtain ⟨k, b⟩ := p
      rw [store]
      split_ifs with hk
      · subst hk
        simp [List.lookup_cons, beq_false_of_ne h]
      · simp only [List.lookup_cons, ih]

end Dict

end IcsDeception
