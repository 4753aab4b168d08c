import IcsDeception.Lib.Text

/-!
# Values that JSON text can be made of

One type holds both what a JSON reader returns and what a program hands to a
JSON writer. A reader never returns a tuple, a key that is not a text, or a value
of an unsupported type; those exist only on the writing side.

## Implementation notes

A dictionary is its list of members in insertion order. That no key occurs twice
is the predicate `Value.Distinct`, which every reader result satisfies. A float is
kept as its literal, because no arithmetic is ever done on one; where a program writes back
what it has read, the spelling of its floats is a parameter (`Value.respelled`).
-/

namespace IcsDeception.Json

open Text

/-- A dictionary key. A key that is not a text is kept by its rendering. -/
inductive Key
  | str (s : Str)
  | other (shown : Str)
  deriving DecidableEq

/-- A value of the interpreter. -/
inductive Value
  | null
  | bool (b : Bool)
  | int (i : Int)
  | float (literal : Str)
  | str (s : Str)
  | list (xs : List Value)
  | tuple (xs : List Value)
  | dict (kvs : List (Key × Value))
  | other (typeName : Str)

namespace Value

/-- A dictionary with text keys from its members. -/
def ofMembers (ms : List (Str × Value)) : Value := .dict (ms.map fun p => (.str p.1, p.2))

mutual
/-- No dictionary inside the value holds a key twice. -/
def Distinct : Value → Prop
  | .list xs => DistinctItems xs
  | .tuple xs => DistinctItems xs
  | .dict kvs => (kvs.map Prod.fst).Nodup ∧ DistinctMembers kvs
  | _ => True
/-- Every item of a list has distinct keys throughout. -/
def DistinctItems : List Value → Prop
  | [] => True
  | v :: vs => Distinct v ∧ DistinctItems vs
/-- Every member's value has distinct keys throughout. -/
def DistinctMembers : List (Key × Value) → Prop
  | [] => True
  | (_, v) :: rest => Distinct v ∧ DistinctMembers rest
end

theorem distinctItems_iff {xs : List Value} : DistinctItems xs ↔ ∀ v ∈ xs, Distinct v := by
  induction xs with
  | nil => simp [DistinctItems]
  | cons v vs ih => simp [DistinctItems, ih]

theorem distinctMembers_iff {kvs : List (Key × Value)} :
    DistinctMembers kvs ↔ ∀ p ∈ kvs, Distinct p.2 := by
  induction kvs with
  | nil => simp [DistinctMembers]
  | cons p rest ih => simp [DistinctMembers, ih]

mutual
/-- How many containers enclose the deepest scalar. -/
def nest : Value → Nat
  | .list xs => nestItems xs + 1
  | .tuple xs => nestItems xs + 1
  | .dict kvs => nestMembers kvs + 1
  | _ => 0
/-- The deepest nesting among the items. -/
def nestItems : List Value → Nat
  | [] => 0
  | v :: vs => max (nest v) (nestItems vs)
/-- The deepest nesting among the members. -/
def nestMembers : List (Key × Value) → Nat
  | [] => 0
  | (_, v) :: rest => max (nest v) (nestMembers rest)
end

theorem nest_le_of_mem {xs : List Value} {v : Value} (h : v ∈ xs) : nest v ≤ nestItems xs := by
  induction xs with
  | nil => simp at h
  | cons w ws ih =>
      rcases List.mem_cons.mp h with rfl | h
      · exact le_max_left _ _
      · exact (ih h).trans (le_max_right _ _)

theorem nest_le_of_mem_members {kvs : List (Key × Value)} {p : Key × Value} (h : p ∈ kvs) :
    nest p.2 ≤ nestMembers kvs := by
  induction kvs with
  | nil => simp at h
  | cons q qs ih =>
      rcases List.mem_cons.mp h with rfl | h
      · exact le_max_left _ _
      · exact (ih h).trans (le_max_right _ _)

end Value

/-- Store a member: a key already present keeps its position and takes the new value. -/
def setMember (ms : List (Str × Value)) (key : Str) (v : Value) : List (Str × Value) :=
  match ms with
  | [] => [(key, v)]
  | (k, w) :: rest => if k = key then (k, v) :: rest else (k, w) :: setMember rest key v

/-- `dict(pairs)`: later pairs win. -/
def dictOfPairs (pairs : List (Str × Value)) : List (Str × Value) :=
  pairs.foldl (fun ms p => setMember ms p.1 p.2) []

theorem setMember_of_notMem {ms : List (Str × Value)} {key : Str} {v : Value}
    (h : key ∉ ms.map Prod.fst) : setMember ms key v = ms ++ [(key, v)] := by
  induction ms with
  | nil => rfl
  | cons p rest ih =>
      obtain ⟨k, w⟩ := p
      simp only [List.map_cons, List.mem_cons, not_or] at h
      rw [setMember, if_neg (Ne.symm h.1), ih h.2]
      rfl

theorem foldl_setMember {acc pairs : List (Str × Value)}
    (h : ((acc ++ pairs).map Prod.fst).Nodup) :
    pairs.foldl (fun ms p => setMember ms p.1 p.2) acc = acc ++ pairs := by
  induction pairs generalizing acc with
  | nil => simp
  | cons p rest ih =>
      have hp : p.1 ∉ acc.map Prod.fst := by
        rw [List.map_append, List.map_cons, List.nodup_append] at h
        intro hm
        exact h.2.2 _ hm _ (List.mem_cons_self) rfl
      rw [List.foldl_cons, setMember_of_notMem hp, ih (by simpa using h)]
      simp

/-- Pairs without a repeated key are stored as they stand. -/
theorem dictOfPairs_of_nodup {pairs : List (Str × Value)} (h : (pairs.map Prod.fst).Nodup) :
    dictOfPairs pairs = pairs := by
  have hnil : (([] ++ pairs : List (Str × Value)).map Prod.fst).Nodup := by simpa using h
  simpa [dictOfPairs] using foldl_setMember hnil

end IcsDeception.Json
