import IcsDeception.Lib.Json.Written

/-!
# Respelled floats

A float that is read from one spelling is written in another, the one that the interpreter
gives to its value. `respelled f` gives every float inside a value the spelling `f` of its
own. Neither the shape of the value nor any text in it changes.
-/

namespace IcsDeception.Json

open Text

mutual
/-- The value with every float inside it spelled by `f`. -/
def respelled (f : Str → Str) : Value → Value
  | .float l => .float (f l)
  | .list xs => .list (respelledItems f xs)
  | .tuple xs => .tuple (respelledItems f xs)
  | .dict kvs => .dict (respelledMembers f kvs)
  | v => v
/-- The items with their floats respelled. -/
def respelledItems (f : Str → Str) : List Value → List Value
  | [] => []
  | v :: vs => respelled f v :: respelledItems f vs
/-- The members with the floats of their values respelled. -/
def respelledMembers (f : Str → Str) : List (Key × Value) → List (Key × Value)
  | [] => []
  | (k, v) :: rest => (k, respelled f v) :: respelledMembers f rest
end

variable {f : Str → Str}

theorem respelledMembers_eq_map (f : Str → Str) (kvs : List (Key × Value)) :
    respelledMembers f kvs = kvs.map fun p => (p.1, respelled f p.2) := by
  induction kvs with
  | nil => rfl
  | cons p rest ih => rw [respelledMembers, ih, List.map_cons]

theorem respelledMembers_keys (f : Str → Str) (kvs : List (Key × Value)) :
    (respelledMembers f kvs).map Prod.fst = kvs.map Prod.fst := by
  rw [respelledMembers_eq_map, List.map_map]
  rfl

mutual
/-- What is spelled as a float stays legible if its new spelling is one of a float. -/
theorem legible_respelled (hf : ∀ l, FloatText l → FloatText (f l)) :
    ∀ v : Value, Legible v → Legible (respelled f v)
  | .float l, h => hf l h
  | .list xs, h => legibleItems_respelled hf xs h
  | .tuple xs, h => legibleItems_respelled hf xs h
  | .dict kvs, h => legibleMembers_respelled hf kvs h
  | .null, h => h
  | .bool _, h => h
  | .int _, h => h
  | .str _, h => h
  | .other _, h => h
/-- The same of items. -/
theorem legibleItems_respelled (hf : ∀ l, FloatText l → FloatText (f l)) :
    ∀ xs : List Value, LegibleItems xs → LegibleItems (respelledItems f xs)
  | [], h => h
  | x :: xs, h => ⟨legible_respelled hf x h.1, legibleItems_respelled hf xs h.2⟩
/-- The same of members. -/
theorem legibleMembers_respelled (hf : ∀ l, FloatText l → FloatText (f l)) :
    ∀ kvs : List (Key × Value), LegibleMembers kvs → LegibleMembers (respelledMembers f kvs)
  | [], h => h
  | (_, v) :: rest, h => ⟨legible_respelled hf v h.1, legibleMembers_respelled hf rest h.2⟩
end

mutual
/-- No key changes, so no dictionary holds one twice. -/
theorem distinct_respelled (f : Str → Str) : ∀ v : Value, v.Distinct → (respelled f v).Distinct
  | .float _, h => h
  | .list xs, h => distinctItems_respelled f xs h
  | .tuple xs, h => distinctItems_respelled f xs h
  | .dict kvs, h => by
      refine ⟨?_, distinctMembers_respelled f kvs h.2⟩
      rw [respelledMembers_keys]
      exact h.1
  | .null, h => h
  | .bool _, h => h
  | .int _, h => h
  | .str _, h => h
  | .other _, h => h
/-- The same of items. -/
theorem distinctItems_respelled (f : Str → Str) :
    ∀ xs : List Value, Value.DistinctItems xs → Value.DistinctItems (respelledItems f xs)
  | [], h => h
  | x :: xs, h => ⟨distinct_respelled f x h.1, distinctItems_respelled f xs h.2⟩
/-- The same of members. -/
theorem distinctMembers_respelled (f : Str → Str) : ∀ kvs : List (Key × Value),
    Value.DistinctMembers kvs → Value.DistinctMembers (respelledMembers f kvs)
  | [], h => h
  | (_, v) :: rest, h => ⟨distinct_respelled f v h.1, distinctMembers_respelled f rest h.2⟩
end

mutual
/-- A value is respelled once. -/
theorem respelled_respelled (hf : ∀ l, FloatText l → f (f l) = f l) :
    ∀ v : Value, Legible v → respelled f (respelled f v) = respelled f v
  | .float l, h => congrArg Value.float (hf l h)
  | .list xs, h => congrArg Value.list (respelledItems_respelled hf xs h)
  | .tuple xs, h => congrArg Value.tuple (respelledItems_respelled hf xs h)
  | .dict kvs, h => congrArg Value.dict (respelledMembers_respelled hf kvs h)
  | .null, _ => rfl
  | .bool _, _ => rfl
  | .int _, _ => rfl
  | .str _, _ => rfl
  | .other _, _ => rfl
/-- The same of items. -/
theorem respelledItems_respelled (hf : ∀ l, FloatText l → f (f l) = f l) :
    ∀ xs : List Value, LegibleItems xs →
      respelledItems f (respelledItems f xs) = respelledItems f xs
  | [], _ => rfl
  | x :: xs, h => by
      rw [respelledItems, respelledItems, respelled_respelled hf x h.1,
        respelledItems_respelled hf xs h.2]
/-- The same of members. -/
theorem respelledMembers_respelled (hf : ∀ l, FloatText l → f (f l) = f l) :
    ∀ kvs : List (Key × Value), LegibleMembers kvs →
      respelledMembers f (respelledMembers f kvs) = respelledMembers f kvs
  | [], _ => rfl
  | (k, v) :: rest, h => by
      rw [respelledMembers, respelledMembers, respelled_respelled hf v h.1,
        respelledMembers_respelled hf rest h.2]
end

end IcsDeception.Json
