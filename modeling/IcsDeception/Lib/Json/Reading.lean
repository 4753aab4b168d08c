import IcsDeception.Lib.Json.Equality

/-!
# Readers with different hooks

A reader whose hooks refuse more still returns what the other reader returns, when it
returns at all. The plain reader keeps the last of repeated keys, so that its
dictionaries have none.
-/

namespace IcsDeception.Json

open Text

/-! ## Repeated keys -/

theorem setMember_keys (ms : List (Str × Value)) (key : Str) (v : Value) :
    (setMember ms key v).map Prod.fst =
      if key ∈ ms.map Prod.fst then ms.map Prod.fst else ms.map Prod.fst ++ [key] := by
  induction ms with
  | nil => simp [setMember]
  | cons p rest ih =>
      obtain ⟨k, w⟩ := p
      rw [setMember]
      by_cases hk : k = key
      · simp [hk]
      · rw [if_neg hk, List.map_cons, ih]
        have hne : key ≠ k := fun h => hk h.symm
        simp only [List.map_cons, List.mem_cons, hne, false_or]
        split_ifs <;> simp

/-- The members of a dictionary have distinct keys. -/
theorem nodup_dictOfPairs (pairs : List (Str × Value)) :
    ((dictOfPairs pairs).map Prod.fst).Nodup := by
  have general : ∀ pairs acc : List (Str × Value), (acc.map Prod.fst).Nodup →
      ((pairs.foldl (fun ms p => setMember ms p.1 p.2) acc).map Prod.fst).Nodup := by
    intro pairs
    induction pairs with
    | nil => exact fun _ h => h
    | cons p rest ih =>
        intro acc hacc
        apply ih
        rw [setMember_keys]
        split_ifs with hk
        · exact hacc
        · exact hacc.append (by simp) (by simpa using hk)
  exact general pairs [] (by simp)

/-- What the plain reader returns has no repeated keys. -/
theorem Hooks.keeps_distinct : Hooks.default.Keeps Value.Distinct where
  null := trivial
  bool _ := trivial
  int _ _ := trivial
  float _ := trivial
  str _ := trivial
  list _ h := Value.distinctItems_iff.mpr h
  constant _ _ h := by
    cases h
    trivial
  objectPairs pairs v hp h := by
    cases h
    refine Value.distinct_ofMembers (nodup_dictOfPairs pairs) fun p hm => ?_
    obtain ⟨q, hq, he⟩ := mem_dictOfPairs hm
    exact he ▸ hp q hq

/-! ## Hooks that refuse more -/

/-- Hooks that return what the other hooks return, when they return. -/
structure Hooks.Refines (h h' : Hooks) : Prop where
  constant : ∀ name v, h.constant name = .ok v → h'.constant name = .ok v
  objectPairs : ∀ pairs v, h.objectPairs pairs = .ok v → h'.objectPairs pairs = .ok v

theorem Hooks.Refines.scanScalar {h h' : Hooks} (hr : h.Refines h') {s : Str} {r : Value × Str}
    (hs : Json.scanScalar h s = .ok r) : Json.scanScalar h' s = .ok r := by
  have constant : ∀ (name : Str) (n : Nat), (h.constant name).map (·, s.drop n) = .ok r →
      (h'.constant name).map (·, s.drop n) = .ok r := by
    intro name n hc
    obtain ⟨v, rest⟩ := r
    have hv := map_pair_value hc
    rw [hv] at hc
    rw [hr.constant name v hv]
    exact hc
  unfold Json.scanScalar at hs ⊢
  split_ifs at hs ⊢
  · exact hs
  · exact hs
  · exact hs
  · exact constant _ _ hs
  · exact constant _ _ hs
  · exact constant _ _ hs
  · exact hs

theorem opened_of_opened {α : Type} {close : CodePoint} {s : Str} {x : List α × Str}
    {r r' : Except LoadsError (List α × Str)} (hr : ∀ y, r = .ok y → r' = .ok y)
    (h : opened close s r = .ok x) : opened close s r' = .ok x := by
  unfold opened at h ⊢
  split_ifs at h ⊢
  · exact h
  · exact hr x h

/-- The scanners agree wherever the stricter one returns. -/
theorem Hooks.Refines.scan {h h' : Hooks} (hr : h.Refines h') (fuel : Nat) :
    (∀ depth s r, scanOnce h fuel depth s = .ok r → scanOnce h' fuel depth s = .ok r) ∧
    (∀ depth s r, scanMembers h fuel depth s = .ok r → scanMembers h' fuel depth s = .ok r) ∧
    (∀ depth s r, scanItems h fuel depth s = .ok r → scanItems h' fuel depth s = .ok r) := by
  induction fuel with
  | zero => simp [scanOnce, scanMembers, scanItems]
  | succ fuel ih =>
      obtain ⟨ihv, ihm, ihi⟩ := ih
      refine ⟨?_, ?_, ?_⟩
      · intro depth s r hs
        cases s with
        | nil => simp [scanOnce] at hs
        | cons c cs =>
            rw [scanOnce] at hs ⊢
            split_ifs at hs ⊢
            · exact hs
            · obtain ⟨⟨ps, rest⟩, ht, hs⟩ := bind_eq_ok.mp hs
              obtain ⟨v, hv, hs⟩ := bind_eq_ok.mp hs
              refine bind_eq_ok.mpr ⟨(ps, rest), opened_of_opened (ihm _ _) ht, ?_⟩
              exact bind_eq_ok.mpr ⟨v, hr.objectPairs ps v hv, hs⟩
            · obtain ⟨⟨xs, rest⟩, ht, hs⟩ := bind_eq_ok.mp hs
              exact bind_eq_ok.mpr ⟨(xs, rest), opened_of_opened (ihi _ _) ht, hs⟩
            · exact hr.scanScalar hs
      · intro depth s r hs
        cases s with
        | nil => simp [scanMembers] at hs
        | cons c cs =>
            rw [scanMembers] at hs ⊢
            split_ifs at hs ⊢
            obtain ⟨⟨key, rest⟩, hkey, hs⟩ := bind_eq_ok.mp hs
            refine bind_eq_ok.mpr ⟨(key, rest), hkey, ?_⟩
            dsimp only at hs ⊢
            split_ifs at hs ⊢
            obtain ⟨⟨v, rest'⟩, hv, hs⟩ := bind_eq_ok.mp hs
            refine bind_eq_ok.mpr ⟨(v, rest'), ihv _ _ _ hv, ?_⟩
            dsimp only at hs ⊢
            split_ifs at hs ⊢
            · exact hs
            · obtain ⟨p, hp, hs⟩ := bind_eq_ok.mp hs
              exact bind_eq_ok.mpr ⟨p, ihm _ _ _ hp, hs⟩
      · intro depth s r hs
        rw [scanItems] at hs ⊢
        obtain ⟨⟨v, rest⟩, hv, hs⟩ := bind_eq_ok.mp hs
        refine bind_eq_ok.mpr ⟨(v, rest), ihv _ _ _ hv, ?_⟩
        dsimp only at hs ⊢
        split_ifs at hs ⊢
        · exact hs
        · obtain ⟨p, hp, hs⟩ := bind_eq_ok.mp hs
          exact bind_eq_ok.mpr ⟨p, ihi _ _ _ hp, hs⟩

/-- What the stricter reader returns, the other returns too. -/
theorem Hooks.Refines.loadsWith {h h' : Hooks} (hr : h.Refines h') {limit : Nat} {s : Str}
    {v : Value} (hl : Json.loadsWith h limit s = .ok v) : Json.loadsWith h' limit s = .ok v := by
  unfold Json.loadsWith at hl ⊢
  split_ifs at hl ⊢
  obtain ⟨p, hp, hl⟩ := bind_eq_ok.mp hl
  exact bind_eq_ok.mpr ⟨p, (hr.scan _).1 _ _ _ hp, hl⟩

end IcsDeception.Json
