import IcsDeception.Lib.Json.RoundTrip

/-!
# JSON values up to their meaning

`Same` is equality of JSON values: dictionaries are finite maps, and tuples are
lists. Values with one normal form are the same. The module also holds the rule
for properties of everything a reader returns, and its first use: a reader never
returns a dictionary with a repeated key.
-/

namespace IcsDeception.Json

open Text Decimal

mutual
/-- Equality as JSON values. -/
def Same : Value → Value → Prop
  | .null, w => w = .null
  | .bool b, w => w = .bool b
  | .int i, w => w = .int i
  | .float l, w => w = .float l
  | .str s, w => w = .str s
  | .list xs, w => ∃ ys, (w = .list ys ∨ w = .tuple ys) ∧ SameItems xs ys
  | .tuple xs, w => ∃ ys, (w = .list ys ∨ w = .tuple ys) ∧ SameItems xs ys
  | .dict kvs, w => ∃ kws, w = .dict kws ∧ SameMembers kvs kws ∧
      ∀ k ∈ kws.map Prod.fst, k ∈ kvs.map Prod.fst
  | .other t, w => w = .other t
/-- Items equal one by one. -/
def SameItems : List Value → List Value → Prop
  | [], ys => ys = []
  | x :: xs, ys => ∃ z zs, ys = z :: zs ∧ Same x z ∧ SameItems xs zs
/-- Every member has a member with its key and an equal value on the other side. -/
def SameMembers : List (Key × Value) → List (Key × Value) → Prop
  | [], _ => True
  | (k, v) :: rest, kws => (∃ w, kws.lookup k = some w ∧ Same v w) ∧ SameMembers rest kws
end

theorem mem_of_lookup {κ α : Type} [DecidableEq κ] {ms : List (κ × α)} {k : κ} {a : α}
    (h : ms.lookup k = some a) : (k, a) ∈ ms := by
  induction ms with
  | nil => simp at h
  | cons p rest ih =>
      obtain ⟨k', a'⟩ := p
      rw [List.lookup_cons] at h
      cases hk : k == k' with
      | true =>
          simp only [hk, Option.some.injEq] at h
          rw [eq_of_beq hk, h]
          exact List.mem_cons_self
      | false =>
          simp only [hk] at h
          exact List.mem_cons_of_mem _ (ih h)

theorem lookup_of_mem {κ α : Type} [DecidableEq κ] {ms : List (κ × α)} {k : κ} {a : α}
    (hn : (ms.map Prod.fst).Nodup) (h : (k, a) ∈ ms) : ms.lookup k = some a := by
  induction ms with
  | nil => simp at h
  | cons p rest ih =>
      obtain ⟨k', a'⟩ := p
      simp only [List.map_cons, List.nodup_cons] at hn
      rcases List.mem_cons.mp h with heq | hrest
      · obtain ⟨rfl, rfl⟩ := Prod.mk.inj heq
        simp
      · have hne : k ≠ k' := fun hk => hn.1 (hk ▸ List.mem_map_of_mem hrest)
        rw [List.lookup_cons, beq_false_of_ne hne]
        exact ih hn.2 hrest

/-- A style without escapes reads texts back unchanged. -/
theorem Style.readBack_raw {st : Style} (h : st.ascii = false) (s : Str) : st.readBack s = s := by
  simp [Style.readBack, h]

theorem mem_normMembers {st : Style} (hst : st.ascii = false) {kvs : List (Key × Value)}
    {k : Str} {v : Value} :
    (k, v) ∈ normMembers st kvs ↔ ∃ w, (Key.str k, w) ∈ kvs ∧ v = norm st w := by
  induction kvs with
  | nil => simp [normMembers]
  | cons p rest ih =>
      obtain ⟨k', w'⟩ := p
      cases k' with
      | str s =>
          rw [normMembers, List.mem_cons, ih, Style.readBack_raw hst]
          constructor
          · rintro (h | ⟨w, hw, rfl⟩)
            · obtain ⟨rfl, rfl⟩ := Prod.mk.inj h
              exact ⟨w', by simp, rfl⟩
            · exact ⟨w, List.mem_cons_of_mem _ hw, rfl⟩
          · rintro ⟨w, hw, rfl⟩
            rcases List.mem_cons.mp hw with hw | hw
            · obtain ⟨hk, rfl⟩ := Prod.mk.inj hw
              cases hk
              exact Or.inl rfl
            · exact Or.inr ⟨w, hw, rfl⟩
      | other s =>
          rw [normMembers, ih]
          simp

theorem ofMembers_injective {a b : List (Str × Value)}
    (h : Value.ofMembers a = Value.ofMembers b) : a = b := by
  simp only [Value.ofMembers, Value.dict.injEq] at h
  refine List.map_injective_iff.mpr ?_ h
  rintro ⟨k, v⟩ ⟨k', v'⟩ heq
  simp only [Prod.mk.injEq, Key.str.injEq] at heq
  rw [heq.1, heq.2]

/-- Dictionaries with one normal form have the same members up to normal form. -/
theorem normMembers_perm {st : Style} {kvs kws : List (Key × Value)}
    (h : norm st (.dict kvs) = norm st (.dict kws)) :
    (normMembers st kvs).Perm (normMembers st kws) := by
  rw [norm, norm] at h
  have h := ofMembers_injective h
  exact (st.order_perm _).symm.trans (h ▸ st.order_perm _)

theorem writableMembers_key {st : Style} {kvs : List (Key × Value)} (h : WritableMembers st kvs)
    {k : Key} (hk : k ∈ kvs.map Prod.fst) : ∃ s, k = .str s := by
  induction kvs with
  | nil => simp at hk
  | cons p rest ih =>
      obtain ⟨k', w⟩ := p
      cases k' with
      | other s => simp [WritableMembers] at h
      | str s =>
          rw [WritableMembers] at h
          rcases List.mem_cons.mp hk with rfl | hk
          · exact ⟨s, rfl⟩
          · exact ih h.2.2 hk

theorem writable_of_mem {st : Style} {kvs : List (Key × Value)} (h : WritableMembers st kvs)
    {k : Key} {v : Value} (hm : (k, v) ∈ kvs) : Writable st v := by
  induction kvs with
  | nil => simp at hm
  | cons p rest ih =>
      obtain ⟨k', w⟩ := p
      cases k' with
      | other s => simp [WritableMembers] at h
      | str s =>
          rw [WritableMembers] at h
          rcases List.mem_cons.mp hm with hm | hm
          · cases hm
            exact h.2.1
          · exact ih h.2.2 hm

mutual
/-- Writable values with one normal form are the same JSON value. -/
theorem same_of_norm_eq {st : Style} (hst : st.ascii = false) :
    ∀ v w : Value, Writable st v → Writable st w → norm st v = norm st w → Same v w
  | .null, w, _, hw, h => by cases w <;> simp_all [norm, Same, Writable, Value.ofMembers]
  | .bool b, w, _, hw, h => by cases w <;> simp_all [norm, Same, Writable, Value.ofMembers]
  | .int i, w, _, hw, h => by cases w <;> simp_all [norm, Same, Writable, Value.ofMembers]
  | .float l, _, hv, _, _ => by simp [Writable] at hv
  | .other t, _, hv, _, _ => by simp [Writable] at hv
  | .str s, w, _, hw, h => by
      cases w <;> simp_all [norm, Same, Writable, Value.ofMembers, Style.readBack]
  | .list xs, w, hv, hw, h => by
      rw [Writable] at hv
      rw [Same]
      cases w <;> simp [norm, Value.ofMembers] at h
      case list ys => exact ⟨ys, Or.inl rfl, sameItems_of_norm_eq hst xs ys hv hw h⟩
      case tuple ys => exact ⟨ys, Or.inr rfl, sameItems_of_norm_eq hst xs ys hv hw h⟩
  | .tuple xs, w, hv, hw, h => by
      rw [Writable] at hv
      rw [Same]
      cases w <;> simp [norm, Value.ofMembers] at h
      case list ys => exact ⟨ys, Or.inl rfl, sameItems_of_norm_eq hst xs ys hv hw h⟩
      case tuple ys => exact ⟨ys, Or.inr rfl, sameItems_of_norm_eq hst xs ys hv hw h⟩
  | .dict kvs, w, hv, hw, h => by
      rw [Writable] at hv
      rw [Same]
      cases w with
      | dict kws =>
          rw [Writable] at hw
          have hperm := normMembers_perm h
          refine ⟨kws, rfl, sameMembers_of_norm_mem hst kvs kws hv.2 hw.2 hw.1 ?_, ?_⟩
          · intro p hp
            exact hperm.subset hp
          · intro k hk
            obtain ⟨s, rfl⟩ := writableMembers_key hw.2 hk
            obtain ⟨⟨-, u⟩, hmem, rfl⟩ := List.mem_map.mp hk
            have hnorm : (s, norm st u) ∈ normMembers st kvs :=
              hperm.symm.subset ((mem_normMembers hst).mpr ⟨u, hmem, rfl⟩)
            obtain ⟨x, hx, -⟩ := (mem_normMembers hst).mp hnorm
            exact List.mem_map_of_mem hx
      | _ => simp [norm, Value.ofMembers] at h
/-- Lists with one normal form are the same item by item. -/
theorem sameItems_of_norm_eq {st : Style} (hst : st.ascii = false) :
    ∀ xs ys : List Value, WritableItems st xs → WritableItems st ys →
      normItems st xs = normItems st ys → SameItems xs ys
  | [], ys, _, _, h => by cases ys <;> simp_all [normItems, SameItems]
  | x :: xs, ys, hx, hy, h => by
      cases ys with
      | nil => simp [normItems] at h
      | cons y ys =>
          rw [WritableItems] at hx hy
          simp only [normItems, List.cons.injEq] at h
          rw [SameItems]
          exact ⟨y, ys, rfl, same_of_norm_eq hst x y hx.1 hy.1 h.1,
            sameItems_of_norm_eq hst xs ys hx.2 hy.2 h.2⟩
/-- Members whose normal forms all occur on the other side are the same as members there. -/
theorem sameMembers_of_norm_mem {st : Style} (hst : st.ascii = false) :
    ∀ kvs kws : List (Key × Value), WritableMembers st kvs → WritableMembers st kws →
      (kws.map Prod.fst).Nodup → (∀ p ∈ normMembers st kvs, p ∈ normMembers st kws) →
      SameMembers kvs kws
  | [], _, _, _, _, _ => by simp [SameMembers]
  | (.other s, v) :: rest, _, h, _, _, _ => by simp [WritableMembers] at h
  | (.str s, v) :: rest, kws, hv, hw, hn, hsub => by
      rw [WritableMembers] at hv
      rw [SameMembers]
      have hmem : (s, norm st v) ∈ normMembers st kws :=
        hsub _ ((mem_normMembers hst).mpr ⟨v, by simp, rfl⟩)
      obtain ⟨w, hkw, hnorm⟩ := (mem_normMembers hst).mp hmem
      refine ⟨⟨w, lookup_of_mem hn hkw, same_of_norm_eq hst v w hv.2.1 ?_ hnorm⟩, ?_⟩
      · exact writable_of_mem hw hkw
      · refine sameMembers_of_norm_mem hst rest kws hv.2.2 hw hn fun p hp => hsub p ?_
        rw [normMembers]
        exact List.mem_cons_of_mem _ hp
end

/-! ## Everything a reader returns -/

/-- A property that scalars have, that lists inherit, and that the hooks keep. -/
structure Hooks.Keeps (h : Hooks) (P : Value → Prop) : Prop where
  null : P .null
  bool : ∀ b, P (.bool b)
  int : ∀ i : Int, (natText i.natAbs).length ≤ maxDigits → P (.int i)
  float : ∀ l, P (.float l)
  str : ∀ s, P (.str s)
  list : ∀ xs : List Value, (∀ x ∈ xs, P x) → P (.list xs)
  constant : ∀ name v, h.constant name = .ok v → P v
  objectPairs : ∀ (pairs : List (Str × Value)) v, (∀ p ∈ pairs, P p.2) →
    h.objectPairs pairs = .ok v → P v

/-- The names that the reader hands to the hook for constants. -/
def constantNames : List Str := [lit "NaN", lit "Infinity", lit "-Infinity"]

/-- The same, asked only of the floats and the constants that a text can hold. -/
structure Hooks.KeepsRead (h : Hooks) (P : Value → Prop) : Prop where
  null : P .null
  bool : ∀ b, P (.bool b)
  int : ∀ i : Int, (natText i.natAbs).length ≤ maxDigits → P (.int i)
  float : ∀ s l rest, Json.scanNumber s = .ok (.float l, rest) → P (.float l)
  str : ∀ s, P (.str s)
  list : ∀ xs : List Value, (∀ x ∈ xs, P x) → P (.list xs)
  constant : ∀ name ∈ constantNames, ∀ v, h.constant name = .ok v → P v
  objectPairs : ∀ (pairs : List (Str × Value)) v, (∀ p ∈ pairs, P p.2) →
    h.objectPairs pairs = .ok v → P v

theorem Hooks.Keeps.keepsRead {h : Hooks} {P : Value → Prop} (hk : h.Keeps P) : h.KeepsRead P :=
  ⟨hk.null, hk.bool, hk.int, fun _ l _ _ => hk.float l, hk.str, hk.list,
    fun name _ => hk.constant name, hk.objectPairs⟩

theorem map_pair_value {ε α β : Type} {r : Except ε α} {b b' : β} {a : α}
    (h : r.map (·, b) = .ok (a, b')) : r = .ok a := by
  cases r with
  | error e => simp [Except.map] at h
  | ok x =>
      simp only [Except.map, Except.ok.injEq, Prod.mk.injEq] at h
      rw [h.1]

theorem scanIntPart_digits {s ds rest : Str} (h : scanIntPart s = some (ds, rest)) :
    ds ≠ [] ∧ ∀ c ∈ ds, isDigit c = true := by
  cases s with
  | nil => simp [scanIntPart] at h
  | cons c cs =>
      rw [scanIntPart] at h
      split_ifs at h with h₀ hd
      · simp only [Option.some.injEq, Prod.mk.injEq] at h
        rw [← h.1, h₀]
        exact ⟨by simp, List.forall_mem_singleton.mpr (by decide)⟩
      · simp only [Option.some.injEq, Prod.mk.injEq] at h
        rw [← h.1]
        refine ⟨by simp, fun x hx => ?_⟩
        rcases List.mem_cons.mp hx with rfl | hx
        · exact hd
        · exact List.mem_takeWhile_imp hx

/-- An integer that was read has no more digits than were read. -/
theorem natText_digitsValue_length {s ds rest : Str} (h : scanIntPart s = some (ds, rest)) :
    (natText (digitsValue ds)).length ≤ ds.length := by
  obtain ⟨hne, hd⟩ := scanIntPart_digits h
  exact natText_length_le (List.length_pos_iff.mpr hne) (digitsValue_lt hd)

theorem Hooks.KeepsRead.scanNumber {h : Hooks} {P : Value → Prop} (hk : h.KeepsRead P) {s rest : Str}
    {v : Value} (hs : Json.scanNumber s = .ok (v, rest)) : P v := by
  have hfloat : ∀ l, v = .float l → P v := by
    rintro l rfl
    exact hk.float s l rest hs
  unfold Json.scanNumber at hs
  cases hi : scanIntPart (if s.head? = some (cp '-') then s.tail else s) with
  | none => simp [hi] at hs
  | some p =>
      have hlen := natText_digitsValue_length hi
      simp only [hi] at hs
      split_ifs at hs with h₁ h₂ h₃ h₄ <;>
        simp only [Except.ok.injEq, Prod.mk.injEq] at hs
      · rw [← hs.1]
        refine hk.int _ ?_
        rw [Int.natAbs_neg, Int.natAbs_natCast]
        omega
      · rw [← hs.1]
        refine hk.int _ ?_
        rw [Int.natAbs_natCast]
        omega
      · exact hfloat _ hs.1.symm
      · exact hfloat _ hs.1.symm

theorem Hooks.KeepsRead.scanScalar {h : Hooks} {P : Value → Prop} (hk : h.KeepsRead P) {s rest : Str}
    {v : Value} (hs : Json.scanScalar h s = .ok (v, rest)) : P v := by
  unfold Json.scanScalar at hs
  split_ifs at hs with h₁ h₂ h₃ h₄ h₅ h₆
  · simp only [Except.ok.injEq, Prod.mk.injEq] at hs
    exact hs.1 ▸ hk.null
  · simp only [Except.ok.injEq, Prod.mk.injEq] at hs
    exact hs.1 ▸ hk.bool true
  · simp only [Except.ok.injEq, Prod.mk.injEq] at hs
    exact hs.1 ▸ hk.bool false
  · exact hk.constant _ (by simp [constantNames]) _ (map_pair_value hs)
  · exact hk.constant _ (by simp [constantNames]) _ (map_pair_value hs)
  · exact hk.constant _ (by simp [constantNames]) _ (map_pair_value hs)
  · exact hk.scanNumber hs

theorem opened_forall {α : Type} {Q : α → Prop} {s rest : Str} {close : CodePoint} {xs : List α}
    {r : Except LoadsError (List α × Str)} (hr : ∀ ys t, r = .ok (ys, t) → ∀ y ∈ ys, Q y)
    (h : opened close s r = .ok (xs, rest)) : ∀ x ∈ xs, Q x := by
  unfold opened at h
  split_ifs at h with hc
  · simp only [Except.ok.injEq, Prod.mk.injEq] at h
    rw [← h.1]
    simp
  · exact hr _ _ h

/-- A kept property holds of everything the scanner returns. -/
theorem Hooks.KeepsRead.scan {h : Hooks} {P : Value → Prop} (hk : h.KeepsRead P) (fuel : Nat) :
    (∀ depth s v rest, scanOnce h fuel depth s = .ok (v, rest) → P v) ∧
    (∀ depth s ms rest, scanMembers h fuel depth s = .ok (ms, rest) → ∀ p ∈ ms, P p.2) ∧
    (∀ depth s vs rest, scanItems h fuel depth s = .ok (vs, rest) → ∀ v ∈ vs, P v) := by
  induction fuel with
  | zero => simp [scanOnce, scanMembers, scanItems]
  | succ fuel ih =>
      obtain ⟨ihv, ihm, ihi⟩ := ih
      refine ⟨?_, ?_, ?_⟩
      · intro depth s v rest hs
        cases s with
        | nil => simp [scanOnce] at hs
        | cons c cs =>
            rw [scanOnce] at hs
            split_ifs at hs with h₁ h₂ h₃ h₄ h₅
            · obtain ⟨⟨t, r⟩, -, hr⟩ := bind_eq_ok.mp hs
              simp only [pure, Except.pure, Except.ok.injEq, Prod.mk.injEq] at hr
              exact hr.1 ▸ hk.str t
            · obtain ⟨⟨ps, r⟩, ht, hr⟩ := bind_eq_ok.mp hs
              obtain ⟨w, hw, hv⟩ := bind_eq_ok.mp hr
              simp only [pure, Except.pure, Except.ok.injEq, Prod.mk.injEq] at hv
              exact hv.1 ▸ hk.objectPairs ps w (opened_forall (ihm _ _) ht) hw
            · obtain ⟨⟨xs, r⟩, ht, hr⟩ := bind_eq_ok.mp hs
              simp only [pure, Except.pure, Except.ok.injEq, Prod.mk.injEq] at hr
              exact hr.1 ▸ hk.list xs (opened_forall (ihi _ _) ht)
            · exact hk.scanScalar hs
      · intro depth s ms rest hs
        cases s with
        | nil => simp [scanMembers] at hs
        | cons c cs =>
            rw [scanMembers] at hs
            split_ifs at hs with h₁
            obtain ⟨⟨key, r⟩, -, hs⟩ := bind_eq_ok.mp hs
            simp only at hs
            split_ifs at hs with h₂
            obtain ⟨⟨v, r'⟩, hv, hs⟩ := bind_eq_ok.mp hs
            have hPv := ihv _ _ _ _ hv
            simp only at hs
            split_ifs at hs with h₃ h₄
            · simp only [pure, Except.pure, Except.ok.injEq, Prod.mk.injEq] at hs
              rw [← hs.1]
              simpa using hPv
            · obtain ⟨⟨ms', r''⟩, hm, hs⟩ := bind_eq_ok.mp hs
              simp only [pure, Except.pure, Except.ok.injEq, Prod.mk.injEq] at hs
              rw [← hs.1]
              intro p hp
              rcases List.mem_cons.mp hp with rfl | hp
              · exact hPv
              · exact ihm _ _ _ _ hm p hp
      · intro depth s vs rest hs
        rw [scanItems] at hs
        obtain ⟨⟨v, r'⟩, hv, hs⟩ := bind_eq_ok.mp hs
        have hPv := ihv _ _ _ _ hv
        simp only at hs
        split_ifs at hs with h₃ h₄
        · simp only [pure, Except.pure, Except.ok.injEq, Prod.mk.injEq] at hs
          rw [← hs.1]
          simpa using hPv
        · obtain ⟨⟨vs', r''⟩, hm, hs⟩ := bind_eq_ok.mp hs
          simp only [pure, Except.pure, Except.ok.injEq, Prod.mk.injEq] at hs
          rw [← hs.1]
          intro x hx
          rcases List.mem_cons.mp hx with rfl | hx
          · exact hPv
          · exact ihi _ _ _ _ hm x hx

/-- A kept property holds of what `json.loads` returns. -/
theorem Hooks.KeepsRead.loadsWith {h : Hooks} {P : Value → Prop} (hk : h.KeepsRead P) {limit : Nat}
    {s : Str} {v : Value} (hl : Json.loadsWith h limit s = .ok v) : P v := by
  unfold Json.loadsWith at hl
  split_ifs at hl
  obtain ⟨⟨w, rest⟩, hs, hr⟩ := bind_eq_ok.mp hl
  simp only at hr
  split_ifs at hr
  simp only [pure, Except.pure, Except.ok.injEq] at hr
  exact hr ▸ (hk.scan _).1 _ _ _ _ hs

theorem Hooks.Keeps.loadsWith {h : Hooks} {P : Value → Prop} (hk : h.Keeps P) {limit : Nat}
    {s : Str} {v : Value} (hl : Json.loadsWith h limit s = .ok v) : P v :=
  hk.keepsRead.loadsWith hl

theorem Value.distinct_ofMembers {ms : List (Str × Value)} (hn : (ms.map Prod.fst).Nodup)
    (hd : ∀ p ∈ ms, Value.Distinct p.2) : (Value.ofMembers ms).Distinct := by
  rw [Value.ofMembers, Value.Distinct, Value.distinctMembers_iff]
  refine ⟨?_, ?_⟩
  · rw [List.map_map]
    have hcomp : (Prod.fst ∘ fun p : Str × Value => (Key.str p.1, p.2)) = Key.str ∘ Prod.fst := rfl
    rw [hcomp, ← List.map_map]
    exact hn.map fun a b h => Key.str.inj h
  · intro q hq
    obtain ⟨p, hp, rfl⟩ := List.mem_map.mp hq
    exact hd p hp

/-- An integer that the writer accepts; any value that is no integer. -/
def ShortInt (v : Value) : Prop :=
  ∀ i, v = .int i → (natText i.natAbs).length ≤ maxDigits

theorem mem_setMember {ms : List (Str × Value)} {key : Str} {v : Value} {p : Str × Value}
    (h : p ∈ setMember ms key v) : p.2 = v ∨ ∃ q ∈ ms, q.2 = p.2 := by
  induction ms with
  | nil =>
      simp only [setMember, List.mem_singleton] at h
      exact Or.inl (by rw [h])
  | cons q rest ih =>
      rw [setMember] at h
      split_ifs at h
      · rcases List.mem_cons.mp h with rfl | h
        · exact Or.inl rfl
        · exact Or.inr ⟨p, by simp [h], rfl⟩
      · rcases List.mem_cons.mp h with rfl | h
        · exact Or.inr ⟨_, List.mem_cons_self, rfl⟩
        · rcases ih h with h | ⟨q', hq', h⟩
          · exact Or.inl h
          · exact Or.inr ⟨q', by simp [hq'], h⟩

/-- Every value of a dictionary comes from one of its pairs. -/
theorem mem_dictOfPairs {pairs : List (Str × Value)} {p : Str × Value}
    (h : p ∈ dictOfPairs pairs) : ∃ q ∈ pairs, q.2 = p.2 := by
  have general : ∀ (pairs acc : List (Str × Value)),
      p ∈ pairs.foldl (fun ms p => setMember ms p.1 p.2) acc → ∃ q ∈ acc ++ pairs, q.2 = p.2 := by
    intro pairs
    induction pairs with
    | nil =>
        intro acc h
        exact ⟨p, by simpa using h, rfl⟩
    | cons x rest ih =>
        intro acc h
        obtain ⟨q, hq, he⟩ := ih _ h
        rcases List.mem_append.mp hq with hq | hq
        · rcases mem_setMember hq with hx | ⟨q', hq', hx⟩
          · exact ⟨x, by simp, by rw [← he, hx]⟩
          · exact ⟨q', by simp [hq'], by rw [hx, he]⟩
        · exact ⟨q, by simp [hq], he⟩
  simpa using general pairs [] h

/-- The integers that a reader returns are short, at the top and one level below. -/
theorem Hooks.keeps_shortInt : Hooks.default.Keeps fun v =>
    ShortInt v ∧ ∀ kvs, v = .dict kvs → ∀ p ∈ kvs, ShortInt p.2 where
  null := ⟨nofun, nofun⟩
  bool _ := ⟨nofun, nofun⟩
  int _ hi := ⟨fun _ h => Value.int.inj h ▸ hi, nofun⟩
  float _ := ⟨nofun, nofun⟩
  str _ := ⟨nofun, nofun⟩
  list _ _ := ⟨nofun, nofun⟩
  constant _ _ h := by
    cases h
    exact ⟨nofun, nofun⟩
  objectPairs pairs v hp h := by
    cases h
    refine ⟨nofun, fun kvs h p hm => ?_⟩
    cases h
    obtain ⟨q, hq, rfl⟩ := List.mem_map.mp hm
    obtain ⟨x, hx, he⟩ := mem_dictOfPairs hq
    exact he ▸ (hp x hx).1

end IcsDeception.Json
