import IcsDeception.Lib.Json.Respelled
import IcsDeception.Lib.Json.Reading
import IcsDeception.Lib.Json.Size
import Mathlib.Algebra.Order.BigOperators.Group.List

/-!
# What a written value is read as, and when it is the same

`reread` is the value that is read from the text of any value that was written, floats
included. It is the same JSON value exactly if no text in it holds a pair of surrogates,
neither as a value nor as a key.

## Implementation notes

Keys that are read alike collide, and the last of them stays. That no key changes follows
from the lengths: joining a pair makes a text shorter, and keys that are read as each other
would have to have the same length altogether.
-/

namespace IcsDeception.Json

open Text Decimal

mutual
/-- The value read back from the text of a value. -/
def reread (st : Style) : Value → Value
  | .str s => .str (st.readBack s)
  | .list xs => .list (rereadItems st xs)
  | .tuple xs => .list (rereadItems st xs)
  | .dict kvs =>
      Value.ofMembers
        (dictOfPairs ((st.order (rereadMembers st kvs)).map fun p => (st.readBack p.1, p.2)))
  | v => v
/-- The items read back. -/
def rereadItems (st : Style) : List Value → List Value
  | [] => []
  | v :: vs => reread st v :: rereadItems st vs
/-- The values of the members read back, under the keys that were written. -/
def rereadMembers (st : Style) : List (Key × Value) → List (Str × Value)
  | [] => []
  | (.str k, v) :: rest => (k, reread st v) :: rereadMembers st rest
  | (.other _, _) :: rest => rereadMembers st rest
end

mutual
/-- A legible value that was written is read as its value read back. -/
theorem readsAs_reread {st : Style} (hst : st.Printed) : ∀ (level : Nat) (v : Value) (t : Str),
    Legible v → dump st level v = .ok t → ReadsAs st level v (reread st v)
  | _, .null, _, _, _ => ⟨_, rfl, reads_null _, fun c hc => .inl (printable_of_all (by decide) c hc)⟩
  | _, .bool b, _, _, _ =>
      ⟨_, rfl, reads_bool _ b, fun c hc => .inl (printable_of_all (by cases b <;> decide) c hc)⟩
  | _, .int i, t, _, h => by
      rw [dump, dumpInt] at h
      split_ifs at h with hd
      refine ⟨intText i, ?_, reads_int _ i (Nat.not_lt.mp hd), ?_⟩
      · rw [dump, dumpInt, if_neg hd]
      · exact fun c hc => .inl (printable_of_mem_intText hc)
  | _, .float l, _, hl, _ => by
      rw [Legible] at hl
      exact ⟨l, rfl, hl.reads, fun c hc => .inl (hl.printable c hc)⟩
  | _, .other _, _, _, h => by cases h
  | level, .str s, _, _, _ => readsAs_str hst level s
  | level, .list xs, t, hl, h => by
      rw [Legible] at hl
      rw [dump] at h
      obtain ⟨ts, hts, -⟩ := bind_eq_ok.mp h
      obtain ⟨hr, hp⟩ := readsAs_items hst hts (readsAs_rereadItems hst (level + 1) xs ts hl hts)
      exact ⟨_, by rw [dump, hts]; rfl, hr, hp⟩
  | level, .tuple xs, t, hl, h => by
      rw [Legible] at hl
      rw [dump] at h
      obtain ⟨ts, hts, -⟩ := bind_eq_ok.mp h
      obtain ⟨hr, hp⟩ := readsAs_items hst hts (readsAs_rereadItems hst (level + 1) xs ts hl hts)
      exact ⟨_, by rw [dump, hts]; rfl, hr, hp⟩
  | level, .dict kvs, t, hl, h => by
      rw [Legible] at hl
      rw [dump] at h
      obtain ⟨ts, hts, -⟩ := bind_eq_ok.mp h
      obtain ⟨ps, rfl, hback, hps⟩ := readsAs_rereadMembers hst (level + 1) kvs ts hl hts
      obtain ⟨hr, hp⟩ := @readsAs_members _ hst level kvs ps hps
      have hpairs : (st.order (rereadMembers st kvs)).map (fun p => (st.readBack p.1, p.2)) =
          (st.order ps).map fun q => (st.readBack q.1, q.2.2) := by
        rw [hback, st.order_map Prod.snd, List.map_map]
        rfl
      refine ⟨_, by rw [dump, hts]; rfl, ?_, hp⟩
      rw [reread, hpairs]
      exact hr
/-- Written items are read as the items read back. -/
theorem readsAs_rereadItems {st : Style} (hst : st.Printed) : ∀ (level : Nat) (xs : List Value)
    (ts : List Str), LegibleItems xs → dumpItems st level xs = .ok ts →
      List.Forall₂ (ReadsAs st level) xs (rereadItems st xs)
  | _, [], _, _, _ => .nil
  | level, x :: xs, _, hl, h => by
      rw [LegibleItems] at hl
      rw [dumpItems] at h
      obtain ⟨t, ht, h⟩ := bind_eq_ok.mp h
      obtain ⟨ts, hts, -⟩ := bind_eq_ok.mp h
      exact .cons (readsAs_reread hst level x t hl.1 ht)
        (readsAs_rereadItems hst level xs ts hl.2 hts)
/-- Written members are read one by one. -/
theorem readsAs_rereadMembers {st : Style} (hst : st.Printed) : ∀ (level : Nat)
    (kvs : List (Key × Value)) (ts : List (Str × Str)), LegibleMembers kvs →
      dumpMembers st level kvs = .ok ts → ∃ ps : List (Str × Str × Value),
        ts = ps.map (fun q => (q.1, q.2.1)) ∧
        rereadMembers st kvs = ps.map (fun q => (q.1, q.2.2)) ∧
        ∀ q ∈ ps, Reads Hooks.default (Value.nestMembers kvs) q.2.1 q.2.2 ∧
          ∀ c ∈ q.2.1, PrintableLine c
  | _, [], _, _, h => by
      obtain rfl := Except.ok.inj h
      exact ⟨[], rfl, rfl, by simp⟩
  | _, (.other _, _) :: _, _, _, h => by cases h
  | level, (.str k, v) :: rest, _, hl, h => by
      rw [LegibleMembers] at hl
      rw [dumpMembers] at h
      obtain ⟨t, ht, h⟩ := bind_eq_ok.mp h
      obtain ⟨ts, hts, h⟩ := bind_eq_ok.mp h
      obtain rfl := Except.ok.inj h
      obtain ⟨t', ht', hr, hp⟩ := readsAs_reread hst level v t hl.1 ht
      obtain rfl := Except.ok.inj (ht.symm.trans ht')
      obtain ⟨ps, rfl, hback, hps⟩ := readsAs_rereadMembers hst level rest ts hl.2 hts
      refine ⟨(k, t, reread st v) :: ps, rfl, by rw [rereadMembers, hback]; rfl, ?_⟩
      rw [Value.nestMembers]
      intro q hq
      rcases List.mem_cons.mp hq with rfl | hq
      · exact ⟨hr.mono (le_max_left _ _), hp⟩
      · exact ⟨(hps q hq).1.mono (le_max_right _ _), (hps q hq).2⟩
end

/-! ## Floats respelled -/

theorem setMember_map (g : Value → Value) (ms : List (Str × Value)) (key : Str) (v : Value) :
    setMember (ms.map fun p => (p.1, g p.2)) key (g v) =
      (setMember ms key v).map fun p => (p.1, g p.2) := by
  induction ms with
  | nil => rfl
  | cons p rest ih =>
      rw [List.map_cons, setMember, setMember, ih]
      split_ifs
      · rfl
      · rfl

theorem dictOfPairs_map (g : Value → Value) (ps : List (Str × Value)) :
    dictOfPairs (ps.map fun p => (p.1, g p.2)) = (dictOfPairs ps).map fun p => (p.1, g p.2) := by
  have general : ∀ acc : List (Str × Value),
      (ps.map fun p => (p.1, g p.2)).foldl (fun ms p => setMember ms p.1 p.2)
        (acc.map fun p => (p.1, g p.2)) =
      (ps.foldl (fun ms p => setMember ms p.1 p.2) acc).map fun p => (p.1, g p.2) := by
    induction ps with
    | nil => exact fun _ => rfl
    | cons p rest ih =>
        intro acc
        rw [List.map_cons, List.foldl_cons, List.foldl_cons, setMember_map, ih]
  exact general []

theorem respelled_ofMembers (f : Str → Str) (ms : List (Str × Value)) :
    respelled f (Value.ofMembers ms) = Value.ofMembers (ms.map fun p => (p.1, respelled f p.2)) := by
  rw [Value.ofMembers, respelled, respelledMembers_eq_map, Value.ofMembers, List.map_map,
    List.map_map]
  rfl

mutual
/-- Floats are respelled before a value is read back as after it. -/
theorem respelled_reread (f : Str → Str) (st : Style) : ∀ v : Value,
    respelled f (reread st v) = reread st (respelled f v)
  | .float _ => rfl
  | .list xs => congrArg Value.list (respelledItems_reread f st xs)
  | .tuple xs => congrArg Value.list (respelledItems_reread f st xs)
  | .dict kvs => by
      rw [reread, respelled_ofMembers, respelled, reread, rereadMembers_respelled f st kvs,
        st.order_map (respelled f), ← dictOfPairs_map, List.map_map, List.map_map]
      rfl
  | .null => rfl
  | .bool _ => rfl
  | .int _ => rfl
  | .str _ => rfl
  | .other _ => rfl
/-- The same of items. -/
theorem respelledItems_reread (f : Str → Str) (st : Style) : ∀ xs : List Value,
    respelledItems f (rereadItems st xs) = rereadItems st (respelledItems f xs)
  | [] => rfl
  | x :: xs => by
      rw [rereadItems, respelledItems, respelledItems, rereadItems, respelled_reread f st x,
        respelledItems_reread f st xs]
/-- The same of members. -/
theorem rereadMembers_respelled (f : Str → Str) (st : Style) : ∀ kvs : List (Key × Value),
    rereadMembers st (respelledMembers f kvs) =
      (rereadMembers st kvs).map fun p => (p.1, respelled f p.2)
  | [] => rfl
  | (.str k, v) :: rest => by
      rw [respelledMembers, rereadMembers, rereadMembers, List.map_cons, ← respelled_reread f st v,
        rereadMembers_respelled f st rest]
  | (.other _, _) :: rest => by
      rw [respelledMembers, rereadMembers, rereadMembers, rereadMembers_respelled f st rest]
end

/-! ## Texts that change -/

/-- A text that is the same after its escapes have been joined. -/
def Unpaired (s : Str) : Prop := joinSurrogates s = s

/-- Joining the surrogates makes a text shorter, unless it changes nothing. -/
theorem joinSurrogates_length (s : Str) :
    (joinSurrogates s).length ≤ s.length ∧ ((joinSurrogates s).length = s.length → Unpaired s) := by
  fun_induction joinSurrogates s with
  | case1 => exact ⟨le_refl _, fun _ => rfl⟩
  | case2 c => exact ⟨le_refl _, fun _ => rfl⟩
  | case3 c d rest hpair ih =>
      simp only [List.length_cons]
      exact ⟨by omega, fun h => absurd h (by omega)⟩
  | case4 c d rest hpair ih =>
      simp only [List.length_cons] at ih ⊢
      refine ⟨by omega, fun h => ?_⟩
      have hrest : Unpaired (d :: rest) := ih.2 (by omega)
      unfold Unpaired at hrest ⊢
      rw [joinSurrogates, if_neg hpair, hrest]

/-- A text that is read back as ASCII was read back as it is. -/
theorem unpaired_of_ascii {s : Str} (h : ∀ c ∈ joinSurrogates s, c.val < 0x80) :
    Unpaired s := by
  unfold Unpaired
  fun_induction joinSurrogates s with
  | case1 => rfl
  | case2 c => rfl
  | case3 c d rest hpair ih =>
      -- the code point of a pair is past the basic plane
      have hjoined := h (joinPair c d) List.mem_cons_self
      obtain ⟨hhigh, hlow⟩ := hpair
      simp only [isHigh, isLow, Bool.and_eq_true, decide_eq_true_eq] at hhigh hlow
      rw [joinPair, val_ofCode (by omega)] at hjoined
      omega
  | case4 c d rest hpair ih =>
      rw [ih fun x hx => h x (List.mem_cons_of_mem _ hx)]

theorem forall_eq_of_sum_eq {α : Type*} {f g : α → Nat} {xs : List α} (hle : ∀ x ∈ xs, f x ≤ g x)
    (h : (xs.map f).sum = (xs.map g).sum) : ∀ x ∈ xs, f x = g x := by
  induction xs with
  | nil => exact fun x hx => absurd hx List.not_mem_nil
  | cons x xs ih =>
      obtain ⟨hx, hxs⟩ := List.forall_mem_cons.mp hle
      have hsums : (xs.map f).sum ≤ (xs.map g).sum := List.sum_le_sum hxs
      simp only [List.map_cons, List.sum_cons] at h
      exact List.forall_mem_cons.mpr ⟨by omega, ih hxs (by omega)⟩

/-- Distinct texts that all occur among themselves joined are unpaired. -/
theorem unpaired_of_subset_join {ks : List Str} (hn : ks.Nodup)
    (h : ∀ k ∈ ks, k ∈ ks.map joinSurrogates) : ∀ k ∈ ks, Unpaired k := by
  have hperm : ks.Perm (ks.map joinSurrogates) :=
    (hn.subperm h).perm_of_length_le (by rw [List.length_map])
  have hsum : (ks.map fun k => (joinSurrogates k).length).sum = (ks.map List.length).sum := by
    have := (hperm.map List.length).sum_eq
    rw [List.map_map] at this
    exact this.symm
  intro k hk
  have heq := forall_eq_of_sum_eq (fun k _ => (joinSurrogates_length k).1) hsum k hk
  exact (joinSurrogates_length k).2 heq

/-! ## When nothing changes -/

mutual
/-- No text inside the value, be it a key, holds a pair of surrogates. -/
def NoPairs : Value → Prop
  | .str s => Unpaired s
  | .list xs => NoPairsItems xs
  | .tuple xs => NoPairsItems xs
  | .dict kvs => NoPairsMembers kvs
  | _ => True
/-- No text inside the items. -/
def NoPairsItems : List Value → Prop
  | [] => True
  | v :: vs => NoPairs v ∧ NoPairsItems vs
/-- No key and no text inside the values of the members. -/
def NoPairsMembers : List (Key × Value) → Prop
  | [] => True
  | (.str k, v) :: rest => Unpaired k ∧ NoPairs v ∧ NoPairsMembers rest
  | (.other _, _) :: _ => False
end

instance (s : Str) : Decidable (Unpaired s) := inferInstanceAs (Decidable (joinSurrogates s = s))

mutual
/-- Whether a text inside the value holds a pair can be computed. -/
def decideNoPairs : (v : Value) → Decidable (NoPairs v)
  | .str s => inferInstanceAs (Decidable (Unpaired s))
  | .list xs => decideNoPairsItems xs
  | .tuple xs => decideNoPairsItems xs
  | .dict kvs => decideNoPairsMembers kvs
  | .null => .isTrue trivial
  | .bool _ => .isTrue trivial
  | .int _ => .isTrue trivial
  | .float _ => .isTrue trivial
  | .other _ => .isTrue trivial
/-- The same of items. -/
def decideNoPairsItems : (xs : List Value) → Decidable (NoPairsItems xs)
  | [] => .isTrue trivial
  | v :: vs => @instDecidableAnd _ _ (decideNoPairs v) (decideNoPairsItems vs)
/-- The same of members. -/
def decideNoPairsMembers : (kvs : List (Key × Value)) → Decidable (NoPairsMembers kvs)
  | [] => .isTrue trivial
  | (.str k, v) :: rest =>
      @instDecidableAnd _ _ (inferInstanceAs (Decidable (Unpaired k)))
        (@instDecidableAnd _ _ (decideNoPairs v) (decideNoPairsMembers rest))
  | (.other _, _) :: _ => .isFalse id
end

instance (v : Value) : Decidable (NoPairs v) := decideNoPairs v

theorem noPairsMembers_iff {kvs : List (Key × Value)} :
    NoPairsMembers kvs ↔ ∀ p ∈ kvs, (∃ k, p.1 = .str k ∧ Unpaired k) ∧ NoPairs p.2 := by
  induction kvs with
  | nil => simp [NoPairsMembers]
  | cons p rest ih =>
      obtain ⟨k, v⟩ := p
      cases k with
      | str k => simp [NoPairsMembers, ih, and_assoc]
      | other t => simp [NoPairsMembers]

theorem nestItems_le_iff {xs : List Value} {n : Nat} :
    Value.nestItems xs ≤ n ↔ ∀ x ∈ xs, x.nest ≤ n := by
  induction xs with
  | nil => simp [Value.nestItems]
  | cons x xs ih => simp [Value.nestItems, ih]

theorem nestMembers_le_iff {kvs : List (Key × Value)} {n : Nat} :
    Value.nestMembers kvs ≤ n ↔ ∀ p ∈ kvs, p.2.nest ≤ n := by
  induction kvs with
  | nil => simp [Value.nestMembers]
  | cons p rest ih => simp [Value.nestMembers, ih]

theorem rereadMembers_of_text {st : Style} {kvs : List (Key × Value)}
    (h : ∀ p ∈ kvs, ∃ k, p.1 = .str k) :
    (rereadMembers st kvs).map (fun p => (Key.str p.1, p.2)) =
      kvs.map fun p => (p.1, reread st p.2) := by
  induction kvs with
  | nil => rfl
  | cons p rest ih =>
      obtain ⟨⟨k, hk⟩, hrest⟩ := List.forall_mem_cons.mp h
      obtain ⟨key, v⟩ := p
      obtain rfl : key = .str k := hk
      rw [rereadMembers, List.map_cons, ih hrest, List.map_cons]

theorem mem_keys_dictOfPairs {pairs : List (Str × Value)} {k : Str}
    (h : k ∈ (dictOfPairs pairs).map Prod.fst) : k ∈ pairs.map Prod.fst := by
  obtain ⟨p, hp, rfl⟩ := List.mem_map.mp h
  have general : ∀ pairs acc : List (Str × Value), ∀ k,
      k ∈ (pairs.foldl (fun ms p => setMember ms p.1 p.2) acc).map Prod.fst →
        k ∈ acc.map Prod.fst ∨ k ∈ pairs.map Prod.fst := by
    intro pairs
    induction pairs with
    | nil => exact fun _ _ h => .inl h
    | cons q rest ih =>
        intro acc k hk
        rcases ih _ k hk with hk | hk
        · rw [setMember_keys] at hk
          split_ifs at hk
          · exact .inl hk
          · rcases List.mem_append.mp hk with hk | hk
            · exact .inl hk
            · exact .inr (by simp [List.mem_singleton.mp hk])
        · exact .inr (by simp only [List.map_cons, List.mem_cons]; exact .inr hk)
  rcases general pairs [] p.1 (List.mem_map_of_mem hp) with hk | hk
  · cases hk
  · exact hk

/-- Members under unpaired keys are found under them when they are read back. -/
theorem lookup_reread {st : Style} {kvs : List (Key × Value)} (hn : (kvs.map Prod.fst).Nodup)
    (hk : ∀ p ∈ kvs, ∃ k, p.1 = .str k ∧ Unpaired k) :
    ∃ kws, reread st (.dict kvs) = .dict kws ∧ (kws.map Prod.fst).Perm (kvs.map Prod.fst) ∧
      ∀ p ∈ kvs, kws.lookup p.1 = some (reread st p.2) := by
  have htext : ∀ p ∈ kvs, ∃ k, p.1 = .str k := fun p hp => (hk p hp).imp fun _ h => h.1
  have hmembers := @rereadMembers_of_text st _ htext
  have hperm := st.order_perm (rereadMembers st kvs)
  have hkeys : (rereadMembers st kvs).map (fun p => Key.str p.1) = kvs.map Prod.fst := by
    have := congrArg (List.map Prod.fst) hmembers
    rw [List.map_map, List.map_map] at this
    exact this
  have hback : ∀ p ∈ rereadMembers st kvs, st.readBack p.1 = p.1 := by
    intro p hp
    have hmem : Key.str p.1 ∈ kvs.map Prod.fst := by
      rw [← hkeys]
      exact List.mem_map_of_mem (f := fun p : Str × Value => Key.str p.1) hp
    obtain ⟨q, hq, hqk⟩ := List.mem_map.mp hmem
    obtain ⟨k, hkq, hunpaired⟩ := hk q hq
    obtain rfl := Key.str.inj (hqk.symm.trans hkq)
    unfold Style.readBack
    split_ifs
    · exact hunpaired
    · rfl
  have hpairs : (st.order (rereadMembers st kvs)).map (fun p => (st.readBack p.1, p.2)) =
      st.order (rereadMembers st kvs) := by
    conv_rhs => rw [← List.map_id (st.order (rereadMembers st kvs))]
    exact List.map_congr_left fun p hp => by rw [hback p (hperm.mem_iff.mp hp)]; rfl
  have hnodup : ((st.order (rereadMembers st kvs)).map Prod.fst).Nodup := by
    rw [(hperm.map Prod.fst).nodup_iff]
    apply List.Nodup.of_map Key.str
    rw [List.map_map]
    exact hkeys ▸ hn
  have hdict : reread st (.dict kvs) =
      .dict ((st.order (rereadMembers st kvs)).map fun p => (Key.str p.1, p.2)) := by
    rw [reread, hpairs, dictOfPairs_of_nodup hnodup]
    rfl
  have hkwsperm : ((st.order (rereadMembers st kvs)).map fun p => (Key.str p.1, p.2)).Perm
      (kvs.map fun p => (p.1, reread st p.2)) := hmembers ▸ hperm.map _
  have hfst : (kvs.map fun p => (p.1, reread st p.2)).map Prod.fst = kvs.map Prod.fst := by
    rw [List.map_map]
    rfl
  refine ⟨_, hdict, hfst ▸ hkwsperm.map Prod.fst, ?_⟩
  intro p hp
  apply lookup_of_mem
  · rw [(hkwsperm.map Prod.fst).nodup_iff, hfst]
    exact hn
  · exact hkwsperm.mem_iff.mpr (List.mem_map_of_mem (f := fun p => (p.1, reread st p.2)) hp)

theorem sameMembers_iff {kvs kws : List (Key × Value)} :
    SameMembers kvs kws ↔ ∀ p ∈ kvs, ∃ w, kws.lookup p.1 = some w ∧ Same p.2 w := by
  induction kvs with
  | nil => simp [SameMembers]
  | cons p rest ih => simp [SameMembers, ih]

/-- If every key is found again, no key has changed. -/
theorem unpaired_keys_of_found {st : Style} (hst : st.ascii = true) {kvs kws : List (Key × Value)}
    (hn : (kvs.map Prod.fst).Nodup) (hdict : reread st (.dict kvs) = .dict kws)
    (h : ∀ p ∈ kvs, p.1 ∈ kws.map Prod.fst) : ∀ p ∈ kvs, ∃ k, p.1 = .str k ∧ Unpaired k := by
  have hkws : kws = ((dictOfPairs ((st.order (rereadMembers st kvs)).map fun p =>
      (st.readBack p.1, p.2))).map fun p => (Key.str p.1, p.2)) := by
    rw [reread, Value.ofMembers] at hdict
    exact (Value.dict.inj hdict).symm
  have htext : ∀ p ∈ kvs, ∃ k, p.1 = .str k ∧
      k ∈ (rereadMembers st kvs).map fun p => st.readBack p.1 := by
    intro p hp
    have hfound := h p hp
    rw [hkws, List.map_map] at hfound
    obtain ⟨q, hq, hqk⟩ := List.mem_map.mp hfound
    refine ⟨q.1, hqk.symm, ?_⟩
    have hmem := mem_keys_dictOfPairs (List.mem_map_of_mem (f := Prod.fst) hq)
    rw [List.map_map] at hmem
    exact ((st.order_perm (rereadMembers st kvs)).map _).mem_iff.mp hmem
  have hmembers := @rereadMembers_of_text st _ fun p hp => (htext p hp).imp fun _ h => h.1
  have hkeys : (rereadMembers st kvs).map (fun p => Key.str p.1) = kvs.map Prod.fst := by
    have := congrArg (List.map Prod.fst) hmembers
    rw [List.map_map, List.map_map] at this
    exact this
  have hnodup : ((rereadMembers st kvs).map Prod.fst).Nodup := by
    apply List.Nodup.of_map Key.str
    rw [List.map_map]
    exact hkeys ▸ hn
  have hin : ∀ p ∈ kvs, ∀ k, p.1 = .str k → k ∈ (rereadMembers st kvs).map Prod.fst := by
    intro p hp k hk
    have hmem : Key.str k ∈ (rereadMembers st kvs).map fun p => Key.str p.1 := by
      rw [hkeys, ← hk]
      exact List.mem_map_of_mem hp
    obtain ⟨q, hq, hqk⟩ := List.mem_map.mp hmem
    rw [← Key.str.inj hqk]
    exact List.mem_map_of_mem hq
  have hunpaired := unpaired_of_subset_join hnodup (by
    intro k hk
    have hmem : Key.str k ∈ kvs.map Prod.fst := by
      rw [← hkeys]
      obtain ⟨q, hq, rfl⟩ := List.mem_map.mp hk
      exact List.mem_map_of_mem (f := fun p : Str × Value => Key.str p.1) hq
    obtain ⟨p, hp, hpk⟩ := List.mem_map.mp hmem
    obtain ⟨k', hk', hback⟩ := htext p hp
    obtain rfl := Key.str.inj (hpk.symm.trans hk')
    rw [List.map_map]
    simpa only [Style.readBack, hst, if_true, Function.comp_def] using hback)
  intro p hp
  obtain ⟨k, hk, -⟩ := htext p hp
  exact ⟨k, hk, hunpaired k (hin p hp k hk)⟩

mutual
/-- A value read back is the same JSON value exactly if no text in it changes. -/
theorem same_reread_iff {st : Style} (hst : st.ascii = true) : ∀ v : Value, v.Distinct →
    (Same v (reread st v) ↔ NoPairs v)
  | .null, _ => ⟨fun _ => trivial, fun _ => rfl⟩
  | .bool _, _ => ⟨fun _ => trivial, fun _ => rfl⟩
  | .int _, _ => ⟨fun _ => trivial, fun _ => rfl⟩
  | .float _, _ => ⟨fun _ => trivial, fun _ => rfl⟩
  | .other _, _ => ⟨fun _ => trivial, fun _ => rfl⟩
  | .str s, _ => by
      rw [reread, Same, NoPairs, Style.readBack, if_pos hst]
      exact ⟨fun h => Value.str.inj h, fun h => congrArg Value.str h⟩
  | .list xs, hd => by
      rw [reread, Same, NoPairs, ← sameItems_reread_iff hst xs hd]
      constructor
      · rintro ⟨ys, hys | hys, hsame⟩
        · exact Value.list.inj hys ▸ hsame
        · cases hys
      · exact fun hsame => ⟨_, .inl rfl, hsame⟩
  | .tuple xs, hd => by
      rw [reread, Same, NoPairs, ← sameItems_reread_iff hst xs hd]
      constructor
      · rintro ⟨ys, hys | hys, hsame⟩
        · exact Value.list.inj hys ▸ hsame
        · cases hys
      · exact fun hsame => ⟨_, .inl rfl, hsame⟩
  | .dict kvs, hd => by
      rw [Same, NoPairs, noPairsMembers_iff]
      have hvalues := sameValues_reread_iff hst kvs hd.2
      constructor
      · rintro ⟨kws, hdict, hmembers, -⟩
        rw [sameMembers_iff] at hmembers
        have hkeys := unpaired_keys_of_found hst hd.1 hdict (by
          intro p hp
          obtain ⟨w, hw, -⟩ := hmembers p hp
          exact List.mem_map.mpr ⟨_, mem_of_lookup hw, rfl⟩)
        obtain ⟨kws', hdict', -, hlookup⟩ := @lookup_reread st _ hd.1 hkeys
        obtain rfl := Value.dict.inj (hdict'.symm.trans hdict)
        intro p hp
        refine ⟨hkeys p hp, (hvalues p hp).mp ?_⟩
        obtain ⟨w, hw, hsame⟩ := hmembers p hp
        obtain rfl := Option.some.inj ((hlookup p hp).symm.trans hw)
        exact hsame
      · intro h
        obtain ⟨kws, hdict, hperm, hlookup⟩ := @lookup_reread st _ hd.1 fun p hp => (h p hp).1
        refine ⟨kws, hdict, ?_, fun k hk => hperm.mem_iff.mp hk⟩
        rw [sameMembers_iff]
        exact fun p hp => ⟨_, hlookup p hp, (hvalues p hp).mpr (h p hp).2⟩
/-- Items read back are the same exactly if no text in them changes. -/
theorem sameItems_reread_iff {st : Style} (hst : st.ascii = true) : ∀ xs : List Value,
    Value.DistinctItems xs → (SameItems xs (rereadItems st xs) ↔ NoPairsItems xs)
  | [], _ => ⟨fun _ => trivial, fun _ => rfl⟩
  | x :: xs, hd => by
      rw [rereadItems, SameItems, NoPairsItems, ← same_reread_iff hst x hd.1,
        ← sameItems_reread_iff hst xs hd.2]
      constructor
      · rintro ⟨z, zs, heq, hz, hzs⟩
        obtain ⟨rfl, rfl⟩ := List.cons.inj heq
        exact ⟨hz, hzs⟩
      · exact fun h => ⟨_, _, rfl, h.1, h.2⟩
/-- The values of members, one by one. -/
theorem sameValues_reread_iff {st : Style} (hst : st.ascii = true) : ∀ kvs : List (Key × Value),
    Value.DistinctMembers kvs → ∀ p ∈ kvs, (Same p.2 (reread st p.2) ↔ NoPairs p.2)
  | [], _ => fun p hp => absurd hp List.not_mem_nil
  | (_, v) :: rest, hd => by
      have hv := same_reread_iff hst v hd.1
      have hrest := sameValues_reread_iff hst rest hd.2
      exact List.forall_mem_cons.mpr ⟨hv, hrest⟩
end

/-! ## How deep a reader goes -/

theorem scanScalar_nest {s rest : Str} {v : Value}
    (h : scanScalar Hooks.default s = .ok (v, rest)) : v.nest = 0 := by
  have hnumber : ∀ s, scanNumber s = .ok (v, rest) → v.nest = 0 := by
    intro s hs
    unfold scanNumber at hs
    dsimp only at hs
    split at hs
    · cases hs
    · split_ifs at hs <;> cases hs <;> rfl
  unfold scanScalar at h
  split_ifs at h
  case neg => exact hnumber _ h
  all_goals cases h; rfl

/-- What is read is not deeper than the limit. -/
theorem scan_nest_le (fuel : Nat) :
    (∀ depth s v rest, scanOnce Hooks.default fuel depth s = .ok (v, rest) → v.nest ≤ depth) ∧
    (∀ depth s ms rest, scanMembers Hooks.default fuel depth s = .ok (ms, rest) →
      ∀ p ∈ ms, p.2.nest ≤ depth) ∧
    (∀ depth s vs rest, scanItems Hooks.default fuel depth s = .ok (vs, rest) →
      ∀ v ∈ vs, v.nest ≤ depth) := by
  induction fuel with
  | zero => simp [scanOnce, scanMembers, scanItems]
  | succ fuel ih =>
      obtain ⟨ihv, ihm, ihi⟩ := ih
      refine ⟨?_, ?_, ?_⟩
      · intro depth s v rest hs
        cases s with
        | nil => cases hs
        | cons c cs =>
            rw [scanOnce] at hs
            split_ifs at hs with h₁ h₂ hd h₃ hd
            · obtain ⟨⟨t, r⟩, -, hr⟩ := bind_eq_ok.mp hs
              obtain ⟨rfl, -⟩ := Prod.mk.inj (Except.ok.inj hr)
              exact Nat.zero_le _
            · obtain ⟨⟨ps, r⟩, ht, hr⟩ := bind_eq_ok.mp hs
              obtain ⟨w, hw, hr⟩ := bind_eq_ok.mp hr
              obtain ⟨rfl, -⟩ := Prod.mk.inj (Except.ok.inj hr)
              obtain rfl := Except.ok.inj hw
              have hps := opened_forall (ihm _ _) ht
              have hmembers : Value.nestMembers ((dictOfPairs ps).map fun p => (Key.str p.1, p.2)) ≤
                  depth - 1 := by
                rw [nestMembers_le_iff]
                intro p hp
                obtain ⟨q, hq, rfl⟩ := List.mem_map.mp hp
                obtain ⟨x, hx, hxq⟩ := mem_dictOfPairs hq
                exact hxq ▸ hps x hx
              change Value.nestMembers _ + 1 ≤ depth
              omega
            · obtain ⟨⟨xs, r⟩, ht, hr⟩ := bind_eq_ok.mp hs
              obtain ⟨rfl, -⟩ := Prod.mk.inj (Except.ok.inj hr)
              have hxs := nestItems_le_iff.mpr (opened_forall (ihi _ _) ht)
              rw [Value.nest]
              omega
            · rw [scanScalar_nest hs]
              exact Nat.zero_le _
      · intro depth s ms rest hs
        cases s with
        | nil => cases hs
        | cons c cs =>
            rw [scanMembers] at hs
            split_ifs at hs
            obtain ⟨⟨key, r⟩, -, hs⟩ := bind_eq_ok.mp hs
            dsimp only at hs
            split_ifs at hs
            obtain ⟨⟨v, r'⟩, hv, hs⟩ := bind_eq_ok.mp hs
            have hle := ihv _ _ _ _ hv
            dsimp only at hs
            split_ifs at hs
            · obtain ⟨rfl, -⟩ := Prod.mk.inj (Except.ok.inj hs)
              exact List.forall_mem_singleton.mpr hle
            · obtain ⟨⟨ms', r''⟩, hm, hs⟩ := bind_eq_ok.mp hs
              obtain ⟨rfl, -⟩ := Prod.mk.inj (Except.ok.inj hs)
              exact List.forall_mem_cons.mpr ⟨hle, ihm _ _ _ _ hm⟩
      · intro depth s vs rest hs
        rw [scanItems] at hs
        obtain ⟨⟨v, r'⟩, hv, hs⟩ := bind_eq_ok.mp hs
        have hle := ihv _ _ _ _ hv
        dsimp only at hs
        split_ifs at hs
        · obtain ⟨rfl, -⟩ := Prod.mk.inj (Except.ok.inj hs)
          exact List.forall_mem_singleton.mpr hle
        · obtain ⟨⟨vs', r''⟩, hm, hs⟩ := bind_eq_ok.mp hs
          obtain ⟨rfl, -⟩ := Prod.mk.inj (Except.ok.inj hs)
          exact List.forall_mem_cons.mpr ⟨hle, ihi _ _ _ _ hm⟩

theorem nest_le_of_loads {limit : Nat} {s : Str} {v : Value} (h : loads limit s = .ok v) :
    v.nest ≤ limit := by
  unfold loads loadsWith at h
  split_ifs at h
  obtain ⟨⟨w, rest⟩, hs, h⟩ := bind_eq_ok.mp h
  dsimp only at h
  split_ifs at h
  obtain rfl := Except.ok.inj h
  exact (scan_nest_le _).1 _ _ _ _ hs

mutual
/-- A value is not deeper than one that is the same. -/
theorem nest_le_of_same : ∀ v w : Value, Same v w → v.nest ≤ w.nest
  | .null, _, _ => Nat.zero_le _
  | .bool _, _, _ => Nat.zero_le _
  | .int _, _, _ => Nat.zero_le _
  | .float _, _, _ => Nat.zero_le _
  | .str _, _, _ => Nat.zero_le _
  | .other _, _, _ => Nat.zero_le _
  | .list xs, w, h => by
      obtain ⟨ys, rfl | rfl, hys⟩ := h
      all_goals
        rw [Value.nest, Value.nest]
        exact Nat.succ_le_succ (nestItems_le_of_same xs ys hys)
  | .tuple xs, w, h => by
      obtain ⟨ys, rfl | rfl, hys⟩ := h
      all_goals
        rw [Value.nest, Value.nest]
        exact Nat.succ_le_succ (nestItems_le_of_same xs ys hys)
  | .dict kvs, w, h => by
      obtain ⟨kws, rfl, hmembers, -⟩ := h
      rw [Value.nest, Value.nest]
      exact Nat.succ_le_succ (nestMembers_le_of_same kvs kws hmembers)
/-- Items are not deeper than items that are the same. -/
theorem nestItems_le_of_same : ∀ xs ys : List Value, SameItems xs ys →
    Value.nestItems xs ≤ Value.nestItems ys
  | [], _, _ => Nat.zero_le _
  | x :: xs, ys, h => by
      obtain ⟨z, zs, rfl, hz, hzs⟩ := h
      rw [Value.nestItems, Value.nestItems]
      exact max_le_max (nest_le_of_same x z hz) (nestItems_le_of_same xs zs hzs)
/-- Members are not deeper than members that hold the same values. -/
theorem nestMembers_le_of_same : ∀ kvs kws : List (Key × Value), SameMembers kvs kws →
    Value.nestMembers kvs ≤ Value.nestMembers kws
  | [], _, _ => Nat.zero_le _
  | (k, v) :: rest, kws, h => by
      obtain ⟨⟨w, hw, hvw⟩, hrest⟩ := h
      rw [Value.nestMembers]
      apply max_le
      · exact (nest_le_of_same v w hvw).trans (Value.nest_le_of_mem_members (mem_of_lookup hw))
      · exact nestMembers_le_of_same rest kws hrest
end

/-! ## How long a text is -/

/-- The length of a container around parts of given lengths. -/
def containerLength (st : Style) (level : Nat) (lengths : List Nat) : Nat :=
  match lengths with
  | [] => 2
  | n :: ns =>
      (((n :: ns).map fun m => (st.itemSeparator ++ st.newline (level + 1)).length + m).sum +
        (st.newline level).length + 2) - st.itemSeparator.length

mutual
/-- The length of the text of a value. -/
def textLength (st : Style) (level : Nat) : Value → Nat
  | .null => 4
  | .bool b => if b then 4 else 5
  | .int i => (intText i).length
  | .float l => l.length
  | .str s => (quote st.ascii s).length
  | .list xs => containerLength st level (itemLengths st (level + 1) xs)
  | .tuple xs => containerLength st level (itemLengths st (level + 1) xs)
  | .dict kvs => containerLength st level (memberLengths st (level + 1) kvs)
  | .other _ => 0
/-- The lengths of the texts of items. -/
def itemLengths (st : Style) (level : Nat) : List Value → List Nat
  | [] => []
  | v :: vs => textLength st level v :: itemLengths st level vs
/-- The lengths of the texts of members. -/
def memberLengths (st : Style) (level : Nat) : List (Key × Value) → List Nat
  | [] => []
  | (.str k, v) :: rest =>
      ((quote st.ascii k).length + st.keySeparator.length + textLength st level v) ::
        memberLengths st level rest
  | (.other _, _) :: rest => memberLengths st level rest
end

theorem containerLength_perm (st : Style) (level : Nat) {ns ms : List Nat} (h : ns.Perm ms) :
    containerLength st level ns = containerLength st level ms := by
  cases ns with
  | nil => rw [List.nil_perm.mp h]
  | cons n ns =>
      cases ms with
      | nil => exact absurd (List.perm_nil.mp h) (List.cons_ne_nil _ _)
      | cons m ms =>
          unfold containerLength
          dsimp only
          rw [(h.map _).sum_eq]

theorem containerLength_parts (st : Style) (level : Nat) (opening closing : CodePoint)
    (parts : List Str) :
    (bracket st level opening closing parts).length =
      containerLength st level (parts.map List.length) := by
  cases parts with
  | nil => rfl
  | cons p ps =>
      have h := bracket_length st level opening closing (List.cons_ne_nil p ps)
      have hlengths : ((p :: ps).map fun q =>
          (st.itemSeparator ++ st.newline (level + 1)).length + q.length) =
          ((p :: ps).map List.length).map fun m =>
            (st.itemSeparator ++ st.newline (level + 1)).length + m := by
        rw [List.map_map]
        rfl
      rw [hlengths] at h
      exact Nat.eq_sub_of_add_eq h

mutual
theorem dump_length {st : Style} : ∀ (level : Nat) (v : Value) (t : Str),
    dump st level v = .ok t → t.length = textLength st level v
  | _, .null, _, h => by
      obtain rfl := Except.ok.inj h
      rfl
  | _, .bool b, _, h => by
      obtain rfl := Except.ok.inj h
      cases b <;> rfl
  | _, .int i, _, h => by
      rw [dump, dumpInt] at h
      split_ifs at h
      obtain rfl := Except.ok.inj h
      rfl
  | _, .float l, _, h => by
      obtain rfl := Except.ok.inj h
      rfl
  | _, .other _, _, h => by cases h
  | _, .str s, _, h => by
      obtain rfl := Except.ok.inj h
      rfl
  | level, .list xs, _, h => by
      rw [dump] at h
      obtain ⟨ts, hts, h⟩ := bind_eq_ok.mp h
      obtain rfl := Except.ok.inj h
      rw [containerLength_parts, dumpItems_length (level + 1) xs ts hts, textLength]
  | level, .tuple xs, _, h => by
      rw [dump] at h
      obtain ⟨ts, hts, h⟩ := bind_eq_ok.mp h
      obtain rfl := Except.ok.inj h
      rw [containerLength_parts, dumpItems_length (level + 1) xs ts hts, textLength]
  | level, .dict kvs, _, h => by
      rw [dump] at h
      obtain ⟨ts, hts, h⟩ := bind_eq_ok.mp h
      obtain rfl := Except.ok.inj h
      rw [containerLength_parts, textLength, ← dumpMembers_lengths (level + 1) kvs ts hts,
        List.map_map]
      exact containerLength_perm st level ((st.order_perm ts).map _)
theorem dumpItems_length {st : Style} : ∀ (level : Nat) (xs : List Value) (ts : List Str),
    dumpItems st level xs = .ok ts → ts.map List.length = itemLengths st level xs
  | _, [], _, h => by
      obtain rfl := Except.ok.inj h
      rfl
  | level, x :: xs, _, h => by
      rw [dumpItems] at h
      obtain ⟨t, ht, h⟩ := bind_eq_ok.mp h
      obtain ⟨ts, hts, h⟩ := bind_eq_ok.mp h
      obtain rfl := Except.ok.inj h
      rw [List.map_cons, dump_length level x t ht, dumpItems_length level xs ts hts, itemLengths]
theorem dumpMembers_lengths {st : Style} : ∀ (level : Nat) (kvs : List (Key × Value))
    (ts : List (Str × Str)), dumpMembers st level kvs = .ok ts →
      ts.map (fun t => (st.member t).length) = memberLengths st level kvs
  | _, [], _, h => by
      obtain rfl := Except.ok.inj h
      rfl
  | _, (.other _, _) :: _, _, h => by cases h
  | level, (.str k, v) :: rest, _, h => by
      rw [dumpMembers] at h
      obtain ⟨t, ht, h⟩ := bind_eq_ok.mp h
      obtain ⟨ts, hts, h⟩ := bind_eq_ok.mp h
      obtain rfl := Except.ok.inj h
      rw [List.map_cons, dumpMembers_lengths level rest ts hts, memberLengths,
        ← dump_length level v t ht, Style.member, List.length_append, List.length_append]
end

end IcsDeception.Json
