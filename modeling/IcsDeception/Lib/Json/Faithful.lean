import IcsDeception.Lib.Json.Equality

/-!
# Sorted text is determined by the value

Values that are the same JSON value are written alike when members are sorted, and
what is read back is the same JSON value.
-/

namespace IcsDeception.Json

open Text Decimal

/-! ## Written members -/

theorem dumpMembers_keys {st : Style} {level : Nat} {kvs : List (Key × Value)}
    {ts : List (Str × Str)} (h : dumpMembers st level kvs = .ok ts) :
    kvs.map Prod.fst = ts.map fun t => Key.str t.1 := by
  induction kvs generalizing ts with
  | nil =>
      obtain rfl := Except.ok.inj h
      rfl
  | cons p rest ih =>
      obtain ⟨k, v⟩ := p
      cases k with
      | other s => cases h
      | str s =>
          rw [dumpMembers] at h
          obtain ⟨t, -, h⟩ := bind_eq_ok.mp h
          obtain ⟨us, hus, h⟩ := bind_eq_ok.mp h
          obtain rfl := Except.ok.inj h
          rw [List.map_cons, List.map_cons, ih hus]

theorem mem_dumpMembers {st : Style} {level : Nat} {kvs : List (Key × Value)}
    {ts : List (Str × Str)} (h : dumpMembers st level kvs = .ok ts) {k : Str} {v : Value}
    (hm : (Key.str k, v) ∈ kvs) : ∃ t, dump st level v = .ok t ∧ (k, t) ∈ ts := by
  induction kvs generalizing ts with
  | nil => cases hm
  | cons p rest ih =>
      obtain ⟨k', v'⟩ := p
      cases k' with
      | other s => cases h
      | str s =>
          rw [dumpMembers] at h
          obtain ⟨t, ht, h⟩ := bind_eq_ok.mp h
          obtain ⟨us, hus, h⟩ := bind_eq_ok.mp h
          obtain rfl := Except.ok.inj h
          rcases List.mem_cons.mp hm with hm | hm
          · cases hm
            exact ⟨t, ht, List.mem_cons_self⟩
          · obtain ⟨u, hu, hmem⟩ := ih hus hm
            exact ⟨u, hu, List.mem_cons_of_mem _ hmem⟩

theorem nodup_of_dumpMembers {st : Style} {level : Nat} {kvs : List (Key × Value)}
    {ts : List (Str × Str)} (h : dumpMembers st level kvs = .ok ts)
    (hn : (kvs.map Prod.fst).Nodup) : (ts.map Prod.fst).Nodup := by
  rw [dumpMembers_keys h, ← Function.comp_def, ← List.map_map] at hn
  exact hn.of_map _

theorem eq_of_key {α : Type} {ms : List (Str × α)} (hn : (ms.map Prod.fst).Nodup) {p q : Str × α}
    (hp : p ∈ ms) (hq : q ∈ ms) (h : p.1 = q.1) : p = q :=
  List.inj_on_of_nodup_map hn hp hq h

/-- Members with distinct keys are sorted to one list. -/
theorem sortMembers_eq_of_perm {α : Type} {ms ns : List (Str × α)} (hp : ms.Perm ns)
    (hn : (ms.map Prod.fst).Nodup) : sortMembers ms = sortMembers ns := by
  have hms : (sortMembers ms).Perm ms := List.perm_insertionSort _ _
  have hns : (sortMembers ns).Perm ns := List.perm_insertionSort _ _
  have : Std.Total fun p q : Str × α => p.1 ≤ q.1 := ⟨fun p q => le_total p.1 q.1⟩
  have : IsTrans (Str × α) fun p q => p.1 ≤ q.1 := ⟨fun _ _ _ => le_trans⟩
  refine List.Perm.eq_of_pairwise ?_ (List.pairwise_insertionSort _ _)
    (List.pairwise_insertionSort _ _) (hms.trans (hp.trans hns.symm))
  intro p q hpm hqm h₁ h₂
  exact eq_of_key hn (hms.subset hpm) (hp.symm.subset (hns.subset hqm)) (le_antisymm h₁ h₂)

/-- Dictionaries that are the same have the same written members. -/
theorem dumpMembers_perm {st : Style} {level : Nat} {kvs kws : List (Key × Value)}
    {ts us : List (Str × Str)} (hts : dumpMembers st level kvs = .ok ts)
    (hus : dumpMembers st level kws = .ok us) (hkv : (kvs.map Prod.fst).Nodup)
    (hkw : (kws.map Prod.fst).Nodup) (hsub : ∀ t ∈ ts, t ∈ us)
    (hkeys : ∀ k ∈ kws.map Prod.fst, k ∈ kvs.map Prod.fst) : ts.Perm us := by
  have hnt := nodup_of_dumpMembers hts hkv
  have hnu := nodup_of_dumpMembers hus hkw
  refine (List.perm_ext_iff_of_nodup hnt.of_map hnu.of_map).mpr fun u => ⟨hsub u, fun hu => ?_⟩
  have hk : Key.str u.1 ∈ kws.map Prod.fst := by
    rw [dumpMembers_keys hus]
    exact List.mem_map_of_mem (f := fun t : Str × Str => Key.str t.1) hu
  have hk' := hkeys _ hk
  rw [dumpMembers_keys hts] at hk'
  obtain ⟨t, ht, heq⟩ := List.mem_map.mp hk'
  rwa [← eq_of_key hnu (hsub t ht) hu (Key.str.inj heq)]

mutual
/-- Values that are the same JSON value are written alike. -/
theorem dump_eq_of_same {st : Style} (hst : st.sortKeys = true) :
    ∀ (level : Nat) (v w : Value) (t u : Str), Same v w → v.Distinct → w.Distinct →
      dump st level v = .ok t → dump st level w = .ok u → t = u
  | _, .null, w, t, u, h, _, _, ht, hu => by
      rw [Same] at h
      subst h
      exact Except.ok.inj (ht.symm.trans hu)
  | _, .bool b, w, t, u, h, _, _, ht, hu => by
      rw [Same] at h
      subst h
      exact Except.ok.inj (ht.symm.trans hu)
  | _, .int i, w, t, u, h, _, _, ht, hu => by
      rw [Same] at h
      subst h
      exact Except.ok.inj (ht.symm.trans hu)
  | _, .float l, w, t, u, h, _, _, ht, hu => by
      rw [Same] at h
      subst h
      exact Except.ok.inj (ht.symm.trans hu)
  | _, .str s, w, t, u, h, _, _, ht, hu => by
      rw [Same] at h
      subst h
      exact Except.ok.inj (ht.symm.trans hu)
  | _, .other n, _, _, _, _, _, _, ht, _ => by cases ht
  | level, .list xs, w, t, u, h, hv, hw, ht, hu => by
      rw [Same] at h
      rw [dump] at ht
      obtain ⟨ts, hts, ht⟩ := bind_eq_ok.mp ht
      obtain rfl := Except.ok.inj ht
      obtain ⟨ys, rfl | rfl, hitems⟩ := h
      · rw [dump] at hu
        obtain ⟨us, hus, hu⟩ := bind_eq_ok.mp hu
        obtain rfl := Except.ok.inj hu
        rw [dumpItems_eq_of_same hst (level + 1) xs ys ts us hitems hv hw hts hus]
      · rw [dump] at hu
        obtain ⟨us, hus, hu⟩ := bind_eq_ok.mp hu
        obtain rfl := Except.ok.inj hu
        rw [dumpItems_eq_of_same hst (level + 1) xs ys ts us hitems hv hw hts hus]
  | level, .tuple xs, w, t, u, h, hv, hw, ht, hu => by
      rw [Same] at h
      rw [dump] at ht
      obtain ⟨ts, hts, ht⟩ := bind_eq_ok.mp ht
      obtain rfl := Except.ok.inj ht
      obtain ⟨ys, rfl | rfl, hitems⟩ := h
      · rw [dump] at hu
        obtain ⟨us, hus, hu⟩ := bind_eq_ok.mp hu
        obtain rfl := Except.ok.inj hu
        rw [dumpItems_eq_of_same hst (level + 1) xs ys ts us hitems hv hw hts hus]
      · rw [dump] at hu
        obtain ⟨us, hus, hu⟩ := bind_eq_ok.mp hu
        obtain rfl := Except.ok.inj hu
        rw [dumpItems_eq_of_same hst (level + 1) xs ys ts us hitems hv hw hts hus]
  | level, .dict kvs, w, t, u, h, hv, hw, ht, hu => by
      rw [Same] at h
      obtain ⟨kws, rfl, hmembers, hkeys⟩ := h
      rw [dump] at ht hu
      obtain ⟨ts, hts, ht⟩ := bind_eq_ok.mp ht
      obtain ⟨us, hus, hu⟩ := bind_eq_ok.mp hu
      obtain rfl := Except.ok.inj ht
      obtain rfl := Except.ok.inj hu
      rw [Value.Distinct] at hv hw
      have hsub := dumpMembers_sub_of_same hst (level + 1) kvs kws ts us hmembers hv.2 hw.2 hts hus
      have hperm := dumpMembers_perm hts hus hv.1 hw.1 hsub hkeys
      have horder : st.order ts = st.order us := by
        rw [Style.order, if_pos hst, Style.order, if_pos hst]
        exact sortMembers_eq_of_perm hperm (nodup_of_dumpMembers hts hv.1)
      rw [horder]
/-- Items that are the same are written alike. -/
theorem dumpItems_eq_of_same {st : Style} (hst : st.sortKeys = true) :
    ∀ (level : Nat) (xs ys : List Value) (ts us : List Str), SameItems xs ys →
      Value.DistinctItems xs → Value.DistinctItems ys → dumpItems st level xs = .ok ts →
      dumpItems st level ys = .ok us → ts = us
  | _, [], ys, ts, us, h, _, _, ht, hu => by
      rw [SameItems] at h
      subst h
      exact Except.ok.inj (ht.symm.trans hu)
  | level, x :: xs, ys, ts, us, h, hx, hy, ht, hu => by
      rw [SameItems] at h
      obtain ⟨z, zs, rfl, hsame, hrest⟩ := h
      rw [dumpItems] at ht hu
      obtain ⟨t, ht₁, ht⟩ := bind_eq_ok.mp ht
      obtain ⟨ts', hts, ht⟩ := bind_eq_ok.mp ht
      obtain rfl := Except.ok.inj ht
      obtain ⟨u, hu₁, hu⟩ := bind_eq_ok.mp hu
      obtain ⟨us', hus, hu⟩ := bind_eq_ok.mp hu
      obtain rfl := Except.ok.inj hu
      rw [dump_eq_of_same hst level x z t u hsame hx.1 hy.1 ht₁ hu₁,
        dumpItems_eq_of_same hst level xs zs ts' us' hrest hx.2 hy.2 hts hus]
/-- Members that are the same are written alike. -/
theorem dumpMembers_sub_of_same {st : Style} (hst : st.sortKeys = true) :
    ∀ (level : Nat) (kvs kws : List (Key × Value)) (ts us : List (Str × Str)),
      SameMembers kvs kws → Value.DistinctMembers kvs → Value.DistinctMembers kws →
      dumpMembers st level kvs = .ok ts → dumpMembers st level kws = .ok us → ∀ t ∈ ts, t ∈ us
  | _, [], _, ts, _, _, _, _, ht, _ => by
      obtain rfl := Except.ok.inj ht
      simp
  | _, (.other s, v) :: rest, _, _, _, _, _, _, ht, _ => by cases ht
  | level, (.str k, v) :: rest, kws, ts, us, h, hv, hw, ht, hu => by
      rw [SameMembers] at h
      obtain ⟨⟨w, hlook, hsame⟩, hrest⟩ := h
      rw [dumpMembers] at ht
      obtain ⟨t, ht₁, ht⟩ := bind_eq_ok.mp ht
      obtain ⟨ts', hts, ht⟩ := bind_eq_ok.mp ht
      obtain rfl := Except.ok.inj ht
      have hmem := mem_of_lookup hlook
      obtain ⟨u, hu₁, hin⟩ := mem_dumpMembers hu hmem
      have hwd := Value.distinctMembers_iff.mp hw _ hmem
      have heq := dump_eq_of_same hst level v w t u hsame hv.1 hwd ht₁ hu₁
      refine List.forall_mem_cons.mpr ⟨heq ▸ hin, ?_⟩
      exact dumpMembers_sub_of_same hst level rest kws ts' us hrest hv.2 hw hts hu
end

/-! ## What is read back -/

theorem normMembers_keys {st : Style} (hst : st.ascii = false) {kvs : List (Key × Value)}
    (h : WritableMembers st kvs) :
    kvs.map Prod.fst = (normMembers st kvs).map fun p => Key.str p.1 := by
  induction kvs with
  | nil => rfl
  | cons p rest ih =>
      obtain ⟨k, v⟩ := p
      cases k with
      | other s => exact h.elim
      | str s =>
          rw [WritableMembers] at h
          simp only [List.map_cons, normMembers, Style.readBack_raw hst, ih h.2.2]

theorem lookup_textKey {ms : List (Str × Value)} (hn : (ms.map Prod.fst).Nodup) {k : Str}
    {v : Value} (h : (k, v) ∈ ms) :
    (ms.map fun p => (Key.str p.1, p.2)).lookup (.str k) = some v := by
  refine lookup_of_mem ?_ (List.mem_map_of_mem (f := fun p : Str × Value => (Key.str p.1, p.2)) h)
  have hkeys : ((ms.map Prod.fst).map Key.str).Nodup := hn.map fun _ _ h => Key.str.inj h
  rw [List.map_map] at hkeys ⊢
  exact hkeys

mutual
/-- A writable value is the same JSON value as its normal form. -/
theorem same_norm {st : Style} (hst : st.ascii = false) :
    ∀ v : Value, Writable st v → Same v (norm st v)
  | .null, _ => by simp [Same, norm]
  | .bool b, _ => by simp [Same, norm]
  | .int i, _ => by simp [Same, norm]
  | .float l, h => h.elim
  | .other n, h => h.elim
  | .str s, _ => by simp [Same, norm, Style.readBack_raw hst]
  | .list xs, h => by
      rw [Same, norm]
      exact ⟨_, .inl rfl, sameItems_norm hst xs h⟩
  | .tuple xs, h => by
      rw [Same, norm]
      exact ⟨_, .inl rfl, sameItems_norm hst xs h⟩
  | .dict kvs, h => by
      rw [Same, norm]
      rw [Writable] at h
      have hperm := st.order_perm (normMembers st kvs)
      have hkeys := normMembers_keys hst h.2
      have hnodup : ((st.order (normMembers st kvs)).map Prod.fst).Nodup := by
        have hn := h.1
        rw [hkeys, ← Function.comp_def, ← List.map_map] at hn
        exact (hperm.map Prod.fst).nodup_iff.mpr (hn.of_map _)
      refine ⟨_, rfl, sameMembers_norm hst kvs (st.order (normMembers st kvs)) h.2 hnodup
        fun p hp => hperm.symm.subset hp, ?_⟩
      intro k hk
      rw [List.map_map] at hk
      obtain ⟨p, hp, rfl⟩ := List.mem_map.mp hk
      rw [hkeys]
      exact List.mem_map_of_mem (f := fun p : Str × Value => Key.str p.1) (hperm.subset hp)
/-- The same for items. -/
theorem sameItems_norm {st : Style} (hst : st.ascii = false) :
    ∀ xs : List Value, WritableItems st xs → SameItems xs (normItems st xs)
  | [], _ => by simp [SameItems, normItems]
  | x :: xs, h => by
      rw [SameItems, normItems]
      exact ⟨_, _, rfl, same_norm hst x h.1, sameItems_norm hst xs h.2⟩
/-- The same for members, in any order. -/
theorem sameMembers_norm {st : Style} (hst : st.ascii = false) :
    ∀ (kvs : List (Key × Value)) (ms : List (Str × Value)), WritableMembers st kvs →
      (ms.map Prod.fst).Nodup → (∀ p ∈ normMembers st kvs, p ∈ ms) →
      SameMembers kvs (ms.map fun p => (Key.str p.1, p.2))
  | [], _, _, _, _ => by simp [SameMembers]
  | (.other s, v) :: rest, _, h, _, _ => h.elim
  | (.str k, v) :: rest, ms, h, hn, hsub => by
      rw [WritableMembers] at h
      rw [SameMembers]
      simp only [normMembers, List.forall_mem_cons, Style.readBack_raw hst] at hsub
      refine ⟨⟨norm st v, ?_, same_norm hst v h.2.1⟩, sameMembers_norm hst rest ms h.2.2 hn hsub.2⟩
      exact lookup_textKey hn hsub.1
end

end IcsDeception.Json
