import IcsDeception.Lib.Json.Reread

/-!
# How deep a reader has to go

A text that was written for a value is read exactly if the reader goes as deep as the value
nests: with fewer levels it is refused, whatever becomes of members under repeated keys.
-/

namespace IcsDeception.Json

open Text Decimal

/-- A text that is not scanned as a value with fewer levels than it needs. -/
def Needs (h : Hooks) (need : Nat) (text : Str) : Prop :=
  ∀ fuel depth r x, 2 * text.length + 1 ≤ fuel → Stops r →
    scanOnce h fuel depth (text ++ r) = .ok x → need ≤ depth

theorem needs_zero (h : Hooks) (text : Str) : Needs h 0 text := fun _ _ _ _ _ _ _ => Nat.zero_le _

/-- Items that are scanned between brackets have been given the levels that they need. -/
theorem scanItems_needs {h : Hooks} {depth : Nat} {w z r : Str} (hw : ∀ c ∈ w, isWs c = true)
    (hz : ∀ c ∈ z, isWs c = true) (ps : List (Str × Value × Nat)) (p : Str × Value × Nat)
    (hp : ∀ q ∈ p :: ps, Reads h q.2.2 q.1 q.2.1 ∧ Needs h q.2.2 q.1) (fuel : Nat)
    (hf : 2 * (joined (cp ',' :: w) ((p :: ps).map Prod.fst)).length + 2 ≤ fuel)
    {x : List Value × Str}
    (hs : scanItems h fuel depth
      (joined (cp ',' :: w) ((p :: ps).map Prod.fst) ++ (z ++ cp ']' :: r)) = .ok x) :
    ∀ q ∈ p :: ps, q.2.2 ≤ depth := by
  induction ps generalizing p fuel x with
  | nil =>
      obtain ⟨fuel, rfl⟩ : ∃ k, fuel = k + 1 := ⟨fuel - 1, by omega⟩
      have hj : joined (cp ',' :: w) [p.1] = p.1 := by simp [joined]
      simp only [List.map_cons, List.map_nil, hj] at hf hs
      have hstop : Stops (z ++ cp ']' :: r) := stops_append_ws hz (stops_cons (by decide))
      rw [scanItems] at hs
      obtain ⟨y, hy, -⟩ := bind_eq_ok.mp hs
      exact List.forall_mem_singleton.mpr
        ((hp p List.mem_cons_self).2 fuel depth _ y (by omega) hstop hy)
  | cons q qs ih =>
      obtain ⟨fuel, rfl⟩ : ∃ k, fuel = k + 1 := ⟨fuel - 1, by omega⟩
      obtain ⟨⟨hr, hn⟩, hqs⟩ := List.forall_mem_cons.mp hp
      obtain ⟨c, t, hc, -⟩ := hr.head
      have hpos : 0 < p.1.length := by simp [hc]
      simp only [List.map_cons, joined_cons_cons, List.length_append, List.length_cons] at hf ih hs
      have hstop : Stops (cp ',' :: w ++ joined (cp ',' :: w) (q.1 :: qs.map Prod.fst) ++
          (z ++ cp ']' :: r)) := stops_cons (by decide)
      have hskip : skipWs (w ++ (joined (cp ',' :: w) (q.1 :: qs.map Prod.fst) ++
          (z ++ cp ']' :: r))) =
          joined (cp ',' :: w) (q.1 :: qs.map Prod.fst) ++ (z ++ cp ']' :: r) := by
        rw [joined, List.append_assoc]
        exact (hqs q List.mem_cons_self).1.skip hw
      rw [scanItems, List.append_assoc] at hs
      obtain ⟨y, hy, hrest⟩ := bind_eq_ok.mp hs
      have hle := hn fuel depth _ y (by omega) hstop hy
      rw [hr.scan fuel depth _ (by omega) hle hstop] at hy
      obtain rfl := Except.ok.inj hy
      simp only [List.cons_append, List.append_assoc,
        skipWs_cons (show isWs (cp ',') = false by decide), List.head?_cons, Option.some.injEq,
        show cp ',' ≠ cp ']' by decide, if_false, if_true, List.tail_cons, hskip] at hrest
      obtain ⟨y, hy, -⟩ := bind_eq_ok.mp hrest
      exact List.forall_mem_cons.mpr ⟨hle, ih q hqs fuel (by omega) hy⟩

/-- Members that are scanned between braces have been given the levels that they need. -/
theorem scanMembers_needs {h : Hooks} {depth : Nat} {st : Style} {w wk z r : Str}
    (hw : ∀ c ∈ w, isWs c = true) (hk : st.keySeparator = cp ':' :: wk)
    (hwk : ∀ c ∈ wk, isWs c = true) (hz : ∀ c ∈ z, isWs c = true)
    (ps : List (Str × Str × Value × Nat)) (p : Str × Str × Value × Nat)
    (hp : ∀ q ∈ p :: ps, Reads h q.2.2.2 q.2.1 q.2.2.1 ∧ Needs h q.2.2.2 q.2.1) (fuel : Nat)
    (hf : 2 * (joined (cp ',' :: w) ((p :: ps).map fun q => st.member (q.1, q.2.1))).length + 1 ≤
      fuel) {x : List (Str × Value) × Str}
    (hs : scanMembers h fuel depth
      (joined (cp ',' :: w) ((p :: ps).map fun q => st.member (q.1, q.2.1)) ++
        (z ++ cp '\x7d' :: r)) = .ok x) :
    ∀ q ∈ p :: ps, q.2.2.2 ≤ depth := by
  induction ps generalizing p fuel x with
  | nil =>
      obtain ⟨fuel, rfl⟩ : ∃ k, fuel = k + 1 := ⟨fuel - 1, by omega⟩
      obtain ⟨hr, hn⟩ := hp p List.mem_cons_self
      simp only [List.map_cons, List.map_nil, joined, List.flatMap_nil, List.append_nil,
        Style.member, quote, hk, List.cons_append, List.append_assoc, List.nil_append,
        List.length_cons, List.length_append] at hf hs
      have hstop : Stops (z ++ cp '\x7d' :: r) := stops_append_ws hz (stops_cons (by decide))
      rw [scanMembers, if_pos rfl, scanString_quoted] at hs
      simp only [bind, Except.bind, skipWs_cons (show isWs (cp ':') = false by decide),
        List.head?_cons, if_true, List.tail_cons, hr.skip hwk] at hs
      obtain ⟨y, hy, -⟩ := bind_eq_ok.mp hs
      exact List.forall_mem_singleton.mpr (hn fuel depth _ y (by omega) hstop hy)
  | cons q qs ih =>
      obtain ⟨fuel, rfl⟩ : ∃ k, fuel = k + 1 := ⟨fuel - 1, by omega⟩
      obtain ⟨⟨hr, hn⟩, hqs⟩ := List.forall_mem_cons.mp hp
      simp only [List.map_cons, joined_cons_cons, List.length_append, List.length_cons] at hf ih hs
      have hmem : ∀ t : Str, st.member (p.1, p.2.1) ++ t =
          cp '"' :: (escape st.ascii p.1 ++ cp '"' :: (cp ':' :: (wk ++ (p.2.1 ++ t)))) := by
        intro t
        simp [Style.member, quote, hk]
      have hlen : p.2.1.length + 1 ≤ (st.member (p.1, p.2.1)).length := by
        simp [Style.member, quote, hk]
        omega
      have hstop : Stops (cp ',' :: w ++
          joined (cp ',' :: w) (st.member (q.1, q.2.1) :: qs.map fun q => st.member (q.1, q.2.1)) ++
          (z ++ cp '\x7d' :: r)) := stops_cons (by decide)
      have hskip : skipWs (w ++ (joined (cp ',' :: w)
            (st.member (q.1, q.2.1) :: qs.map fun q => st.member (q.1, q.2.1)) ++
              (z ++ cp '\x7d' :: r))) =
          joined (cp ',' :: w)
            (st.member (q.1, q.2.1) :: qs.map fun q => st.member (q.1, q.2.1)) ++
              (z ++ cp '\x7d' :: r) := by
        rw [skipWs_append hw]
        simp only [joined, Style.member, quote, List.cons_append]
        exact skipWs_cons (by decide) _
      rw [List.append_assoc, hmem, scanMembers, if_pos rfl, scanString_quoted] at hs
      simp only [bind, Except.bind, skipWs_cons (show isWs (cp ':') = false by decide),
        List.head?_cons, if_true, List.tail_cons, hr.skip hwk] at hs
      obtain ⟨y, hy, hrest⟩ := bind_eq_ok.mp hs
      have hle := hn fuel depth _ y (by omega) hstop hy
      rw [hr.scan fuel depth _ (by omega) hle hstop] at hy
      obtain rfl := Except.ok.inj hy
      simp only [List.cons_append, List.append_assoc,
        skipWs_cons (show isWs (cp ',') = false by decide), List.head?_cons, Option.some.injEq,
        show cp ',' ≠ cp '\x7d' by decide, if_false, if_true, List.tail_cons, hskip] at hrest
      obtain ⟨y, hy, -⟩ := bind_eq_ok.mp hrest
      exact List.forall_mem_cons.mpr ⟨hle, ih q hqs fuel (by omega) hy⟩

/-- A list needs a level more than its items. -/
theorem needs_list {h : Hooks} {st : Style} (hst : st.Valid) (level : Nat) {n : Nat}
    (ps : List (Str × Value × Nat)) (hp : ∀ q ∈ ps, Reads h q.2.2 q.1 q.2.1 ∧ Needs h q.2.2 q.1)
    (hn : ∀ d, (∀ q ∈ ps, q.2.2 ≤ d) → n ≤ d) :
    Needs h (n + 1) (bracket st level (cp '[') (cp ']') (ps.map Prod.fst)) := by
  intro fuel depth r x hf hstop hs
  obtain ⟨fuel, rfl⟩ : ∃ k, fuel = k + 1 := ⟨fuel - 1, by omega⟩
  cases ps with
  | nil =>
      have hn := hn 0 (by simp)
      simp only [List.map_nil, bracket, List.cons_append, List.nil_append, scanOnce,
        show cp '[' ≠ cp '"' by decide, show cp '[' ≠ cp '\x7b' by decide, if_false, if_true] at hs
      split_ifs at hs with hd
      omega
  | cons p ps =>
      obtain ⟨w, hw, hws⟩ := hst.item
      have hnl := st.isWs_newline
      have hsep : ∀ c ∈ w ++ st.newline (level + 1), isWs c = true :=
        List.forall_mem_append.mpr ⟨hws, hnl _⟩
      have hr := (hp p List.mem_cons_self).1
      simp only [List.map_cons, bracket, hw, List.cons_append, List.length_cons, List.append_assoc,
        List.nil_append, List.length_append] at hf hs
      have hskip : skipWs (st.newline (level + 1) ++
            (joined (cp ',' :: (w ++ st.newline (level + 1))) (p.1 :: ps.map Prod.fst) ++
              (st.newline level ++ cp ']' :: r))) =
          joined (cp ',' :: (w ++ st.newline (level + 1))) (p.1 :: ps.map Prod.fst) ++
            (st.newline level ++ cp ']' :: r) := by
        rw [joined, List.append_assoc]
        exact hr.skip (hnl _)
      have hclose : (joined (cp ',' :: (w ++ st.newline (level + 1))) (p.1 :: ps.map Prod.fst) ++
            (st.newline level ++ cp ']' :: r)).head? ≠ some (cp ']') := by
        obtain ⟨c, t, hc, -, hne, -⟩ := hr.head
        simpa [joined, hc] using hne
      simp only [scanOnce, show cp '[' ≠ cp '"' by decide, show cp '[' ≠ cp '\x7b' by decide,
        if_false, if_true, opened, hskip, hclose] at hs
      split_ifs at hs with hd
      obtain ⟨y, hy, -⟩ := bind_eq_ok.mp hs
      have hle := hn (depth - 1) (scanItems_needs hsep (hnl level) ps p hp fuel
        (by simp only [List.map_cons]; omega) hy)
      omega

/-- An object needs a level more than its values. -/
theorem needs_object {h : Hooks} {st : Style} (hst : st.Valid) (level : Nat) {n : Nat}
    (ps : List (Str × Str × Value × Nat))
    (hp : ∀ q ∈ ps, Reads h q.2.2.2 q.2.1 q.2.2.1 ∧ Needs h q.2.2.2 q.2.1)
    (hn : ∀ d, (∀ q ∈ ps, q.2.2.2 ≤ d) → n ≤ d) :
    Needs h (n + 1) (bracket st level (cp '\x7b') (cp '\x7d')
      (ps.map fun q => st.member (q.1, q.2.1))) := by
  intro fuel depth r x hf hstop hs
  obtain ⟨fuel, rfl⟩ : ∃ k, fuel = k + 1 := ⟨fuel - 1, by omega⟩
  cases ps with
  | nil =>
      have hn := hn 0 (by simp)
      simp only [List.map_nil, bracket, List.cons_append, List.nil_append, scanOnce,
        show cp '\x7b' ≠ cp '"' by decide, if_false, if_true] at hs
      split_ifs at hs with hd
      omega
  | cons p ps =>
      obtain ⟨w, hw, hws⟩ := hst.item
      obtain ⟨wk, hk, hwk⟩ := hst.key
      have hnl := st.isWs_newline
      have hsep : ∀ c ∈ w ++ st.newline (level + 1), isWs c = true :=
        List.forall_mem_append.mpr ⟨hws, hnl _⟩
      simp only [List.map_cons, bracket, hw, List.cons_append, List.length_cons, List.append_assoc,
        List.nil_append, List.length_append] at hf hs
      have hskip : skipWs (st.newline (level + 1) ++
            (joined (cp ',' :: (w ++ st.newline (level + 1)))
              (st.member (p.1, p.2.1) :: ps.map fun q => st.member (q.1, q.2.1)) ++
              (st.newline level ++ cp '\x7d' :: r))) =
          joined (cp ',' :: (w ++ st.newline (level + 1)))
            (st.member (p.1, p.2.1) :: ps.map fun q => st.member (q.1, q.2.1)) ++
            (st.newline level ++ cp '\x7d' :: r) := by
        rw [skipWs_append (hnl _)]
        simp only [joined, Style.member, quote, List.cons_append]
        exact skipWs_cons (by decide) _
      have hclose : (joined (cp ',' :: (w ++ st.newline (level + 1)))
            (st.member (p.1, p.2.1) :: ps.map fun q => st.member (q.1, q.2.1)) ++
            (st.newline level ++ cp '\x7d' :: r)).head? ≠ some (cp '\x7d') := by
        simp [joined, Style.member, quote, show cp '"' ≠ cp '\x7d' by decide]
      simp only [scanOnce, show cp '\x7b' ≠ cp '"' by decide, if_false, if_true, opened, hskip,
        hclose] at hs
      split_ifs at hs with hd
      obtain ⟨y, hy, -⟩ := bind_eq_ok.mp hs
      have hle := hn (depth - 1) (scanMembers_needs hsep hk hwk (hnl level) ps p hp fuel
        (by simp only [List.map_cons]; omega) hy)
      omega

mutual
/-- A legible value that was written needs as many levels as it nests. -/
theorem needs_dump {st : Style} (hst : st.Printed) : ∀ (level : Nat) (v : Value) (t : Str),
    Legible v → dump st level v = .ok t → Needs Hooks.default v.nest t
  | _, .null, _, _, _ => needs_zero _ _
  | _, .bool _, _, _, _ => needs_zero _ _
  | _, .int _, _, _, _ => needs_zero _ _
  | _, .float _, _, _, _ => needs_zero _ _
  | _, .str _, _, _, _ => needs_zero _ _
  | _, .other _, _, _, _ => needs_zero _ _
  | level, .list xs, t, hl, h => by
      rw [dump] at h
      obtain ⟨ts, hts, h⟩ := bind_eq_ok.mp h
      obtain rfl := Except.ok.inj h
      obtain ⟨ps, rfl, hps, hn⟩ := needs_dumpItems hst (level + 1) xs ts hl hts
      exact needs_list hst.valid level ps hps hn
  | level, .tuple xs, t, hl, h => by
      rw [dump] at h
      obtain ⟨ts, hts, h⟩ := bind_eq_ok.mp h
      obtain rfl := Except.ok.inj h
      obtain ⟨ps, rfl, hps, hn⟩ := needs_dumpItems hst (level + 1) xs ts hl hts
      exact needs_list hst.valid level ps hps hn
  | level, .dict kvs, t, hl, h => by
      rw [dump] at h
      obtain ⟨ts, hts, h⟩ := bind_eq_ok.mp h
      obtain rfl := Except.ok.inj h
      obtain ⟨ps, rfl, hps, hn⟩ := needs_dumpMembers hst (level + 1) kvs ts hl hts
      have hperm := st.order_perm ps
      have hmap : (st.order (ps.map fun q => (q.1, q.2.1))).map st.member =
          (st.order ps).map fun q => st.member (q.1, q.2.1) := by
        rw [st.order_map Prod.fst, List.map_map]
        rfl
      rw [hmap]
      refine needs_object hst.valid level _ (fun q hq => hps q (hperm.mem_iff.mp hq)) fun d hd => ?_
      exact hn d fun q hq => hd q (hperm.mem_iff.mpr hq)
/-- The same for items. -/
theorem needs_dumpItems {st : Style} (hst : st.Printed) : ∀ (level : Nat) (xs : List Value)
    (ts : List Str), LegibleItems xs → dumpItems st level xs = .ok ts →
      ∃ ps : List (Str × Value × Nat), ts = ps.map Prod.fst ∧
        (∀ q ∈ ps, Reads Hooks.default q.2.2 q.1 q.2.1 ∧ Needs Hooks.default q.2.2 q.1) ∧
        ∀ d, (∀ q ∈ ps, q.2.2 ≤ d) → Value.nestItems xs ≤ d
  | _, [], _, _, h => by
      obtain rfl := Except.ok.inj h
      exact ⟨[], rfl, by simp, fun d _ => Nat.zero_le d⟩
  | level, x :: xs, _, hl, h => by
      rw [dumpItems] at h
      obtain ⟨t, ht, h⟩ := bind_eq_ok.mp h
      obtain ⟨ts, hts, h⟩ := bind_eq_ok.mp h
      obtain rfl := Except.ok.inj h
      obtain ⟨t', ht', hr, -⟩ := readsAs_reread hst level x t hl.1 ht
      obtain rfl := Except.ok.inj (ht.symm.trans ht')
      obtain ⟨ps, rfl, hps, hn⟩ := needs_dumpItems hst level xs ts hl.2 hts
      refine ⟨(t, reread st x, x.nest) :: ps, rfl,
        List.forall_mem_cons.mpr ⟨⟨hr, needs_dump hst level x t hl.1 ht⟩, hps⟩, fun d hd => ?_⟩
      obtain ⟨hx, hxs⟩ := List.forall_mem_cons.mp hd
      exact max_le hx (hn d hxs)
/-- The same for members. -/
theorem needs_dumpMembers {st : Style} (hst : st.Printed) : ∀ (level : Nat)
    (kvs : List (Key × Value)) (ts : List (Str × Str)), LegibleMembers kvs →
      dumpMembers st level kvs = .ok ts →
      ∃ ps : List (Str × Str × Value × Nat), ts = ps.map (fun q => (q.1, q.2.1)) ∧
        (∀ q ∈ ps, Reads Hooks.default q.2.2.2 q.2.1 q.2.2.1 ∧ Needs Hooks.default q.2.2.2 q.2.1) ∧
        ∀ d, (∀ q ∈ ps, q.2.2.2 ≤ d) → Value.nestMembers kvs ≤ d
  | _, [], _, _, h => by
      obtain rfl := Except.ok.inj h
      exact ⟨[], rfl, by simp, fun d _ => Nat.zero_le d⟩
  | _, (.other _, _) :: _, _, _, h => by cases h
  | level, (.str k, v) :: rest, _, hl, h => by
      rw [dumpMembers] at h
      obtain ⟨t, ht, h⟩ := bind_eq_ok.mp h
      obtain ⟨ts, hts, h⟩ := bind_eq_ok.mp h
      obtain rfl := Except.ok.inj h
      obtain ⟨t', ht', hr, -⟩ := readsAs_reread hst level v t hl.1 ht
      obtain rfl := Except.ok.inj (ht.symm.trans ht')
      obtain ⟨ps, rfl, hps, hn⟩ := needs_dumpMembers hst level rest ts hl.2 hts
      refine ⟨(k, t, reread st v, v.nest) :: ps, rfl,
        List.forall_mem_cons.mpr ⟨⟨hr, needs_dump hst level v t hl.1 ht⟩, hps⟩, fun d hd => ?_⟩
      obtain ⟨hx, hxs⟩ := List.forall_mem_cons.mp hd
      exact max_le hx (hn d hxs)
end

/-- What is read from the text of a legible value: the value read back, if the limit takes it. -/
theorem loads_dump {st : Style} (hst : st.Printed) {v : Value} (hl : Legible v) {t : Str}
    (ht : dump st 0 v = .ok t) {limit : Nat} {w : Value} :
    loads limit t = .ok w ↔ v.nest ≤ limit ∧ w = reread st v := by
  obtain ⟨t', ht', hr, -⟩ := readsAs_reread hst 0 v t hl ht
  obtain rfl := Except.ok.inj (ht.symm.trans ht')
  constructor
  · intro h
    refine ⟨?_, hr.eq_of_loadsWith (w := []) (by simp) (by rwa [List.append_nil])⟩
    unfold loads Json.loadsWith at h
    split_ifs at h
    obtain ⟨⟨u, rest⟩, hs, -⟩ := bind_eq_ok.mp h
    obtain ⟨c, s, hc, hws, -⟩ := hr.head
    have hskip : skipWs t = t ++ [] := by
      rw [List.append_nil, hc]
      exact skipWs_cons hws s
    rw [hskip] at hs
    exact needs_dump hst 0 v t hl ht _ _ [] _ (by omega) stops_nil hs
  · rintro ⟨hn, rfl⟩
    have h := hr.loadsWith (w := []) hn (by simp)
    rwa [List.append_nil] at h

end IcsDeception.Json
