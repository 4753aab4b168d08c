import IcsDeception.Lib.Json.Lexical

/-!
# Reading what was written

`dump_reads` states that the text written for a value is read back as the value's
normal form, in every style whose separators are a comma and a colon with
whitespace behind them. Written text therefore determines the normal form.

## Implementation notes

`Reads` speaks about a text with any continuation behind it, so that the lemmas
for containers compose. The continuation must not continue a number.
-/

namespace IcsDeception.Json

open Text Decimal

/-- A text that is scanned as a value wherever it stands, with `need` levels of nesting. -/
structure Reads (h : Hooks) (need : Nat) (text : Str) (v : Value) : Prop where
  head : ∃ c t, text = c :: t ∧ isWs c = false ∧ c ≠ cp ']' ∧ c ≠ bom
  scan : ∀ fuel depth r, 2 * text.length + 1 ≤ fuel → need ≤ depth → Stops r →
    scanOnce h fuel depth (text ++ r) = .ok (v, r)

theorem Reads.mono {h : Hooks} {need need' : Nat} {text : Str} {v : Value}
    (hr : Reads h need text v) (hn : need ≤ need') : Reads h need' text v :=
  ⟨hr.head, fun fuel depth r hf hd hs => hr.scan fuel depth r hf (hn.trans hd) hs⟩

theorem skipWs_append {w r : Str} (hw : ∀ c ∈ w, isWs c = true) : skipWs (w ++ r) = skipWs r :=
  List.dropWhile_append_of_pos hw

theorem skipWs_cons {c : CodePoint} (hc : isWs c = false) (r : Str) :
    skipWs (c :: r) = c :: r := by
  simp [skipWs, hc]

theorem Reads.skip {h : Hooks} {need : Nat} {text : Str} {v : Value} (hr : Reads h need text v)
    {w r : Str} (hw : ∀ c ∈ w, isWs c = true) : skipWs (w ++ (text ++ r)) = text ++ r := by
  obtain ⟨c, t, rfl, hc, -⟩ := hr.head
  rw [skipWs_append hw]
  exact skipWs_cons hc _

/-! ## Scalars -/

theorem reads_null (h : Hooks) : Reads h 0 (lit "null") .null where
  head := ⟨_, _, rfl, by decide, by decide, by decide⟩
  scan := by
    intro fuel depth r hf _ _
    obtain ⟨fuel, rfl⟩ : ∃ k, fuel = k + 1 := ⟨fuel - 1, by omega⟩
    rfl

theorem reads_bool (h : Hooks) (b : Bool) :
    Reads h 0 (lit (if b then "true" else "false")) (.bool b) where
  head := by cases b <;> exact ⟨_, _, rfl, by decide, by decide, by decide⟩
  scan := by
    intro fuel depth r hf _ _
    obtain ⟨fuel, rfl⟩ : ∃ k, fuel = k + 1 := ⟨fuel - 1, by omega⟩
    cases b <;> rfl

theorem reads_str (h : Hooks) (st : Style) (s : Str) :
    Reads h 0 (quote st.ascii s) (.str (st.readBack s)) where
  head := ⟨_, _, rfl, by decide, by decide, by decide⟩
  scan := by
    intro fuel depth r hf _ _
    obtain ⟨fuel, rfl⟩ : ∃ k, fuel = k + 1 := ⟨fuel - 1, by omega⟩
    simp only [quote, List.cons_append, List.append_assoc, List.nil_append, scanOnce, if_true,
      scanString_quoted]
    rfl

/-- Which characters can start an integer. -/
theorem intText_head (i : Int) :
    ∃ c t, intText i = c :: t ∧ (isDigit c = true ∨ c = cp '-' ∧ ∃ d u, t = d :: u ∧ isDigit d = true) := by
  obtain ⟨c, t, ht⟩ := List.exists_cons_of_ne_nil (natText_ne_nil i.natAbs)
  have hd : isDigit c = true := isDigit_of_mem_natText (n := i.natAbs) (by simp [ht])
  unfold intText
  split_ifs with hneg
  · exact ⟨_, _, rfl, Or.inr ⟨rfl, c, t, ht, hd⟩⟩
  · exact ⟨c, t, ht, Or.inl hd⟩

theorem isPrefixOf_cons_ne {c d : CodePoint} (h : d ≠ c) (q t : Str) :
    (d :: q).isPrefixOf (c :: t) = false := by
  simp only [List.isPrefixOf, Bool.and_eq_false_iff, beq_eq_false_iff_ne]
  exact Or.inl h

/-- No literal name starts like an integer. -/
theorem literal_isPrefixOf_intText (i : Int) (r : Str) (d : CodePoint) (q : Str)
    (hd : isDigit d = false) (hm : d ≠ cp '-') : (d :: q).isPrefixOf (intText i ++ r) = false := by
  obtain ⟨c, t, ht, hc⟩ := intText_head i
  rw [ht, List.cons_append]
  apply isPrefixOf_cons_ne
  rintro rfl
  rcases hc with hc | ⟨hc, -⟩
  · rw [hc] at hd
    cases hd
  · exact hm hc

theorem minusInfinity_isPrefixOf_intText (i : Int) (r : Str) :
    (lit "-Infinity").isPrefixOf (intText i ++ r) = false := by
  have h₀ : lit "-Infinity" = cp '-' :: cp 'I' :: lit "nfinity" := by decide
  obtain ⟨c, t, ht, hc⟩ := intText_head i
  rw [h₀, ht, List.cons_append]
  rcases hc with hc | ⟨rfl, d, u, rfl, hd⟩
  · apply isPrefixOf_cons_ne
    rintro rfl
    exact absurd hc (by decide)
  · have hd' : cp 'I' ≠ d := by
      rintro rfl
      exact absurd hd (by decide)
    rw [List.cons_append, List.isPrefixOf, isPrefixOf_cons_ne hd', Bool.and_false]

theorem scanScalar_intText (h : Hooks) (i : Int) (r : Str) :
    scanScalar h (intText i ++ r) = scanNumber (intText i ++ r) := by
  have h₁ : (lit "null").isPrefixOf (intText i ++ r) = false :=
    literal_isPrefixOf_intText i r _ _ (by decide) (by decide)
  have h₂ : (lit "true").isPrefixOf (intText i ++ r) = false :=
    literal_isPrefixOf_intText i r _ _ (by decide) (by decide)
  have h₃ : (lit "false").isPrefixOf (intText i ++ r) = false :=
    literal_isPrefixOf_intText i r _ _ (by decide) (by decide)
  have h₄ : (lit "NaN").isPrefixOf (intText i ++ r) = false :=
    literal_isPrefixOf_intText i r _ _ (by decide) (by decide)
  have h₅ : (lit "Infinity").isPrefixOf (intText i ++ r) = false :=
    literal_isPrefixOf_intText i r _ _ (by decide) (by decide)
  simp only [scanScalar, h₁, h₂, h₃, h₄, h₅, minusInfinity_isPrefixOf_intText,
    Bool.false_eq_true, if_false]

theorem reads_int (h : Hooks) (i : Int) (hi : (natText i.natAbs).length ≤ maxDigits) :
    Reads h 0 (intText i) (.int i) where
  head := by
    obtain ⟨c, t, ht, hc⟩ := intText_head i
    refine ⟨c, t, ht, ?_, ?_, ?_⟩
    · cases hw : isWs c with
      | false => rfl
      | true =>
          rcases isWs_iff.mp hw with rfl | rfl | rfl | rfl <;>
            rcases hc with hc | ⟨hc, -⟩ <;> exact absurd hc (by decide)
    · rintro rfl
      rcases hc with hc | ⟨hc, -⟩ <;> exact absurd hc (by decide)
    · rintro rfl
      rcases hc with hc | ⟨hc, -⟩ <;> exact absurd hc (by decide)
  scan := by
    intro fuel depth r hf _ hr
    obtain ⟨fuel, rfl⟩ : ∃ k, fuel = k + 1 := ⟨fuel - 1, by omega⟩
    obtain ⟨c, t, ht, hc⟩ := intText_head i
    have hs := scanScalar_intText h i r
    have hn := scanNumber_intText i hi hr
    rw [ht, List.cons_append] at hs hn ⊢
    have hne : c ≠ cp '"' ∧ c ≠ cp '{' ∧ c ≠ cp '[' := by
      refine ⟨?_, ?_, ?_⟩ <;> rintro rfl <;> rcases hc with hc | ⟨hc, -⟩ <;>
        exact absurd hc (by decide)
    rw [scanOnce, if_neg hne.1, if_neg hne.2.1, if_neg hne.2.2, hs, hn]

/-! ## Containers -/

theorem joined_cons_cons (sep x y : Str) (ys : List Str) :
    joined sep (x :: y :: ys) = x ++ (sep ++ joined sep (y :: ys)) := by
  simp [joined]

/-- The items between brackets, each with its value, are scanned in order. -/
theorem scanItems_joined {h : Hooks} {need depth : Nat} {w z r : Str}
    (hw : ∀ c ∈ w, isWs c = true) (hz : ∀ c ∈ z, isWs c = true) (hd : need ≤ depth)
    (ps : List (Str × Value)) (p : Str × Value) (hp : ∀ q ∈ p :: ps, Reads h need q.1 q.2)
    (fuel : Nat)
    (hf : 2 * (joined (cp ',' :: w) ((p :: ps).map Prod.fst)).length + 2 ≤ fuel) :
    scanItems h fuel depth (joined (cp ',' :: w) ((p :: ps).map Prod.fst) ++ (z ++ cp ']' :: r)) =
      .ok ((p :: ps).map Prod.snd, r) := by
  induction ps generalizing p fuel with
  | nil =>
      obtain ⟨fuel, rfl⟩ : ∃ k, fuel = k + 1 := ⟨fuel - 1, by omega⟩
      have hr := hp p (by simp)
      have hj : joined (cp ',' :: w) [p.1] = p.1 := by simp [joined]
      simp only [List.map_cons, List.map_nil, hj] at hf ⊢
      have hs : Stops (z ++ cp ']' :: r) := stops_append_ws hz (stops_cons (by decide))
      rw [scanItems, hr.scan fuel depth _ (by omega) hd hs]
      simp only [bind, Except.bind, skipWs_append hz, skipWs_cons (show isWs (cp ']') = false by decide),
        List.head?_cons, if_true, List.tail_cons]
      rfl
  | cons q qs ih =>
      obtain ⟨fuel, rfl⟩ : ∃ k, fuel = k + 1 := ⟨fuel - 1, by omega⟩
      have hr := hp p (by simp)
      have hq := hp q (by simp)
      have hlen := hr.head
      obtain ⟨c, t, hc, -⟩ := hlen
      have hpos : 0 < p.1.length := by simp [hc]
      simp only [List.map_cons, joined_cons_cons, List.length_append, List.length_cons] at hf ih ⊢
      have hs : Stops (cp ',' :: w ++ joined (cp ',' :: w) (q.1 :: qs.map Prod.fst) ++
          (z ++ cp ']' :: r)) := stops_cons (by decide)
      have hskip : skipWs (w ++ (joined (cp ',' :: w) (q.1 :: qs.map Prod.fst) ++ (z ++ cp ']' :: r))) =
          joined (cp ',' :: w) (q.1 :: qs.map Prod.fst) ++ (z ++ cp ']' :: r) := by
        rw [joined, List.append_assoc]
        exact hq.skip hw
      rw [scanItems, List.append_assoc, hr.scan fuel depth _ (by omega) hd hs]
      simp only [bind, Except.bind, List.cons_append, List.append_assoc,
        skipWs_cons (show isWs (cp ',') = false by decide), List.head?_cons, Option.some.injEq,
        show cp ',' ≠ cp ']' by decide, if_false, if_true, List.tail_cons, hskip,
        ih q (fun x hx => hp x (by simp [List.mem_cons.mp hx])) fuel (by omega)]
      rfl

/-- The members between braces, each with its key and value, are scanned in order. -/
theorem scanMembers_joined {h : Hooks} {need depth : Nat} {st : Style} {w wk z r : Str}
    (hw : ∀ c ∈ w, isWs c = true) (hk : st.keySeparator = cp ':' :: wk)
    (hwk : ∀ c ∈ wk, isWs c = true) (hz : ∀ c ∈ z, isWs c = true) (hd : need ≤ depth)
    (ps : List (Str × Str × Value)) (p : Str × Str × Value)
    (hp : ∀ q ∈ p :: ps, Reads h need q.2.1 q.2.2) (fuel : Nat)
    (hf : 2 * (joined (cp ',' :: w) ((p :: ps).map fun q => st.member (q.1, q.2.1))).length + 1 ≤
      fuel) :
    scanMembers h fuel depth
        (joined (cp ',' :: w) ((p :: ps).map fun q => st.member (q.1, q.2.1)) ++
          (z ++ cp '}' :: r)) =
      .ok ((p :: ps).map fun q => (st.readBack q.1, q.2.2), r) := by
  induction ps generalizing p fuel with
  | nil =>
      obtain ⟨fuel, rfl⟩ : ∃ k, fuel = k + 1 := ⟨fuel - 1, by omega⟩
      have hr := hp p (by simp)
      simp only [List.map_cons, List.map_nil, joined, List.flatMap_nil, List.append_nil,
        Style.member, quote, hk, List.cons_append, List.append_assoc, List.nil_append,
        List.length_cons, List.length_append] at hf ⊢
      have hs : Stops (z ++ cp '}' :: r) := stops_append_ws hz (stops_cons (by decide))
      rw [scanMembers, if_pos rfl, scanString_quoted]
      simp only [bind, Except.bind, skipWs_cons (show isWs (cp ':') = false by decide),
        List.head?_cons, if_true, List.tail_cons, hr.skip hwk,
        hr.scan fuel depth _ (by omega) hd hs, skipWs_append hz,
        skipWs_cons (show isWs (cp '}') = false by decide)]
      rfl
  | cons q qs ih =>
      obtain ⟨fuel, rfl⟩ : ∃ k, fuel = k + 1 := ⟨fuel - 1, by omega⟩
      have hr := hp p (by simp)
      have hq := hp q (by simp)
      simp only [List.map_cons, joined_cons_cons, List.length_append, List.length_cons] at hf ih ⊢
      have hmem : ∀ t : Str, st.member (p.1, p.2.1) ++ t =
          cp '"' :: (escape st.ascii p.1 ++ cp '"' :: (cp ':' :: (wk ++ (p.2.1 ++ t)))) := by
        intro t
        simp [Style.member, quote, hk]
      have hlen : p.2.1.length + 1 ≤ (st.member (p.1, p.2.1)).length := by
        simp [Style.member, quote, hk]
        omega
      have hs : Stops (cp ',' :: w ++
          joined (cp ',' :: w) (st.member (q.1, q.2.1) :: qs.map fun q => st.member (q.1, q.2.1)) ++
          (z ++ cp '}' :: r)) := stops_cons (by decide)
      have hskip : skipWs (w ++ (joined (cp ',' :: w)
            (st.member (q.1, q.2.1) :: qs.map fun q => st.member (q.1, q.2.1)) ++ (z ++ cp '}' :: r))) =
          joined (cp ',' :: w)
            (st.member (q.1, q.2.1) :: qs.map fun q => st.member (q.1, q.2.1)) ++ (z ++ cp '}' :: r) := by
        rw [skipWs_append hw]
        simp only [joined, Style.member, quote, List.cons_append]
        exact skipWs_cons (by decide) _
      rw [List.append_assoc, hmem, scanMembers, if_pos rfl, scanString_quoted]
      simp only [bind, Except.bind, skipWs_cons (show isWs (cp ':') = false by decide),
        List.head?_cons, if_true, List.tail_cons, hr.skip hwk,
        hr.scan fuel depth _ (by omega) hd hs]
      simp only [List.cons_append, List.append_assoc,
        skipWs_cons (show isWs (cp ',') = false by decide), List.head?_cons, Option.some.injEq,
        show cp ',' ≠ cp '}' by decide, if_false, if_true, List.tail_cons, hskip,
        ih q (fun x hx => hp x (by simp [List.mem_cons.mp hx])) fuel (by omega)]
      rfl

/-- A style whose separators are a comma and a colon with whitespace behind them. -/
structure Style.Valid (st : Style) : Prop where
  item : ∃ w, st.itemSeparator = cp ',' :: w ∧ ∀ c ∈ w, isWs c = true
  key : ∃ w, st.keySeparator = cp ':' :: w ∧ ∀ c ∈ w, isWs c = true

theorem isWs_space : ∀ c ∈ [cp ' '], isWs c = true :=
  List.forall_mem_singleton.mpr (by decide)

theorem Style.valid_default : Style.default.Valid :=
  ⟨⟨[cp ' '], by decide, isWs_space⟩, ⟨[cp ' '], by decide, isWs_space⟩⟩

theorem Style.valid_indented : Style.indented.Valid :=
  ⟨⟨[], by decide, by simp⟩, ⟨[cp ' '], by decide, isWs_space⟩⟩

theorem Style.valid_compact : Style.compact.Valid :=
  ⟨⟨[], by decide, by simp⟩, ⟨[], by decide, by simp⟩⟩

theorem Style.isWs_newline (st : Style) (level : Nat) :
    ∀ c ∈ st.newline level, isWs c = true := by
  unfold Style.newline
  cases st.indent with
  | none => simp
  | some n =>
      intro c hc
      rcases List.mem_cons.mp hc with rfl | hc
      · decide
      · rw [List.eq_of_mem_replicate hc]
        decide

/-- Hooks that build a dictionary from pairs without a repeated key. -/
def Hooks.Plain (h : Hooks) : Prop :=
  ∀ pairs : List (Str × Value), (pairs.map Prod.fst).Nodup →
    h.objectPairs pairs = .ok (Value.ofMembers pairs)

theorem Hooks.plain_default : Hooks.default.Plain := by
  intro pairs hn
  simp only [Hooks.default, dictOfPairs_of_nodup hn]

theorem reads_list {h : Hooks} {st : Style} (hst : st.Valid) {need : Nat} (level : Nat)
    (ps : List (Str × Value)) (hp : ∀ q ∈ ps, Reads h need q.1 q.2) :
    Reads h (need + 1) (bracket st level (cp '[') (cp ']') (ps.map Prod.fst))
      (.list (ps.map Prod.snd)) where
  head := by cases ps <;> exact ⟨_, _, rfl, by decide, by decide, by decide⟩
  scan := by
    intro fuel depth r hf hd hs
    obtain ⟨fuel, rfl⟩ : ∃ k, fuel = k + 1 := ⟨fuel - 1, by omega⟩
    have hd0 : depth ≠ 0 := by omega
    cases ps with
    | nil =>
        simp only [List.map_nil, bracket, List.cons_append, List.nil_append, scanOnce,
          show cp '[' ≠ cp '"' by decide, show cp '[' ≠ cp '{' by decide, if_false, if_true, hd0,
          opened, skipWs_cons (show isWs (cp ']') = false by decide), List.head?_cons,
          List.tail_cons]
        rfl
    | cons p ps =>
        obtain ⟨w, hw, hws⟩ := hst.item
        have hnl := st.isWs_newline
        have hsep : ∀ c ∈ w ++ st.newline (level + 1), isWs c = true := by
          intro c hc
          rcases List.mem_append.mp hc with hc | hc
          · exact hws c hc
          · exact hnl _ c hc
        have hr := hp p (by simp)
        simp only [List.map_cons, bracket, hw, List.cons_append, List.length_cons, List.append_assoc,
          List.nil_append, List.length_append] at hf ⊢
        have hskip : skipWs (st.newline (level + 1) ++
              (joined (cp ',' :: (w ++ st.newline (level + 1))) (p.1 :: ps.map Prod.fst) ++
                (st.newline level ++ cp ']' :: r))) =
            joined (cp ',' :: (w ++ st.newline (level + 1))) (p.1 :: ps.map Prod.fst) ++
              (st.newline level ++ cp ']' :: r) := by
          rw [joined, List.append_assoc]
          exact hr.skip (hnl _)
        have hclose : (joined (cp ',' :: (w ++ st.newline (level + 1))) (p.1 :: ps.map Prod.fst) ++
              (st.newline level ++ cp ']' :: r)).head? ≠ some (cp ']') := by
          obtain ⟨c, t, hc, -, hne, -⟩ := hr.head
          simpa [joined, hc] using hne
        have hitems := scanItems_joined (r := r) hsep (hnl level) (show need ≤ depth - 1 by omega)
          ps p hp fuel (by simp only [List.map_cons]; omega)
        simp only [List.map_cons] at hitems
        simp only [scanOnce, show cp '[' ≠ cp '"' by decide, show cp '[' ≠ cp '{' by decide,
          if_false, if_true, hd0, opened, hskip, hclose, hitems]
        rfl

/-- Written members are read as what the hook makes of them. -/
theorem reads_object {h : Hooks} {st : Style} (hst : st.Valid) {need : Nat} (level : Nat)
    (ps : List (Str × Str × Value)) (hp : ∀ q ∈ ps, Reads h need q.2.1 q.2.2) {v : Value}
    (hpairs : h.objectPairs (ps.map fun q => (st.readBack q.1, q.2.2)) = .ok v) :
    Reads h (need + 1)
      (bracket st level (cp '{') (cp '}') (ps.map fun q => st.member (q.1, q.2.1))) v where
  head := by cases ps <;> exact ⟨_, _, rfl, by decide, by decide, by decide⟩
  scan := by
    intro fuel depth r hf hd hs
    obtain ⟨fuel, rfl⟩ : ∃ k, fuel = k + 1 := ⟨fuel - 1, by omega⟩
    have hd0 : depth ≠ 0 := by omega
    cases ps with
    | nil =>
        simp only [List.map_nil] at hpairs
        simp only [List.map_nil, bracket, List.cons_append, List.nil_append, scanOnce,
          show cp '{' ≠ cp '"' by decide, if_false, if_true, hd0, opened,
          skipWs_cons (show isWs (cp '}') = false by decide), List.head?_cons, List.tail_cons,
          bind, Except.bind, hpairs]
        rfl
    | cons p ps =>
        obtain ⟨w, hw, hws⟩ := hst.item
        obtain ⟨wk, hk, hwk⟩ := hst.key
        have hnl := st.isWs_newline
        have hsep : ∀ c ∈ w ++ st.newline (level + 1), isWs c = true := by
          intro c hc
          rcases List.mem_append.mp hc with hc | hc
          · exact hws c hc
          · exact hnl _ c hc
        simp only [List.map_cons, bracket, hw, List.cons_append, List.length_cons, List.append_assoc,
          List.nil_append, List.length_append] at hf ⊢
        have hskip : skipWs (st.newline (level + 1) ++
              (joined (cp ',' :: (w ++ st.newline (level + 1)))
                (st.member (p.1, p.2.1) :: ps.map fun q => st.member (q.1, q.2.1)) ++
                (st.newline level ++ cp '}' :: r))) =
            joined (cp ',' :: (w ++ st.newline (level + 1)))
              (st.member (p.1, p.2.1) :: ps.map fun q => st.member (q.1, q.2.1)) ++
              (st.newline level ++ cp '}' :: r) := by
          rw [skipWs_append (hnl _)]
          simp only [joined, Style.member, quote, List.cons_append]
          exact skipWs_cons (by decide) _
        have hclose : (joined (cp ',' :: (w ++ st.newline (level + 1)))
              (st.member (p.1, p.2.1) :: ps.map fun q => st.member (q.1, q.2.1)) ++
              (st.newline level ++ cp '}' :: r)).head? ≠ some (cp '}') := by
          simp [joined, Style.member, quote, show cp '"' ≠ cp '}' by decide]
        have hms := scanMembers_joined (r := r) hsep hk hwk (hnl level)
          (show need ≤ depth - 1 by omega) ps p hp fuel (by simp only [List.map_cons]; omega)
        simp only [List.map_cons] at hms hpairs
        simp only [scanOnce, show cp '{' ≠ cp '"' by decide, if_false, if_true, hd0, opened, hskip,
          hclose, hms, bind, Except.bind, hpairs]
        rfl

theorem reads_dict {h : Hooks} (hh : h.Plain) {st : Style} (hst : st.Valid) {need : Nat}
    (level : Nat) (ps : List (Str × Str × Value)) (hp : ∀ q ∈ ps, Reads h need q.2.1 q.2.2)
    (hn : (ps.map fun q => st.readBack q.1).Nodup) :
    Reads h (need + 1)
      (bracket st level (cp '{') (cp '}') (ps.map fun q => st.member (q.1, q.2.1)))
      (Value.ofMembers (ps.map fun q => (st.readBack q.1, q.2.2))) := by
  apply reads_object hst level ps hp
  apply hh
  rwa [List.map_map]

/-! ## Values -/

mutual
/-- The values a style writes so that they can be read back. -/
def Writable (st : Style) : Value → Prop
  | .int i => (natText i.natAbs).length ≤ maxDigits
  | .float _ => False
  | .other _ => False
  | .list xs => WritableItems st xs
  | .tuple xs => WritableItems st xs
  | .dict kvs => (kvs.map Prod.fst).Nodup ∧ WritableMembers st kvs
  | _ => True
/-- Every item is writable. -/
def WritableItems (st : Style) : List Value → Prop
  | [] => True
  | v :: vs => Writable st v ∧ WritableItems st vs
/-- Every member has a text key, of scalar values if written in ASCII, and a writable value. -/
def WritableMembers (st : Style) : List (Key × Value) → Prop
  | [] => True
  | (.str k, v) :: rest => (st.ascii = true → Scalar k) ∧ Writable st v ∧ WritableMembers st rest
  | (.other _, _) :: _ => False
end

theorem Style.readBack_eq_self {st : Style} {k : Str} (h : st.ascii = true → Scalar k) :
    st.readBack k = k := by
  unfold Style.readBack
  split_ifs with ha
  · exact joinSurrogates_of_scalar (h ha)
  · rfl

theorem sortMembers_map {α β : Type} (f : α → β) (ms : List (Str × α)) :
    sortMembers (ms.map fun p => (p.1, f p.2)) = (sortMembers ms).map fun p => (p.1, f p.2) := by
  unfold sortMembers
  exact (List.map_insertionSort (r := fun p q : Str × α => p.1 ≤ q.1)
    (s := fun p q : Str × β => p.1 ≤ q.1) _ ms fun _ _ _ _ => Iff.rfl).symm

theorem Style.order_map {α β : Type} (st : Style) (f : α → β) (ms : List (Str × α)) :
    st.order (ms.map fun p => (p.1, f p.2)) = (st.order ms).map fun p => (p.1, f p.2) := by
  unfold Style.order
  split_ifs
  · exact sortMembers_map f ms
  · rfl

theorem Style.order_perm {α : Type} (st : Style) (ms : List (Str × α)) : (st.order ms).Perm ms := by
  unfold Style.order
  split_ifs
  · exact List.perm_insertionSort _ _
  · exact List.Perm.refl _

mutual
/-- What a style writes is read back as the normal form. -/
theorem dump_reads {h : Hooks} (hh : h.Plain) {st : Style} (hst : st.Valid) :
    ∀ (level : Nat) (v : Value), Writable st v →
      ∃ text, dump st level v = .ok text ∧ Reads h v.nest text (norm st v)
  | _, .null, _ => ⟨_, rfl, reads_null h⟩
  | _, .bool b, _ => ⟨_, rfl, reads_bool h b⟩
  | _, .int i, hw => by
      rw [Writable] at hw
      refine ⟨intText i, ?_, reads_int h i hw⟩
      rw [dump, dumpInt, if_neg (Nat.not_lt.mpr hw)]
  | _, .float _, hw => by simp [Writable] at hw
  | _, .other _, hw => by simp [Writable] at hw
  | _, .str s, _ => ⟨_, rfl, reads_str h st s⟩
  | level, .list xs, hw => by
      obtain ⟨ps, hd, hn, hr⟩ := dumpItems_reads hh hst (level + 1) xs (by rwa [Writable] at hw)
      refine ⟨_, by rw [dump, hd]; rfl, ?_⟩
      rw [norm, hn]
      exact reads_list hst level ps hr
  | level, .tuple xs, hw => by
      obtain ⟨ps, hd, hn, hr⟩ := dumpItems_reads hh hst (level + 1) xs (by rwa [Writable] at hw)
      refine ⟨_, by rw [dump, hd]; rfl, ?_⟩
      rw [norm, hn]
      exact reads_list hst level ps hr
  | level, .dict kvs, hw => by
      rw [Writable] at hw
      obtain ⟨ps, hd, hn, hk, hr⟩ := dumpMembers_reads hh hst (level + 1) kvs hw.2
      have hperm := st.order_perm ps
      have hkeys : (ps.map Prod.fst).Nodup := by
        have := hw.1
        rw [hk, ← Function.comp_def, ← List.map_map] at this
        exact this.of_map _
      have hback : ∀ q ∈ ps, st.readBack q.1 = q.1 := fun q hq => (hr q hq).1
      have hback' : ∀ q ∈ st.order ps, st.readBack q.1 = q.1 :=
        fun q hq => hback q (hperm.mem_iff.mp hq)
      have hread : ∀ q ∈ st.order ps, Reads h (Value.nestMembers kvs) q.2.1 q.2.2 :=
        fun q hq => (hr q (hperm.mem_iff.mp hq)).2
      have hsame : (st.order ps).map (fun q => st.readBack q.1) = (st.order ps).map Prod.fst :=
        List.map_congr_left hback'
      have hpairs : (st.order ps).map (fun q => (st.readBack q.1, q.2.2)) =
          (st.order ps).map fun q => (q.1, q.2.2) :=
        List.map_congr_left fun q hq => by rw [hback' q hq]
      have hnodup : ((st.order ps).map fun q => st.readBack q.1).Nodup := by
        rw [hsame]
        exact (hperm.map Prod.fst).nodup_iff.mpr hkeys
      have hrd := reads_dict hh hst level (st.order ps) hread hnodup
      refine ⟨_, by rw [dump, hd]; rfl, ?_⟩
      rw [norm, hn, st.order_map Prod.snd, st.order_map Prod.fst, List.map_map, ← hpairs]
      exact hrd
/-- The written items with the values they are read back as. -/
theorem dumpItems_reads {h : Hooks} (hh : h.Plain) {st : Style} (hst : st.Valid) :
    ∀ (level : Nat) (xs : List Value), WritableItems st xs →
      ∃ ps : List (Str × Value), dumpItems st level xs = .ok (ps.map Prod.fst) ∧
        normItems st xs = ps.map Prod.snd ∧ ∀ q ∈ ps, Reads h (Value.nestItems xs) q.1 q.2
  | _, [], _ => ⟨[], rfl, rfl, by simp⟩
  | level, v :: vs, hw => by
      rw [WritableItems] at hw
      obtain ⟨t, ht, hrt⟩ := dump_reads hh hst level v hw.1
      obtain ⟨ps, hd, hn, hr⟩ := dumpItems_reads hh hst level vs hw.2
      refine ⟨(t, norm st v) :: ps, ?_, ?_, ?_⟩
      · rw [dumpItems, ht, hd]
        rfl
      · rw [normItems, hn]
        rfl
      · intro q hq
        rw [Value.nestItems]
        rcases List.mem_cons.mp hq with rfl | hq
        · exact hrt.mono (le_max_left _ _)
        · exact (hr q hq).mono (le_max_right _ _)
/-- The written members with the values they are read back as. -/
theorem dumpMembers_reads {h : Hooks} (hh : h.Plain) {st : Style} (hst : st.Valid) :
    ∀ (level : Nat) (kvs : List (Key × Value)), WritableMembers st kvs →
      ∃ ps : List (Str × Str × Value),
        dumpMembers st level kvs = .ok (ps.map fun q => (q.1, q.2.1)) ∧
        normMembers st kvs = ps.map (fun q => (q.1, q.2.2)) ∧
        kvs.map Prod.fst = ps.map (fun q => Key.str q.1) ∧
        ∀ q ∈ ps, st.readBack q.1 = q.1 ∧ Reads h (Value.nestMembers kvs) q.2.1 q.2.2
  | _, [], _ => ⟨[], rfl, rfl, rfl, by simp⟩
  | _, (.other _, _) :: _, hw => by simp [WritableMembers] at hw
  | level, (.str k, v) :: rest, hw => by
      rw [WritableMembers] at hw
      obtain ⟨t, ht, hrt⟩ := dump_reads hh hst level v hw.2.1
      obtain ⟨ps, hd, hn, hk, hr⟩ := dumpMembers_reads hh hst level rest hw.2.2
      have hb := Style.readBack_eq_self hw.1
      refine ⟨(k, t, norm st v) :: ps, ?_, ?_, ?_, ?_⟩
      · rw [dumpMembers, ht, hd]
        rfl
      · rw [normMembers, hn, hb]
        rfl
      · rw [List.map_cons, hk]
        rfl
      · intro q hq
        rw [Value.nestMembers]
        rcases List.mem_cons.mp hq with rfl | hq
        · exact ⟨hb, hrt.mono (le_max_left _ _)⟩
        · exact ⟨(hr q hq).1, (hr q hq).2.mono (le_max_right _ _)⟩
end

/-- A readable text, with whitespace behind it, is what `json.loads` accepts. -/
theorem Reads.loadsWith {h : Hooks} {need limit : Nat} {text w : Str} {v : Value}
    (hr : Reads h need text v) (hn : need ≤ limit) (hw : ∀ c ∈ w, isWs c = true) :
    loadsWith h limit (text ++ w) = .ok v := by
  obtain ⟨c, t, hc, hws, -, hb⟩ := hr.head
  have hskip : skipWs (text ++ w) = text ++ w := by
    rw [hc, List.cons_append]
    exact skipWs_cons hws _
  have hend : skipWs w = [] := by
    have := skipWs_append (r := []) hw
    simpa [skipWs] using this
  have hs : Stops w := by
    have := stops_append_ws hw stops_nil
    simpa using this
  have hbom : (text ++ w).head? ≠ some bom := by simpa [hc] using hb
  have hscan := hr.scan (2 * (text ++ w).length + 2) limit w
    (by simp only [List.length_append]; omega) hn hs
  simp only [Json.loadsWith, if_neg hbom, hskip, hscan, bind, Except.bind, hend, if_true]
  rfl

/-- A text is read as at most one value. -/
theorem Reads.unique {h : Hooks} {n m : Nat} {text : Str} {v w : Value} (hv : Reads h n text v)
    (hw : Reads h m text w) : v = w := by
  have h₁ := hv.loadsWith (w := []) (le_max_left n m) (by simp)
  have h₂ := hw.loadsWith (w := []) (le_max_right n m) (by simp)
  exact Except.ok.inj (h₁.symm.trans h₂)

/-- Values written alike have one normal form. -/
theorem norm_eq_of_dump_eq {st : Style} (hst : st.Valid) {a b : Value} (ha : Writable st a)
    (hb : Writable st b) {level : Nat} (h : dump st level a = dump st level b) :
    norm st a = norm st b := by
  obtain ⟨t, ht, hra⟩ := dump_reads Hooks.plain_default hst level a ha
  obtain ⟨u, hu, hrb⟩ := dump_reads Hooks.plain_default hst level b hb
  have : t = u := Except.ok.inj (ht.symm.trans (h.trans hu))
  subst this
  exact hra.unique hrb

theorem bracket_ends (st : Style) (level : Nat) (o c : CodePoint) (parts : List Str) :
    ∃ m, bracket st level o c parts = o :: (m ++ [c]) := by
  cases parts with
  | nil => exact ⟨[], rfl⟩
  | cons p ps =>
      exact ⟨st.newline (level + 1) ++ joined (st.itemSeparator ++ st.newline (level + 1)) (p :: ps) ++
        st.newline level, rfl⟩

/-- A written dictionary stands between braces. -/
theorem dump_dict_ends {st : Style} {level : Nat} {kvs : List (Key × Value)} {text : Str}
    (h : dump st level (.dict kvs) = .ok text) : ∃ m, text = cp '{' :: (m ++ [cp '}']) := by
  rw [dump] at h
  obtain ⟨parts, -, hp⟩ := bind_eq_ok.mp h
  simp only [pure, Except.pure, Except.ok.injEq] at hp
  rw [← hp]
  exact bracket_ends st level _ _ _

end IcsDeception.Json
