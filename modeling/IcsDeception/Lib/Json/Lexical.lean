import IcsDeception.Lib.Json.Scan

/-!
# Written strings and numbers are read back

A quoted text is read back unchanged when its non-ASCII characters are literal. In
ASCII a pair of adjacent surrogates is read back as one character, and every other
text unchanged. An integer text is read back as its integer.
-/

namespace IcsDeception.Json

open Text Decimal

/-! ## Strings -/

theorem hexVal_hexChar : ∀ n < 16, hexVal (hexChar n) = some n := by decide

theorem hexUnit_hex4 {n : Nat} (h : n < 0x10000) :
    hexUnit (hexChar (n / 4096 % 16)) (hexChar (n / 256 % 16)) (hexChar (n / 16 % 16))
      (hexChar (n % 16)) = some (ofCode n) := by
  have hm : ∀ k, k % 16 < 16 := fun k => Nat.mod_lt _ (by decide)
  simp only [hexUnit, hexVal_hexChar _ (hm _), Option.bind_eq_bind, Option.bind_some, Option.pure_def]
  congr 2
  omega

theorem scanString_quote (cs : Str) : scanString (cp '"' :: cs) = .ok ([], cs) := by
  rw [scanString.eq_def]
  simp only [if_pos]

theorem scanString_plain {c : CodePoint} (h₁ : c ≠ cp '"') (h₂ : c ≠ cp '\\') (h₃ : ¬ c.val < 0x20)
    (cs : Str) : scanString (c :: cs) = consText c (scanString cs) := by
  rw [scanString.eq_def]
  simp only [if_neg h₁, if_neg h₂, if_neg h₃]

theorem scanString_simple {e x : CodePoint} (h₁ : e ≠ cp 'u') (h₂ : simpleEscape e = some x)
    (cs : Str) : scanString (cp '\\' :: e :: cs) = consText x (scanString cs) := by
  rw [scanString.eq_def]
  simp only [if_neg (show cp '\\' ≠ cp '"' by decide), if_pos, if_neg h₁, h₂]

theorem scanString_unit {n : Nat} (hn : n < 0x10000) {r : Str}
    (hr : lowAhead (ofCode n) r = none) :
    scanString (unicodeEscape n ++ r) = consText (ofCode n) (scanString r) := by
  rw [scanString.eq_def]
  simp only [unicodeEscape, hex4, List.cons_append, List.nil_append,
    if_neg (show cp '\\' ≠ cp '"' by decide), if_pos, hexUnit_hex4 hn, hr, Option.isSome_none,
    Bool.false_eq_true, if_false]

theorem unitAhead_unicodeEscape {n : Nat} (hn : n < 0x10000) (r : Str) :
    unitAhead (unicodeEscape n ++ r) = some (ofCode n) := by
  simp only [unicodeEscape, hex4, List.cons_append, List.nil_append, unitAhead, and_self, if_true,
    hexUnit_hex4 hn]

theorem scanString_pair {n m : Nat} (hn : n < 0x10000) (hm : m < 0x10000) {r : Str}
    (hhi : isHigh (ofCode n) = true) (hlo : isLow (ofCode m) = true) :
    scanString (unicodeEscape n ++ (unicodeEscape m ++ r)) =
      consText (joinPair (ofCode n) (ofCode m)) (scanString r) := by
  have hl : lowAhead (ofCode n) (unicodeEscape m ++ r) =
      some (ofCode m) := by
    simp only [lowAhead, hhi, if_true, unitAhead_unicodeEscape hm, Option.filter_some, hlo]
  rw [scanString.eq_def]
  rw [unicodeEscape, hex4] at hl ⊢
  simp only [unicodeEscape, hex4, List.cons_append, List.nil_append] at hl ⊢
  simp only [if_neg (show cp '\\' ≠ cp '"' by decide), if_pos, hexUnit_hex4 hn, hl,
    Option.isSome_some, Option.getD_some]

theorem shortEscape_eq_some {c e : CodePoint} (h : shortEscape c = some e) :
    e ≠ cp 'u' ∧ simpleEscape e = some c ∧ c.val < 0x7F := by
  unfold shortEscape at h
  split_ifs at h with h₁ h₂ h₃ h₄ h₅ h₆ h₇ <;> simp only [Option.some.injEq] at h <;> subst h
  · subst h₁; decide
  · subst h₂; decide
  · subst h₃; decide
  · subst h₄; decide
  · subst h₅; decide
  · subst h₆; decide
  · subst h₇; decide

theorem shortEscape_eq_none {c : CodePoint} (h : shortEscape c = none) :
    c ≠ cp '"' ∧ c ≠ cp '\\' := by
  constructor
  · rintro rfl
    exact absurd h (by decide)
  · rintro rfl
    exact absurd h (by decide)

/-- The four forms in which a character is written. -/
theorem escapeOne_cases (ascii : Bool) (c : CodePoint) :
    (∃ e, escapeOne ascii c = [cp '\\', e] ∧ e ≠ cp 'u' ∧ simpleEscape e = some c ∧
      c.val < 0x7F) ∨
    (escapeOne ascii c = unicodeEscape c.val ∧ c.val < 0x10000 ∧ (ascii = false → c.val < 0x20)) ∨
    (escapeOne ascii c = unicodeEscape (0xD800 + (c.val - 0x10000) / 0x400) ++
      unicodeEscape (0xDC00 + (c.val - 0x10000) % 0x400) ∧ 0x10000 ≤ c.val ∧ ascii = true) ∨
    (escapeOne ascii c = [c] ∧ c ≠ cp '"' ∧ c ≠ cp '\\' ∧ ¬ c.val < 0x20 ∧
      (ascii = true → c.val < 0x7F)) := by
  cases hs : shortEscape c with
  | some e => exact Or.inl ⟨e, by simp only [escapeOne, hs], shortEscape_eq_some hs⟩
  | none =>
      obtain ⟨hq, hb⟩ := shortEscape_eq_none hs
      have he : escapeOne ascii c =
          if c.val < 0x20 then unicodeEscape c.val
          else if ascii = true ∧ 0x7F ≤ c.val then
            if c.val < 0x10000 then unicodeEscape c.val
            else unicodeEscape (0xD800 + (c.val - 0x10000) / 0x400) ++
              unicodeEscape (0xDC00 + (c.val - 0x10000) % 0x400)
          else [c] := by
        simp only [escapeOne, hs]
      by_cases h₁ : c.val < 0x20
      · rw [if_pos h₁] at he
        exact Or.inr (Or.inl ⟨he, by omega, fun _ => h₁⟩)
      · rw [if_neg h₁] at he
        by_cases h₂ : ascii = true ∧ 0x7F ≤ c.val
        · rw [if_pos h₂] at he
          by_cases h₃ : c.val < 0x10000
          · rw [if_pos h₃] at he
            exact Or.inr (Or.inl ⟨he, h₃, fun h => absurd (h₂.1.symm.trans h) (by decide)⟩)
          · rw [if_neg h₃] at he
            exact Or.inr (Or.inr (Or.inl ⟨he, by omega, h₂.1⟩))
        · rw [if_neg h₂] at he
          refine Or.inr (Or.inr (Or.inr ⟨he, hq, hb, h₁, ?_⟩))
          intro ha
          by_contra hc
          exact h₂ ⟨ha, by omega⟩

/-- The escape ahead of a written character is a low unit only for a low surrogate. -/
theorem lowAhead_escapeOne {ascii : Bool} {u d : CodePoint} (hd : isLow d = false) (r : Str) :
    lowAhead u (escapeOne ascii d ++ r) = none := by
  unfold lowAhead
  split_ifs with hu
  · rcases escapeOne_cases ascii d with ⟨e, he, hne, -⟩ | ⟨he, hlt, -⟩ | ⟨he, hge, -⟩ | ⟨he, -, hb, -⟩
    · rw [he]
      rcases r with _ | ⟨r₁, _ | ⟨r₂, _ | ⟨r₃, _ | ⟨r₄, r⟩⟩⟩⟩ <;> simp [unitAhead, hne]
    · rw [he, unitAhead_unicodeEscape hlt, ofCode_val]
      simp [Option.filter_some, hd]
    · have h₁ := d.isLt
      have hn : 0xD800 + (d.val - 0x10000) / 0x400 < 0x10000 := by omega
      rw [he, List.append_assoc, unitAhead_unicodeEscape hn]
      have : isLow (ofCode (0xD800 + (d.val - 0x10000) / 0x400)) = false := by
        simp only [isLow, val_ofCode (show 0xD800 + (d.val - 0x10000) / 0x400 < 0x110000 by omega),
          Bool.and_eq_false_iff, decide_eq_false_iff_not]
        omega
      simp [Option.filter_some, this]
    · rw [he]
      rcases r with _ | ⟨r₀, _ | ⟨r₁, _ | ⟨r₂, _ | ⟨r₃, _ | ⟨r₄, r⟩⟩⟩⟩⟩ <;> simp [unitAhead, hb]
  · rfl

theorem lowAhead_quote (u : CodePoint) (r : Str) : lowAhead u (cp '"' :: r) = none := by
  unfold lowAhead
  have hb : cp '"' ≠ cp '\\' := by decide
  split_ifs with hu
  · rcases r with _ | ⟨r₀, _ | ⟨r₁, _ | ⟨r₂, _ | ⟨r₃, _ | ⟨r₄, r⟩⟩⟩⟩⟩ <;> simp [unitAhead, hb]
  · rfl

/-- One written character is read back, unless it pairs with the unit behind it. -/
theorem scanString_escapeOne (ascii : Bool) {c : CodePoint} {r : Str} (hr : lowAhead c r = none) :
    scanString (escapeOne ascii c ++ r) = consText c (scanString r) := by
  rcases escapeOne_cases ascii c with ⟨e, he, hne, hx, -⟩ | ⟨he, hlt, -⟩ | ⟨he, hge, -⟩ |
    ⟨he, h₁, h₂, h₃, -⟩
  · rw [he]
    exact scanString_simple hne hx r
  · rw [he, scanString_unit hlt (by rwa [ofCode_val]), ofCode_val]
  · have hc := c.isLt
    have hhi : isHigh (ofCode (0xD800 + (c.val - 0x10000) / 0x400)) = true := by
      simp only [isHigh, val_ofCode (show 0xD800 + (c.val - 0x10000) / 0x400 < 0x110000 by omega),
        Bool.and_eq_true, decide_eq_true_eq]
      omega
    have hlo : isLow (ofCode (0xDC00 + (c.val - 0x10000) % 0x400)) = true := by
      simp only [isLow, val_ofCode (show 0xDC00 + (c.val - 0x10000) % 0x400 < 0x110000 by omega),
        Bool.and_eq_true, decide_eq_true_eq]
      omega
    have hj : joinPair (ofCode (0xD800 + (c.val - 0x10000) / 0x400))
        (ofCode (0xDC00 + (c.val - 0x10000) % 0x400)) = c := by
      apply Fin.ext
      simp only [joinPair,
        val_ofCode (show 0xD800 + (c.val - 0x10000) / 0x400 < 0x110000 by omega),
        val_ofCode (show 0xDC00 + (c.val - 0x10000) % 0x400 < 0x110000 by omega)]
      rw [val_ofCode (by omega)]
      omega
    rw [he, List.append_assoc, scanString_pair (by omega) (by omega) hhi hlo, hj]
  · rw [he]
    exact scanString_plain h₁ h₂ h₃ r

theorem isHigh_lt {c : CodePoint} (h : isHigh c = true) : c.val < 0x10000 ∧ 0x7F ≤ c.val := by
  simp only [isHigh, Bool.and_eq_true, decide_eq_true_eq] at h
  omega

theorem isLow_lt {c : CodePoint} (h : isLow c = true) : c.val < 0x10000 ∧ 0x7F ≤ c.val := by
  simp only [isLow, Bool.and_eq_true, decide_eq_true_eq] at h
  omega

theorem escapeOne_surrogate {c : CodePoint} (h : c.val < 0x10000) (h' : 0x7F ≤ c.val) :
    escapeOne true c = unicodeEscape c.val := by
  rcases escapeOne_cases true c with ⟨e, -, -, -, hl⟩ | ⟨he, -, -⟩ | ⟨he, hge, -⟩ |
    ⟨he, -, -, -, hl⟩
  · omega
  · exact he
  · omega
  · exact absurd (hl rfl) (by omega)

/-- A text written in ASCII is read back with its surrogates paired. -/
theorem scanString_escape_ascii (s r : Str) :
    scanString (escape true s ++ cp '"' :: r) = .ok (joinSurrogates s, r) := by
  induction s using joinSurrogates.induct with
  | case1 => exact scanString_quote r
  | case2 c =>
      have hq := scanString_escapeOne true (lowAhead_quote c r)
      simp only [escape, List.flatMap_cons, List.flatMap_nil, List.append_nil, hq,
        scanString_quote, consText, Except.map, joinSurrogates]
  | case3 c d rest hp ih =>
      obtain ⟨hc₁, hc₂⟩ := isHigh_lt hp.1
      obtain ⟨hd₁, hd₂⟩ := isLow_lt hp.2
      have hpair := scanString_pair (r := escape true rest ++ cp '"' :: r) hc₁ hd₁
        (by rw [ofCode_val]; exact hp.1) (by rw [ofCode_val]; exact hp.2)
      rw [escape] at ih hpair ⊢
      simp only [List.flatMap_cons, escapeOne_surrogate hc₁ hc₂, escapeOne_surrogate hd₁ hd₂,
        List.append_assoc, hpair, ih, ofCode_val, joinSurrogates, if_pos hp, consText, Except.map]
  | case4 c d rest hp ih =>
      have hl : lowAhead c (escape true (d :: rest) ++ cp '"' :: r) = none := by
        by_cases hd : isLow d = true
        · have hc : isHigh c = false := by
            by_contra hc
            exact hp ⟨by simpa using hc, hd⟩
          simp [lowAhead, hc]
        · rw [escape, List.flatMap_cons, List.append_assoc]
          exact lowAhead_escapeOne (by simpa using hd) _
      have hs := scanString_escapeOne true hl
      rw [ih] at hs
      rw [escape, List.flatMap_cons, List.append_assoc, ← escape, hs, joinSurrogates, if_neg hp]
      rfl

/-- A text written with its non-ASCII characters literal is read back unchanged. -/
theorem scanString_escape_literal (s r : Str) :
    scanString (escape false s ++ cp '"' :: r) = .ok (s, r) := by
  induction s with
  | nil => exact scanString_quote r
  | cons c rest ih =>
      have hs : scanString (escapeOne false c ++ (escape false rest ++ cp '"' :: r)) =
          consText c (scanString (escape false rest ++ cp '"' :: r)) := by
        rcases escapeOne_cases false c with ⟨e, he, hne, hx, -⟩ | ⟨he, hlt, hc⟩ | ⟨-, -, ha⟩ |
          ⟨he, h₁, h₂, h₃, -⟩
        · rw [he]
          exact scanString_simple hne hx _
        · -- a control character is no surrogate, so nothing pairs with it
          have hh : isHigh c = false := by
            have := hc rfl
            simp only [isHigh, Bool.and_eq_false_iff, decide_eq_false_iff_not]
            omega
          rw [he, scanString_unit hlt (by simp [ofCode_val, lowAhead, hh]), ofCode_val]
        · cases ha
        · rw [he]
          exact scanString_plain h₁ h₂ h₃ _
      rw [escape, List.flatMap_cons, List.append_assoc, ← escape, hs, ih]
      rfl

/-- A quoted text is read back. -/
theorem scanString_quoted (st : Style) (s r : Str) :
    scanString (escape st.ascii s ++ cp '"' :: r) = .ok (st.readBack s, r) := by
  cases ha : st.ascii with
  | true => rw [scanString_escape_ascii, Style.readBack, ha, if_pos rfl]
  | false => rw [scanString_escape_literal, Style.readBack, ha, if_neg (by decide)]

/-! ## Numbers -/

/-- The continuation behind a value must not continue a number. -/
def Stops (r : Str) : Prop :=
  ∀ c ∈ r.head?, isDigit c = false ∧ c ≠ cp '.' ∧ c ≠ cp 'e' ∧ c ≠ cp 'E'

theorem stops_nil : Stops [] := by simp [Stops]

theorem stops_cons {c : CodePoint} {r : Str}
    (h : isDigit c = false ∧ c ≠ cp '.' ∧ c ≠ cp 'e' ∧ c ≠ cp 'E') : Stops (c :: r) := by
  intro d hd
  simp only [List.head?_cons, Option.mem_def, Option.some.injEq] at hd
  exact hd ▸ h

theorem isWs_iff {c : CodePoint} :
    isWs c = true ↔ c = cp ' ' ∨ c = cp '\t' ∨ c = cp '\n' ∨ c = cp '\r' := by
  simp [isWs, or_assoc]

theorem stops_of_isWs {c : CodePoint} (h : isWs c = true) (r : Str) : Stops (c :: r) := by
  apply stops_cons
  rcases isWs_iff.mp h with rfl | rfl | rfl | rfl <;> decide

/-- Whitespace in front of a stopping continuation still stops. -/
theorem stops_append_ws {w r : Str} (hw : ∀ c ∈ w, isWs c = true) (hr : Stops r) :
    Stops (w ++ r) := by
  cases w with
  | nil => exact hr
  | cons c w => exact stops_of_isWs (hw c (by simp)) _

theorem takeWhile_natText_append {ds r : Str} (hd : ∀ c ∈ ds, isDigit c = true) (hr : Stops r) :
    (ds ++ r).takeWhile isDigit = ds ∧ (ds ++ r).dropWhile isDigit = r := by
  have hr' : r.takeWhile isDigit = [] ∧ r.dropWhile isDigit = r := by
    cases r with
    | nil => simp
    | cons c r => simp [(hr c rfl).1]
  rw [List.takeWhile_append_of_pos hd, List.dropWhile_append_of_pos hd, hr'.1, hr'.2]
  simp

theorem scanIntPart_natText (n : Nat) {r : Str} (hr : Stops r) :
    scanIntPart (natText n ++ r) = some (natText n, r) := by
  by_cases hn : n = 0
  · subst hn
    rw [natText_zero]
    rfl
  · obtain ⟨c, t, ht, hc⟩ := natText_head hn
    have hd : isDigit c = true := isDigit_of_mem_natText (n := n) (by simp [ht])
    have ht' : ∀ d ∈ t, isDigit d = true :=
      fun d hm => isDigit_of_mem_natText (n := n) (by simp [ht, hm])
    obtain ⟨h₁, h₂⟩ := takeWhile_natText_append ht' hr
    rw [ht, List.cons_append, scanIntPart, if_neg hc, if_pos hd, h₁, h₂]

theorem scanFraction_stops {r : Str} (hr : Stops r) : scanFraction r = ([], r) := by
  rcases r with _ | ⟨c, _ | ⟨d, r⟩⟩
  · rfl
  · rfl
  · have hc := hr c rfl
    simp [scanFraction, hc.2.1]

theorem scanExponent_stops {r : Str} (hr : Stops r) : scanExponent r = ([], r) := by
  rcases r with _ | ⟨c, r⟩
  · rfl
  · have hc := hr c rfl
    rw [scanExponent.eq_def]
    simp [hc.2.2.1, hc.2.2.2]

/-- An integer text is read back. -/
theorem scanNumber_intText (i : Int) (hi : (natText i.natAbs).length ≤ maxDigits) {r : Str}
    (hr : Stops r) : scanNumber (intText i ++ r) = .ok (.int i, r) := by
  unfold scanNumber
  by_cases hneg : i < 0
  · have hv : -((i.natAbs : Nat) : Int) = i := by omega
    simp only [intText, if_pos hneg, List.cons_append, List.head?_cons, if_true, List.tail_cons,
      scanIntPart_natText _ hr, scanFraction_stops hr, scanExponent_stops hr, and_self,
      if_neg (Nat.not_lt.mpr hi), digitsValue_natText, hv]
  · have hv : ((i.natAbs : Nat) : Int) = i := by omega
    have hh : (natText i.natAbs ++ r).head? ≠ some (cp '-') := by
      cases ht : natText i.natAbs with
      | nil => exact absurd ht (natText_ne_nil _)
      | cons c t =>
          have hd : isDigit c = true := isDigit_of_mem_natText (n := i.natAbs) (by simp [ht])
          simp only [List.cons_append, List.head?_cons, ne_eq, Option.some.injEq]
          rintro rfl
          exact absurd hd (by decide)
    simp only [intText, if_neg hneg, if_neg hh, scanIntPart_natText _ hr, scanFraction_stops hr,
      scanExponent_stops hr, and_self, if_true, if_neg (Nat.not_lt.mpr hi), digitsValue_natText, hv]

end IcsDeception.Json
