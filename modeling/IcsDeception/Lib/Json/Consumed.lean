import IcsDeception.Lib.Json.Equality

/-!
# What a scan consumes

A scan takes a piece off the front of a text, and its result depends on that piece
only: whatever stands behind it, the scan takes the same piece. Behind a number the
text must not continue the number. So no proper piece of a container is a container,
and a document is one container between whitespace.
-/

namespace IcsDeception.Json

open Text Decimal

/-- A scan takes exactly `p` off any text that starts with it. -/
def Takes {α : Type} (scan : Str → Except LoadsError (α × Str)) (p : Str) (a : α) : Prop :=
  ∀ r, scan (p ++ r) = .ok (a, r)

/-- The same for texts that do not continue a number behind `p`. -/
def TakesStops {α : Type} (scan : Str → Except LoadsError (α × Str)) (p : Str) (a : α) : Prop :=
  ∀ r, Stops r → scan (p ++ r) = .ok (a, r)

/-! ## Strings -/

theorem unitAhead_of_ne {b : CodePoint} (h : b ≠ cp '\\') (t : Str) : unitAhead (b :: t) = none := by
  unfold unitAhead
  split
  · rename_i heq
    rw [if_neg]
    rintro ⟨hb, -⟩
    exact h ((List.cons.inj heq).1.trans hb)
  · rfl

theorem unitAhead_of_ne_u {b u : CodePoint} (h : u ≠ cp 'u') (t : Str) :
    unitAhead (b :: u :: t) = none := by
  unfold unitAhead
  split
  · rename_i heq
    rw [if_neg]
    rintro ⟨-, hu⟩
    exact h ((List.cons.inj (List.cons.inj heq).2).1.trans hu)
  · rfl

/-- The escape at the head of a complete string is seen whatever follows. -/
theorem unitAhead_fixed {p : Str} {x : Str × Str} (h : scanString p = .ok x) (r : Str) :
    unitAhead (p ++ r) = unitAhead p := by
  match p with
  | [] => cases h
  | b :: t =>
      by_cases hb : b = cp '\\'
      · subst hb
        match t with
        | [] => cases h
        | u :: t =>
            by_cases hu : u = cp 'u'
            · subst hu
              match t with
              | h1 :: h2 :: h3 :: h4 :: t => rfl
              | [] => cases h
              | [_] => cases h
              | [_, _] => cases h
              | [_, _, _] => cases h
            · rw [List.cons_append, List.cons_append, unitAhead_of_ne_u hu, unitAhead_of_ne_u hu]
      · rw [List.cons_append, unitAhead_of_ne hb, unitAhead_of_ne hb]

theorem lowAhead_fixed {p : Str} {x : Str × Str} (h : scanString p = .ok x) (u : CodePoint)
    (r : Str) : lowAhead u (p ++ r) = lowAhead u p := by
  unfold lowAhead
  rw [unitAhead_fixed h]

theorem Takes.self {α : Type} {scan : Str → Except LoadsError (α × Str)} {p : Str} {a : α}
    (h : Takes scan p a) : scan p = .ok (a, []) := by
  have := h []
  rwa [List.append_nil] at this

theorem scanString_joined {h1 h2 h3 h4 u a b c d e f : CodePoint} (hu : hexUnit h1 h2 h3 h4 = some u)
    {tail : Str} (hl : (lowAhead u (a :: b :: c :: d :: e :: f :: tail)).isSome = true) :
    scanString (cp '\\' :: cp 'u' :: h1 :: h2 :: h3 :: h4 :: a :: b :: c :: d :: e :: f :: tail) =
      consText (joinPair u ((lowAhead u (a :: b :: c :: d :: e :: f :: tail)).getD u))
        (scanString tail) := by
  rw [scanString.eq_def]
  simp only [hu, hl, if_true, if_neg (show ¬ cp '\\' = cp '"' by decide)]

theorem scanString_alone {h1 h2 h3 h4 u : CodePoint} (hu : hexUnit h1 h2 h3 h4 = some u)
    {rest : Str} (hl : ¬ (lowAhead u rest).isSome = true) :
    scanString (cp '\\' :: cp 'u' :: h1 :: h2 :: h3 :: h4 :: rest) =
      consText u (scanString rest) := by
  rw [scanString.eq_def]
  simp only [hu, if_neg hl, if_true, if_neg (show ¬ cp '\\' = cp '"' by decide)]

theorem consText_ok (c : CodePoint) (t rest : Str) :
    consText c (.ok (t, rest)) = .ok (c :: t, rest) := rfl

/-- A scanned string is taken up to its closing quote. -/
theorem scanString_takes {s x rest : Str} (h : scanString s = .ok (x, rest)) :
    ∃ p, s = p ++ rest ∧ Takes scanString p x := by
  induction s using scanString.induct generalizing x rest with
  | case1 => cases h
  | case2 cs =>
      rw [scanString_quote] at h
      obtain ⟨rfl, rfl⟩ := Prod.mk.inj (Except.ok.inj h)
      exact ⟨[cp '"'], rfl, fun r => scanString_quote r⟩
  | case3 => cases h
  | case4 h1 h2 h3 h4 t hu =>
      rw [scanString.eq_def] at h
      simp only [hu, if_true, if_neg (show ¬ cp '\\' = cp '"' by decide)] at h
      cases h
  | case5 h1 h2 h3 h4 u hu a b c d e f tail _ hl ih =>
      rw [scanString_joined hu hl] at h
      obtain ⟨y, hy, rfl⟩ := consText_eq_ok.mp h
      obtain ⟨p, rfl, hp⟩ := ih hy
      refine ⟨cp '\\' :: cp 'u' :: h1 :: h2 :: h3 :: h4 :: a :: b :: c :: d :: e :: f :: p, rfl,
        fun r => ?_⟩
      have hl' : (lowAhead u (a :: b :: c :: d :: e :: f :: (p ++ r))).isSome = true := hl
      exact (scanString_joined hu hl').trans ((congrArg _ (hp r)).trans (consText_ok _ y r))
  | case6 h1 h2 h3 h4 t u hu hl hno =>
      rw [scanString.eq_def] at h
      simp only [hu, hl, if_true, if_neg (show ¬ cp '\\' = cp '"' by decide)] at h
      cases h
  | case7 h1 h2 h3 h4 t u hu hl _ ih =>
      rw [scanString_alone hu hl] at h
      obtain ⟨y, hy, rfl⟩ := consText_eq_ok.mp h
      obtain ⟨p, rfl, hp⟩ := ih hy
      refine ⟨cp '\\' :: cp 'u' :: h1 :: h2 :: h3 :: h4 :: p, rfl, fun r => ?_⟩
      have hl' : ¬ (lowAhead u (p ++ r)).isSome = true := by
        rw [lowAhead_fixed hp.self] at hl ⊢
        exact hl
      exact (scanString_alone hu hl').trans ((congrArg _ (hp r)).trans (consText_ok _ y r))
  | case8 es hno =>
      rw [scanString.eq_def] at h
      simp only [if_true, if_neg (show ¬ cp '\\' = cp '"' by decide)] at h
      cases h
  | case9 e es he hs =>
      rw [scanString.eq_def] at h
      simp only [he, hs, if_true, if_false, if_neg (show ¬ cp '\\' = cp '"' by decide)] at h
      cases h
  | case10 e es he y hs _ ih =>
      rw [scanString_simple he hs] at h
      obtain ⟨z, hz, rfl⟩ := consText_eq_ok.mp h
      obtain ⟨p, rfl, hp⟩ := ih hz
      refine ⟨cp '\\' :: e :: p, rfl, fun r => ?_⟩
      exact (scanString_simple he hs _).trans ((congrArg _ (hp r)).trans (consText_ok _ z r))
  | case11 c cs h₁ h₂ h₃ =>
      rw [scanString.eq_def] at h
      simp [h₁, h₂, h₃] at h
  | case12 c cs h₁ h₂ h₃ ih =>
      rw [scanString_plain h₁ h₂ h₃] at h
      obtain ⟨y, hy, rfl⟩ := consText_eq_ok.mp h
      obtain ⟨p, rfl, hp⟩ := ih hy
      refine ⟨c :: p, rfl, fun r => ?_⟩
      exact (scanString_plain h₁ h₂ h₃ _).trans ((congrArg _ (hp r)).trans (consText_ok _ y r))

/-! ## Numbers and names -/

/-- A continuation that does not start with a digit. -/
def NoDigit (r : Str) : Prop := ∀ c ∈ r.head?, isDigit c = false

theorem Stops.noDigit {r : Str} (h : Stops r) : NoDigit r := fun c hc => (h c hc).1

theorem takeWhile_digits (s : Str) : ∀ c ∈ s.takeWhile isDigit, isDigit c = true :=
  fun _ hc => List.mem_takeWhile_imp hc

theorem span_digits {ds r : Str} (hd : ∀ c ∈ ds, isDigit c = true) (hr : NoDigit r) :
    (ds ++ r).takeWhile isDigit = ds ∧ (ds ++ r).dropWhile isDigit = r := by
  have hr' : r.takeWhile isDigit = [] ∧ r.dropWhile isDigit = r := by
    cases r with
    | nil => simp
    | cons c r => simp [hr c rfl]
  rw [List.takeWhile_append_of_pos hd, List.dropWhile_append_of_pos hd, hr'.1, hr'.2]
  simp

theorem scanIntPart_takes {s ds rest : Str} (h : scanIntPart s = some (ds, rest)) :
    s = ds ++ rest ∧ ∀ r, NoDigit r → scanIntPart (ds ++ r) = some (ds, r) := by
  cases s with
  | nil => cases h
  | cons c cs =>
      rw [scanIntPart] at h
      split_ifs at h with h₀ hd
      · obtain ⟨rfl, rfl⟩ := Prod.mk.inj (Option.some.inj h)
        refine ⟨rfl, fun r _ => ?_⟩
        rw [List.singleton_append, scanIntPart, if_pos h₀]
      · obtain ⟨rfl, rfl⟩ := Prod.mk.inj (Option.some.inj h)
        refine ⟨by simp [List.takeWhile_append_dropWhile], fun r hr => ?_⟩
        obtain ⟨ht, hdr⟩ := span_digits (takeWhile_digits cs) hr
        rw [List.cons_append, scanIntPart, if_neg h₀, if_pos hd, ht, hdr]

theorem scanFraction_none {r : Str} (h : ∀ c ∈ r.head?, c ≠ cp '.') : scanFraction r = ([], r) := by
  unfold scanFraction
  split
  · rename_i p d cs
    rw [if_neg]
    rintro ⟨hp, -⟩
    exact h p rfl hp
  · rfl

theorem scanFraction_takes (s : Str) :
    s = (scanFraction s).1 ++ (scanFraction s).2 ∧
      ((scanFraction s).1 ≠ [] → (∀ c ∈ (scanFraction s).1.head?, c = cp '.') ∧
        ∀ r, NoDigit r → scanFraction ((scanFraction s).1 ++ r) = ((scanFraction s).1, r)) := by
  match s with
  | [] => exact ⟨rfl, fun h => absurd rfl h⟩
  | [_] => exact ⟨rfl, fun h => absurd rfl h⟩
  | p :: d :: cs =>
      by_cases hpd : p = cp '.' ∧ isDigit d = true
      · have heq : scanFraction (p :: d :: cs) =
            (p :: d :: cs.takeWhile isDigit, cs.dropWhile isDigit) := by
          rw [scanFraction, if_pos hpd]
        rw [heq]
        refine ⟨by simp [List.takeWhile_append_dropWhile], fun _ => ⟨?_, fun r hr => ?_⟩⟩
        · intro c hc
          exact (Option.some.inj hc) ▸ hpd.1
        · obtain ⟨ht, hdr⟩ := span_digits (takeWhile_digits cs) hr
          rw [List.cons_append, List.cons_append, scanFraction, if_pos hpd, ht, hdr]
      · have heq : scanFraction (p :: d :: cs) = ([], p :: d :: cs) := by
          rw [scanFraction, if_neg hpd]
        rw [heq]
        exact ⟨rfl, fun h => absurd rfl h⟩

theorem scanExponent_none {r : Str} (h : ∀ c ∈ r.head?, c ≠ cp 'e' ∧ c ≠ cp 'E') :
    scanExponent r = ([], r) := by
  cases r with
  | nil => rfl
  | cons c cs =>
      have hne : ¬ (c = cp 'e' ∨ c = cp 'E') := by
        rintro (hc | hc)
        · exact (h c rfl).1 hc
        · exact (h c rfl).2 hc
      rw [scanExponent.eq_def]
      simp only [if_neg hne]

theorem scanExponent_signed {e g d : CodePoint} (he : e = cp 'e' ∨ e = cp 'E')
    (hg : (g = cp '+' ∨ g = cp '-') ∧ isDigit d = true) (rest : Str) :
    scanExponent (e :: g :: d :: rest) =
      (e :: g :: d :: rest.takeWhile isDigit, rest.dropWhile isDigit) := by
  rw [scanExponent, if_pos he]
  exact if_pos hg

theorem scanExponent_digits {e g : CodePoint} (he : e = cp 'e' ∨ e = cp 'E')
    (hg : isDigit g = true) (rest : Str) :
    scanExponent (e :: g :: rest) = (e :: g :: rest.takeWhile isDigit, rest.dropWhile isDigit) := by
  rw [scanExponent.eq_def]
  simp only [if_pos he]
  cases rest with
  | nil => simp [hg]
  | cons d rest =>
      have hsign : ¬ ((g = cp '+' ∨ g = cp '-') ∧ isDigit d = true) := by
        rintro ⟨rfl | rfl, -⟩
        · exact absurd hg (by decide)
        · exact absurd hg (by decide)
      simp only [if_neg hsign, hg, if_true]

theorem scanExponent_takes (s : Str) :
    s = (scanExponent s).1 ++ (scanExponent s).2 ∧
      ((scanExponent s).1 ≠ [] → (∀ c ∈ (scanExponent s).1.head?, c = cp 'e' ∨ c = cp 'E') ∧
        ∀ r, NoDigit r → scanExponent ((scanExponent s).1 ++ r) = ((scanExponent s).1, r)) := by
  have hnone : ∀ t, scanExponent s = ([], t) → t = s →
      s = (scanExponent s).1 ++ (scanExponent s).2 ∧
      ((scanExponent s).1 ≠ [] → (∀ c ∈ (scanExponent s).1.head?, c = cp 'e' ∨ c = cp 'E') ∧
        ∀ r, NoDigit r → scanExponent ((scanExponent s).1 ++ r) = ((scanExponent s).1, r)) := by
    intro t ht hts
    rw [ht]
    exact ⟨hts.symm, fun h => absurd rfl h⟩
  match s with
  | [] => exact hnone [] rfl rfl
  | [e] =>
      by_cases he : e = cp 'e' ∨ e = cp 'E'
      · exact hnone [e] (by simp [scanExponent, he]) rfl
      · exact hnone [e] (by simp [scanExponent, he]) rfl
  | e :: g :: rest =>
      by_cases he : e = cp 'e' ∨ e = cp 'E'
      · by_cases hg : isDigit g = true
        · rw [scanExponent_digits he hg]
          refine ⟨by simp [List.takeWhile_append_dropWhile], fun _ => ⟨?_, fun r hr => ?_⟩⟩
          · intro c hc
            obtain rfl := Option.some.inj hc
            exact he
          · obtain ⟨ht, hdr⟩ := span_digits (takeWhile_digits rest) hr
            rw [List.cons_append, List.cons_append, scanExponent_digits he hg, ht, hdr]
        · cases rest with
          | nil => exact hnone [e, g] (by simp [scanExponent, he, hg]) rfl
          | cons d rest =>
              by_cases hs : (g = cp '+' ∨ g = cp '-') ∧ isDigit d = true
              · rw [scanExponent_signed he hs]
                refine ⟨by simp [List.takeWhile_append_dropWhile], fun _ => ⟨?_, fun r hr => ?_⟩⟩
                · intro c hc
                  obtain rfl := Option.some.inj hc
                  exact he
                · obtain ⟨ht, hdr⟩ := span_digits (takeWhile_digits rest) hr
                  rw [List.cons_append, List.cons_append, List.cons_append,
                    scanExponent_signed he hs, ht, hdr]
              · exact hnone (e :: g :: d :: rest) (by simp [scanExponent, he, hg, hs]) rfl
      · exact hnone (e :: g :: rest) (by simp [scanExponent, he]) rfl

/-- The value of a number from its parts. -/
def numberOf (neg : Bool) (ds frac ex rest : Str) : Except LoadsError (Value × Str) :=
  if frac = [] ∧ ex = [] then
    if maxDigits < ds.length then .error .digits
    else .ok (.int (if neg then -(digitsValue ds : Int) else digitsValue ds), rest)
  else .ok (.float ((if neg then [cp '-'] else []) ++ ds ++ frac ++ ex), rest)

/-- The minus sign of a number, if it has one. -/
def sign (neg : Bool) : Str := if neg then [cp '-'] else []

theorem scanNumber_eq {neg : Bool} {b : Str} (hb : neg = false → b.head? ≠ some (cp '-')) :
    scanNumber (sign neg ++ b) =
      match scanIntPart b with
      | none => .error .decode
      | some (ds, rest) => numberOf neg ds (scanFraction rest).1
          (scanExponent (scanFraction rest).2).1 (scanExponent (scanFraction rest).2).2 := by
  cases neg with
  | true =>
      change scanNumber (cp '-' :: b) = _
      unfold scanNumber numberOf
      rw [List.head?_cons, List.tail_cons, if_pos rfl]
      rfl
  | false =>
      have hne := hb rfl
      change scanNumber b = _
      unfold scanNumber numberOf
      dsimp only
      rw [if_neg hne]
      cases scanIntPart b with
      | none => rfl
      | some p =>
          obtain ⟨ds, rest⟩ := p
          dsimp only
          rw [if_neg hne, if_neg hne]
          rfl

theorem numberOf_rest {neg : Bool} {ds frac ex rest rest' : Str} {v : Value}
    (h : numberOf neg ds frac ex rest = .ok (v, rest')) (r : Str) :
    rest' = rest ∧ numberOf neg ds frac ex r = .ok (v, r) := by
  unfold numberOf at h ⊢
  split_ifs at h ⊢
  all_goals
    obtain ⟨rfl, rfl⟩ := Prod.mk.inj (Except.ok.inj h)
    exact ⟨rfl, rfl⟩

theorem exists_sign (s : Str) : ∃ neg b, s = sign neg ++ b ∧ (neg = false → b.head? ≠ some (cp '-')) := by
  by_cases hs : s.head? = some (cp '-')
  · obtain ⟨t, rfl⟩ : ∃ t, s = cp '-' :: t := by
      cases s with
      | nil => cases hs
      | cons c t =>
          obtain rfl := Option.some.inj hs
          exact ⟨t, rfl⟩
    exact ⟨true, t, rfl, nofun⟩
  · exact ⟨false, s, rfl, fun _ => hs⟩

theorem noDigit_append {p r : Str} (hp : ∀ c ∈ p.head?, isDigit c = false) (hr : p = [] → NoDigit r) :
    NoDigit (p ++ r) := by
  cases p with
  | nil => exact hr rfl
  | cons c p =>
      intro d hd
      exact hp d hd

/-- A text that starts with a digit, or with a minus sign and a digit. -/
def NumberAhead (s : Str) : Prop :=
  ∀ c ∈ s.head?, isDigit c = true ∨ c = cp '-' ∧ ∀ d ∈ s.tail.head?, isDigit d = true

theorem numberAhead_sign {neg : Bool} {ds : Str} (hne : ds ≠ []) (hd : ∀ c ∈ ds, isDigit c = true)
    (r : Str) : NumberAhead (sign neg ++ ds ++ r) := by
  obtain ⟨d, t, rfl⟩ := List.exists_cons_of_ne_nil hne
  cases neg with
  | true =>
      intro c hc
      obtain rfl := Option.some.inj hc
      exact .inr ⟨rfl, fun x hx => (Option.some.inj hx) ▸ hd d (by simp)⟩
  | false =>
      intro c hc
      obtain rfl := Option.some.inj hc
      exact .inl (hd _ (by simp))

/-- A scanned number is taken up to its last digit. -/
theorem scanNumber_takes {s rest : Str} {v : Value} (h : scanNumber s = .ok (v, rest)) :
    ∃ p, s = p ++ rest ∧ TakesStops scanNumber p v ∧ ∀ r, NumberAhead (p ++ r) := by
  obtain ⟨neg, b, rfl, hb⟩ := exists_sign s
  rw [scanNumber_eq hb] at h
  cases hi : scanIntPart b with
  | none =>
      rw [hi] at h
      cases h
  | some q =>
      obtain ⟨ds, t⟩ := q
      simp only [hi] at h
      obtain ⟨rfl, hint⟩ := scanIntPart_takes hi
      obtain ⟨hds, hdigit⟩ := scanIntPart_digits hi
      obtain ⟨hfrac, hftakes⟩ := scanFraction_takes t
      obtain ⟨hexp, hetakes⟩ := scanExponent_takes (scanFraction t).2
      generalize hf : (scanFraction t).1 = frac at *
      generalize (scanFraction t).2 = u at *
      generalize (scanExponent u).1 = ex at *
      generalize (scanExponent u).2 = w at *
      obtain ⟨hrest, -⟩ := numberOf_rest h []
      subst hrest hexp hfrac
      refine ⟨sign neg ++ ds ++ frac ++ ex, by simp, fun r hr => ?_, fun r => ?_⟩
      swap
      · rw [List.append_assoc, List.append_assoc]
        exact numberAhead_sign hds hdigit _
      have hex : scanExponent (ex ++ r) = (ex, r) := by
        by_cases he : ex = []
        · subst he
          exact scanExponent_none fun c hc => (hr c hc).2.2
        · exact (hetakes he).2 r hr.noDigit
      have hhead : ∀ c ∈ (ex ++ r).head?, isDigit c = false ∧ c ≠ cp '.' := by
        intro c hc
        by_cases he : ex = []
        · subst he
          exact ⟨(hr c hc).1, (hr c hc).2.1⟩
        · have hc' : c ∈ ex.head? := by
            obtain ⟨d, t, rfl⟩ := List.exists_cons_of_ne_nil he
            exact hc
          rcases (hetakes he).1 c hc' with rfl | rfl <;> decide
      have hfr : scanFraction (frac ++ (ex ++ r)) = (frac, ex ++ r) := by
        by_cases hfe : frac = []
        · subst hfe
          exact scanFraction_none fun c hc => (hhead c hc).2
        · exact (hftakes hfe).2 _ fun c hc => (hhead c hc).1
      have hnd : NoDigit (frac ++ (ex ++ r)) := by
        refine noDigit_append (fun c hc => ?_) fun _ c hc => (hhead c hc).1
        have hne : frac ≠ [] := by
          rintro rfl
          cases hc
        rw [(hftakes hne).1 c hc]
        decide
      have hbody : (ds ++ (frac ++ (ex ++ r))).head? ≠ some (cp '-') := by
        obtain ⟨d, t, rfl⟩ := List.exists_cons_of_ne_nil hds
        intro hc
        obtain rfl := Option.some.inj hc
        exact absurd (hdigit (cp '-') (by simp)) (by decide)
      have hshape : sign neg ++ ds ++ frac ++ ex ++ r = sign neg ++ (ds ++ (frac ++ (ex ++ r))) := by
        simp
      rw [hshape, scanNumber_eq fun _ => hbody, hint _ hnd]
      simp only [hfr, hex]
      exact (numberOf_rest h r).2

theorem isPrefixOf_of_head {c d : CodePoint} {q t : Str} (h : d ≠ c) :
    (d :: q).isPrefixOf (c :: t) = false := by
  simp [List.isPrefixOf, h]

/-- The names that are read as values, by their first characters. -/
theorem scanScalar_eq_scanNumber {h : Hooks} {s : Str}
    (hs : NumberAhead s) : scanScalar h s = scanNumber s := by
  have hne : ∀ (d : CodePoint) (q : Str), isDigit d = false → d ≠ cp '-' →
      (d :: q).isPrefixOf s = false := by
    intro d q hd hm
    cases s with
    | nil => rfl
    | cons c t =>
        refine isPrefixOf_of_head fun hdc => ?_
        rcases hs c rfl with hc | ⟨hc, -⟩
        · rw [hdc, hc] at hd
          cases hd
        · exact hm (hdc.trans hc)
  have hminus : (lit "-Infinity").isPrefixOf s = false := by
    match s with
    | [] => rfl
    | [c] => simp [lit_eq, List.isPrefixOf]
    | c :: d :: t =>
        rcases hs c rfl with hc | ⟨-, hd⟩
        · refine isPrefixOf_of_head fun hdc => ?_
          rw [← hdc] at hc
          exact absurd hc (by decide)
        · have hdig := hd d rfl
          have hI : cp 'I' ≠ d := by
            rintro rfl
            exact absurd hdig (by decide)
          have hlit : lit "-Infinity" = cp '-' :: cp 'I' :: lit "nfinity" := by decide
          rw [hlit, List.isPrefixOf, List.isPrefixOf, beq_false_of_ne hI]
          simp
  unfold scanScalar
  rw [show (lit "null").isPrefixOf s = false from hne _ _ (by decide) (by decide),
    show (lit "true").isPrefixOf s = false from hne _ _ (by decide) (by decide),
    show (lit "false").isPrefixOf s = false from hne _ _ (by decide) (by decide),
    show (lit "NaN").isPrefixOf s = false from hne _ _ (by decide) (by decide),
    show (lit "Infinity").isPrefixOf s = false from hne _ _ (by decide) (by decide), hminus]
  simp

theorem eq_append_drop {q s : Str} {n : Nat} (h : q.isPrefixOf s = true) (hn : q.length = n) :
    s = q ++ s.drop n := by
  obtain ⟨t, rfl⟩ := List.isPrefixOf_iff_prefix.mp h
  rw [← hn, List.drop_left]

theorem isPrefixOf_of_heads {q p : Str} (h : q ≠ [] ∧ p ≠ [] ∧ q.head? ≠ p.head?) (r : Str) :
    ¬ q.isPrefixOf (p ++ r) = true := by
  obtain ⟨hq, hp, hne⟩ := h
  obtain ⟨d, q, rfl⟩ := List.exists_cons_of_ne_nil hq
  obtain ⟨c, p, rfl⟩ := List.exists_cons_of_ne_nil hp
  rw [List.cons_append, isPrefixOf_of_head fun hdc => hne (congrArg some hdc)]
  decide

theorem map_rest_eq_ok {r : Except LoadsError Value} {s rest : Str} {v : Value}
    (h : r.map (·, s) = .ok (v, rest)) : r = .ok v ∧ rest = s := by
  cases r with
  | error e => cases h
  | ok w =>
      obtain ⟨rfl, rfl⟩ := Prod.mk.inj (Except.ok.inj h)
      exact ⟨rfl, rfl⟩

/-- A scanned name or number is taken up to its end. -/
theorem scanScalar_takes {h : Hooks} {s rest : Str} {v : Value}
    (hs : scanScalar h s = .ok (v, rest)) :
    ∃ p, s = p ++ rest ∧ TakesStops (scanScalar h) p v := by
  -- the six names start with different characters, so at most one of them stands ahead
  have hself : ∀ q r : Str, q.isPrefixOf (q ++ r) = true :=
    fun q r => List.isPrefixOf_iff_prefix.mpr (List.prefix_append q r)
  unfold scanScalar at hs
  split_ifs at hs with h₁ h₂ h₃ h₄ h₅ h₆
  · obtain ⟨rfl, rfl⟩ := Prod.mk.inj (Except.ok.inj hs)
    refine ⟨lit "null", eq_append_drop h₁ (by decide), fun r _ => ?_⟩
    rw [scanScalar, if_pos (hself _ r), List.drop_left' (by decide)]
  · obtain ⟨rfl, rfl⟩ := Prod.mk.inj (Except.ok.inj hs)
    refine ⟨lit "true", eq_append_drop h₂ (by decide), fun r _ => ?_⟩
    rw [scanScalar, if_neg (isPrefixOf_of_heads (by decide) r), if_pos (hself _ r),
      List.drop_left' (by decide)]
  · obtain ⟨rfl, rfl⟩ := Prod.mk.inj (Except.ok.inj hs)
    refine ⟨lit "false", eq_append_drop h₃ (by decide), fun r _ => ?_⟩
    rw [scanScalar, if_neg (isPrefixOf_of_heads (by decide) r),
      if_neg (isPrefixOf_of_heads (by decide) r), if_pos (hself _ r), List.drop_left' (by decide)]
  · obtain ⟨hv, rfl⟩ := map_rest_eq_ok hs
    refine ⟨lit "NaN", eq_append_drop h₄ (by decide), fun r _ => ?_⟩
    rw [scanScalar, if_neg (isPrefixOf_of_heads (by decide) r),
      if_neg (isPrefixOf_of_heads (by decide) r), if_neg (isPrefixOf_of_heads (by decide) r),
      if_pos (hself _ r), List.drop_left' (by decide), hv]
    rfl
  · obtain ⟨hv, rfl⟩ := map_rest_eq_ok hs
    refine ⟨lit "Infinity", eq_append_drop h₅ (by decide), fun r _ => ?_⟩
    rw [scanScalar, if_neg (isPrefixOf_of_heads (by decide) r),
      if_neg (isPrefixOf_of_heads (by decide) r), if_neg (isPrefixOf_of_heads (by decide) r),
      if_neg (isPrefixOf_of_heads (by decide) r), if_pos (hself _ r), List.drop_left' (by decide), hv]
    rfl
  · obtain ⟨hv, rfl⟩ := map_rest_eq_ok hs
    refine ⟨lit "-Infinity", eq_append_drop h₆ (by decide), fun r _ => ?_⟩
    rw [scanScalar, if_neg (isPrefixOf_of_heads (by decide) r),
      if_neg (isPrefixOf_of_heads (by decide) r), if_neg (isPrefixOf_of_heads (by decide) r),
      if_neg (isPrefixOf_of_heads (by decide) r), if_neg (isPrefixOf_of_heads (by decide) r),
      if_pos (hself _ r), List.drop_left' (by decide), hv]
    rfl
  · obtain ⟨p, rfl, htakes, hahead⟩ := scanNumber_takes hs
    refine ⟨p, rfl, fun r hr => ?_⟩
    rw [scanScalar_eq_scanNumber (hahead r)]
    exact htakes r hr

/-! ## Containers -/

theorem skipWs_eq_cons {s t : Str} {c : CodePoint} (h : skipWs s = c :: t) :
    ∃ w, s = w ++ c :: t ∧ (∀ x ∈ w, isWs x = true) ∧ isWs c = false := by
  refine ⟨s.takeWhile isWs, ?_, fun x hx => List.mem_takeWhile_imp hx, ?_⟩
  · rw [← h]
    exact (List.takeWhile_append_dropWhile).symm
  · have heq : s.dropWhile isWs = c :: t := h
    have hne : s.dropWhile isWs ≠ [] := by simp [heq]
    have hhead := List.head_dropWhile_not isWs hne
    simpa [heq] using hhead

/-- The mark found behind whitespace, and the texts that have the same whitespace and
mark in front. -/
theorem head_skipWs {s : Str} {c : CodePoint} (h : (skipWs s).head? = some c) :
    ∃ w, s = w ++ c :: (skipWs s).tail ∧ (∀ r, skipWs (w ++ c :: r) = c :: r) ∧
      ∀ r, Stops (c :: r) → Stops (w ++ c :: r) := by
  cases hs : skipWs s with
  | nil =>
      rw [hs] at h
      cases h
  | cons d t =>
      rw [hs] at h
      obtain rfl := Option.some.inj h
      obtain ⟨w, heq, hw, hd⟩ := skipWs_eq_cons hs
      refine ⟨w, heq, fun r => ?_, fun r hr => stops_append_ws hw hr⟩
      rw [skipWs_append hw, skipWs_cons hd]

/-- The piece found behind whitespace, likewise. -/
theorem skipWs_eq_append {s p rest : Str} (h : skipWs s = p ++ rest) (hp : p ≠ []) :
    ∃ w, s = w ++ (p ++ rest) ∧ ∀ r, skipWs (w ++ (p ++ r)) = p ++ r := by
  obtain ⟨c, p, rfl⟩ := List.exists_cons_of_ne_nil hp
  obtain ⟨w, heq, hw, hc⟩ := skipWs_eq_cons h
  refine ⟨w, heq, fun r => ?_⟩
  rw [skipWs_append hw, List.cons_append, skipWs_cons hc]

/-- A text that starts with a quote or an opening bracket. -/
def Opens (s : Str) : Prop := ∃ c ∈ s.head?, c = cp '"' ∨ c = cp '\x7b' ∨ c = cp '['

theorem stops_closing {c : CodePoint} (h : c = cp '\x7d' ∨ c = cp ']' ∨ c = cp ',') (r : Str) :
    Stops (c :: r) := by
  apply stops_cons
  rcases h with rfl | rfl | rfl <;> decide

/-- What `opened` takes: the closing bracket behind whitespace, or the elements. -/
theorem opened_takes {α : Type} {close : CodePoint} {s rest : Str} {xs : List α}
    {elements : Str → Except LoadsError (List α × Str)}
    (hel : ∀ t rest, elements t = .ok (xs, rest) →
      ∃ p, t = p ++ rest ∧ Takes elements p xs ∧ p.getLast? = some close)
    (hs : opened close s (elements (skipWs s)) = .ok (xs, rest)) :
    ∃ p, s = p ++ rest ∧ Takes (fun t => opened close t (elements (skipWs t))) p xs ∧
      p.getLast? = some close := by
  unfold opened at hs
  split_ifs at hs with hc
  · obtain ⟨rfl, rfl⟩ := Prod.mk.inj (Except.ok.inj hs)
    obtain ⟨w, heq, hw, -⟩ := head_skipWs hc
    refine ⟨w ++ [close], ?_, fun r => ?_, List.getLast?_concat ..⟩
    · rw [List.append_assoc]
      exact heq
    · have hsk : skipWs (w ++ [close] ++ r) = close :: r := by
        rw [List.append_assoc]
        exact hw r
      simp only [opened, hsk, List.head?_cons, if_true, List.tail_cons]
  · obtain ⟨p, hp, htakes, hlast⟩ := hel _ _ hs
    have hne : p ≠ [] := by
      rintro rfl
      cases hlast
    obtain ⟨w, heq, hw⟩ := skipWs_eq_append hp hne
    have hhead : ¬ p.head? = some close := by
      rw [hp, List.head?_append_of_ne_nil _ hne] at hc
      exact hc
    refine ⟨w ++ p, ?_, fun r => ?_, ?_⟩
    · rw [List.append_assoc]
      exact heq
    · have hsk : skipWs (w ++ p ++ r) = p ++ r := by
        rw [List.append_assoc]
        exact hw r
      simp only [opened, hsk]
      rw [List.head?_append_of_ne_nil _ hne, if_neg hhead]
      exact htakes r
    · rw [List.getLast?_append_of_ne_nil _ hne, hlast]

/-- One scanned value: the piece it takes, which a container ends with its bracket. -/
def TakesValue (h : Hooks) (fuel depth : Nat) (s rest : Str) (v : Value) : Prop :=
  ∃ p, s = p ++ rest ∧ (∀ r, Stops r ∨ Opens s → scanOnce h fuel depth (p ++ r) = .ok (v, r)) ∧
    (s.head? = some (cp '\x7b') → p.getLast? = some (cp '\x7d'))

theorem TakesValue.ne_nil {h : Hooks} {fuel depth : Nat} {p rest : Str} {v : Value}
    (ht : ∀ r, Stops r ∨ Opens (p ++ rest) → scanOnce h fuel depth (p ++ r) = .ok (v, r)) :
    p ≠ [] := by
  rintro rfl
  have := ht [] (.inl stops_nil)
  cases fuel with
  | zero => simp [scanOnce] at this
  | succ fuel => simp [scanOnce] at this

theorem scanOnce_takes_step {h : Hooks} {fuel : Nat}
    (ihm : ∀ depth s ms rest, scanMembers h fuel depth s = .ok (ms, rest) →
      ∃ p, s = p ++ rest ∧ Takes (scanMembers h fuel depth) p ms ∧ p.getLast? = some (cp '\x7d'))
    (ihi : ∀ depth s vs rest, scanItems h fuel depth s = .ok (vs, rest) →
      ∃ p, s = p ++ rest ∧ Takes (scanItems h fuel depth) p vs ∧ p.getLast? = some (cp ']'))
    {depth : Nat} {s rest : Str} {v : Value} (hs : scanOnce h (fuel + 1) depth s = .ok (v, rest)) :
    TakesValue h (fuel + 1) depth s rest v := by
  cases s with
  | nil => simp [scanOnce] at hs
  | cons c cs =>
      rw [scanOnce] at hs
      split_ifs at hs with h₁ h₂ h₃ h₄ h₅
      · obtain ⟨⟨t, r⟩, ht, hr⟩ := bind_eq_ok.mp hs
        obtain ⟨rfl, rfl⟩ := Prod.mk.inj (Except.ok.inj hr)
        obtain ⟨p, rfl, htakes⟩ := scanString_takes ht
        subst h₁
        refine ⟨cp '"' :: p, rfl, fun r _ => ?_, fun hb => absurd (Option.some.inj hb) (by decide)⟩
        rw [List.cons_append, scanOnce, if_pos rfl, htakes r]
        rfl
      · obtain ⟨⟨ps, r⟩, ht, hr⟩ := bind_eq_ok.mp hs
        obtain ⟨w, hw, hr⟩ := bind_eq_ok.mp hr
        obtain ⟨rfl, rfl⟩ := Prod.mk.inj (Except.ok.inj hr)
        obtain ⟨p, rfl, htakes, hlast⟩ := opened_takes (ihm (depth - 1) · _ ·) ht
        subst h₂
        refine ⟨cp '\x7b' :: p, rfl, fun r _ => ?_, fun _ => ?_⟩
        · have hopened := htakes r
          simp only at hopened
          rw [List.cons_append, scanOnce, if_neg h₁, if_pos rfl, if_neg h₃, hopened]
          simp only [bind, Except.bind, hw]
          rfl
        · rw [List.getLast?_cons, hlast]
          rfl
      · obtain ⟨⟨xs, r⟩, ht, hr⟩ := bind_eq_ok.mp hs
        obtain ⟨rfl, rfl⟩ := Prod.mk.inj (Except.ok.inj hr)
        obtain ⟨p, rfl, htakes, hlast⟩ := opened_takes (ihi (depth - 1) · _ ·) ht
        subst h₄
        refine ⟨cp '[' :: p, rfl, fun r _ => ?_, fun hb => absurd (Option.some.inj hb) (by decide)⟩
        have hopened := htakes r
        simp only at hopened
        rw [List.cons_append, scanOnce, if_neg h₁, if_neg h₂, if_pos rfl, if_neg h₅, hopened]
        rfl
      · obtain ⟨p, hp, htakes⟩ := scanScalar_takes hs
        cases p with
        | nil =>
            have := scanScalar_length hs
            rw [hp] at this
            exact absurd this (lt_irrefl _)
        | cons d p =>
            obtain ⟨rfl, rfl⟩ := List.cons.inj hp
            have hopen : ¬ Opens (c :: (p ++ rest)) := by
              rintro ⟨x, hx, hcase⟩
              obtain rfl := Option.some.inj hx
              exact hcase.elim h₁ fun hcase => hcase.elim h₂ h₄
            refine ⟨c :: p, rfl, fun r hr => ?_, fun hb => absurd (Option.some.inj hb) h₂⟩
            rw [List.cons_append, scanOnce, if_neg h₁, if_neg h₂, if_neg h₄]
            exact htakes r (hr.resolve_right hopen)

/-- A scanned value behind whitespace: the whitespace and the piece. -/
theorem TakesValue.skip {h : Hooks} {fuel depth : Nat} {s rest : Str} {v : Value}
    (ht : TakesValue h fuel depth (skipWs s) rest v) :
    ∃ p, s = p ++ rest ∧ ∀ r, Stops r → scanOnce h fuel depth (skipWs (p ++ r)) = .ok (v, r) := by
  obtain ⟨p, hp, htakes, -⟩ := ht
  have htakes' : ∀ r, Stops r ∨ Opens (p ++ rest) → scanOnce h fuel depth (p ++ r) = .ok (v, r) :=
    fun r hr => htakes r (hp ▸ hr)
  have hne : p ≠ [] := TakesValue.ne_nil htakes'
  obtain ⟨w, heq, hw⟩ := skipWs_eq_append hp hne
  refine ⟨w ++ p, ?_, fun r hr => ?_⟩
  · rw [List.append_assoc]
    exact heq
  · rw [List.append_assoc, hw]
    exact htakes r (.inl hr)

theorem scanMembers_takes_step {h : Hooks} {fuel : Nat}
    (ihv : ∀ depth s v rest, scanOnce h fuel depth s = .ok (v, rest) →
      TakesValue h fuel depth s rest v)
    (ihm : ∀ depth s ms rest, scanMembers h fuel depth s = .ok (ms, rest) →
      ∃ p, s = p ++ rest ∧ Takes (scanMembers h fuel depth) p ms ∧ p.getLast? = some (cp '\x7d'))
    {depth : Nat} {s rest : Str} {ms : List (Str × Value)}
    (hs : scanMembers h (fuel + 1) depth s = .ok (ms, rest)) :
    ∃ p, s = p ++ rest ∧ Takes (scanMembers h (fuel + 1) depth) p ms ∧
      p.getLast? = some (cp '\x7d') := by
  cases s with
  | nil => simp [scanMembers] at hs
  | cons c cs =>
      rw [scanMembers] at hs
      split_ifs at hs with h₁
      obtain ⟨⟨key, r⟩, hk, hmember⟩ := bind_eq_ok.mp hs
      simp only at hmember
      split_ifs at hmember with h₂
      obtain ⟨⟨v, r'⟩, hv, hmore⟩ := bind_eq_ok.mp hmember
      obtain ⟨pk, hpk, hkey⟩ := scanString_takes hk
      obtain ⟨w, hw, hcolon, -⟩ := head_skipWs h₂
      obtain ⟨pv, hpv, hval⟩ := (ihv _ _ _ _ hv).skip
      simp only at hmore
      rw [h₁, hpk]
      split_ifs at hmore with h₃ h₄
      · obtain ⟨rfl, rfl⟩ := Prod.mk.inj (Except.ok.inj hmore)
        obtain ⟨w', hw', hclose, hstops⟩ := head_skipWs h₃
        refine ⟨cp '"' :: (pk ++ (w ++ cp ':' :: (pv ++ (w' ++ [cp '\x7d'])))), ?_, fun r => ?_, ?_⟩
        · simp only [List.cons_append, List.append_assoc, List.nil_append]
          rw [← hw', ← hpv, ← hw]
        · simp only [List.cons_append, List.append_assoc, List.nil_append]
          rw [scanMembers, if_pos rfl, hkey]
          simp only [bind, Except.bind]
          rw [hcolon, List.head?_cons, if_pos rfl, List.tail_cons,
            hval _ (hstops _ (stops_closing (.inl rfl) r))]
          simp only
          rw [hclose, List.head?_cons, if_pos rfl]
          rfl
        · simp [List.getLast?_cons, List.getLast?_append]
      · obtain ⟨⟨ms', r''⟩, hm, hmore⟩ := bind_eq_ok.mp hmore
        obtain ⟨rfl, rfl⟩ := Prod.mk.inj (Except.ok.inj hmore)
        obtain ⟨w', hw', hcomma, hstops⟩ := head_skipWs h₄
        obtain ⟨pm, hpm, hrest, hlast⟩ := ihm _ _ _ _ hm
        have hne : pm ≠ [] := by
          rintro rfl
          cases hlast
        obtain ⟨w'', hw'', hskip⟩ := skipWs_eq_append hpm hne
        refine ⟨cp '"' :: (pk ++ (w ++ cp ':' :: (pv ++ (w' ++ cp ',' :: (w'' ++ pm))))), ?_,
          fun r => ?_, ?_⟩
        · simp only [List.cons_append, List.append_assoc]
          rw [← hw'', ← hw', ← hpv, ← hw]
        · simp only [List.cons_append, List.append_assoc]
          rw [scanMembers, if_pos rfl, hkey]
          simp only [bind, Except.bind]
          rw [hcolon, List.head?_cons, if_pos rfl, List.tail_cons,
            hval _ (hstops _ (stops_closing (.inr (.inr rfl)) _))]
          simp only
          rw [hcomma, List.head?_cons, if_neg (by decide), if_pos rfl, List.tail_cons, hskip, hrest r]
          rfl
        · simp [List.getLast?_cons, List.getLast?_append, hlast]

theorem scanItems_takes_step {h : Hooks} {fuel : Nat}
    (ihv : ∀ depth s v rest, scanOnce h fuel depth s = .ok (v, rest) →
      TakesValue h fuel depth s rest v)
    (ihi : ∀ depth s vs rest, scanItems h fuel depth s = .ok (vs, rest) →
      ∃ p, s = p ++ rest ∧ Takes (scanItems h fuel depth) p vs ∧ p.getLast? = some (cp ']'))
    {depth : Nat} {s rest : Str} {vs : List Value}
    (hs : scanItems h (fuel + 1) depth s = .ok (vs, rest)) :
    ∃ p, s = p ++ rest ∧ Takes (scanItems h (fuel + 1) depth) p vs ∧
      p.getLast? = some (cp ']') := by
  rw [scanItems] at hs
  obtain ⟨⟨v, r⟩, hv, hmore⟩ := bind_eq_ok.mp hs
  obtain ⟨pv, hpv, hval, -⟩ := ihv _ _ _ _ hv
  rw [hpv]
  simp only at hmore
  split_ifs at hmore with h₁ h₂
  · obtain ⟨rfl, rfl⟩ := Prod.mk.inj (Except.ok.inj hmore)
    obtain ⟨w, hw, hclose, hstops⟩ := head_skipWs h₁
    refine ⟨pv ++ (w ++ [cp ']']), ?_, fun r => ?_, ?_⟩
    · simp only [List.cons_append, List.append_assoc, List.nil_append]
      rw [← hw]
    · simp only [List.cons_append, List.append_assoc, List.nil_append]
      rw [scanItems, hval _ (.inl (hstops _ (stops_closing (.inr (.inl rfl)) r)))]
      simp only [bind, Except.bind]
      rw [hclose, List.head?_cons, if_pos rfl]
      rfl
    · simp [List.getLast?_append]
  · obtain ⟨⟨vs', r'⟩, hi, hmore⟩ := bind_eq_ok.mp hmore
    obtain ⟨rfl, rfl⟩ := Prod.mk.inj (Except.ok.inj hmore)
    obtain ⟨w, hw, hcomma, hstops⟩ := head_skipWs h₂
    obtain ⟨pi, hpi, hrest, hlast⟩ := ihi _ _ _ _ hi
    have hne : pi ≠ [] := by
      rintro rfl
      cases hlast
    obtain ⟨w', hw', hskip⟩ := skipWs_eq_append hpi hne
    refine ⟨pv ++ (w ++ cp ',' :: (w' ++ pi)), ?_, fun r => ?_, ?_⟩
    · simp only [List.cons_append, List.append_assoc]
      rw [← hw', ← hw]
    · simp only [List.cons_append, List.append_assoc]
      rw [scanItems, hval _ (.inl (hstops _ (stops_closing (.inr (.inr rfl)) _)))]
      simp only [bind, Except.bind]
      rw [hcomma, List.head?_cons, if_neg (by decide), if_pos rfl, List.tail_cons, hskip, hrest r]
      rfl
    · simp [List.getLast?_cons, List.getLast?_append, hlast]

/-- Every scan takes a piece off the front, and whatever stands behind the piece it takes
the same. -/
theorem scan_takes (h : Hooks) (fuel : Nat) :
    (∀ depth s v rest, scanOnce h fuel depth s = .ok (v, rest) → TakesValue h fuel depth s rest v) ∧
    (∀ depth s ms rest, scanMembers h fuel depth s = .ok (ms, rest) →
      ∃ p, s = p ++ rest ∧ Takes (scanMembers h fuel depth) p ms ∧ p.getLast? = some (cp '\x7d')) ∧
    (∀ depth s vs rest, scanItems h fuel depth s = .ok (vs, rest) →
      ∃ p, s = p ++ rest ∧ Takes (scanItems h fuel depth) p vs ∧ p.getLast? = some (cp ']')) := by
  induction fuel with
  | zero => simp [scanOnce, scanMembers, scanItems]
  | succ fuel ih =>
      obtain ⟨ihv, ihm, ihi⟩ := ih
      exact ⟨fun _ _ _ _ => scanOnce_takes_step ihm ihi,
        fun _ _ _ _ => scanMembers_takes_step ihv ihm, fun _ _ _ _ => scanItems_takes_step ihv ihi⟩

/-! ## Documents -/

theorem eq_ws_of_skipWs_nil {s : Str} (h : skipWs s = []) : ∀ c ∈ s, isWs c = true :=
  List.dropWhile_eq_nil_iff.mp h

/-- A text that is scanned as one value with braces around it, whatever stands behind. -/
structure IsObject (h : Hooks) (limit : Nat) (p : Str) (v : Value) : Prop where
  head : p.head? = some (cp '\x7b')
  last : p.getLast? = some (cp '\x7d')
  scan : ∀ r fuel, 2 * (p ++ r).length + 1 ≤ fuel → scanOnce h fuel limit (p ++ r) = .ok (v, r)

theorem IsObject.ne_nil {h : Hooks} {limit : Nat} {p : Str} {v : Value}
    (ho : IsObject h limit p v) : p ≠ [] := by
  rintro rfl
  cases ho.head

/-- What is scanned from a brace on is an object. -/
theorem isObject_of_scanOnce {h : Hooks} {limit fuel : Nat} {s rest : Str} {v : Value}
    (hf : 2 * s.length + 1 ≤ fuel) (hs : scanOnce h fuel limit s = .ok (v, rest))
    (hb : s.head? = some (cp '\x7b')) : ∃ p, s = p ++ rest ∧ IsObject h limit p v := by
  have hopen : ∀ p r : Str, s = p ++ r → p ≠ [] → p.head? = some (cp '\x7b') := by
    rintro p r rfl hp
    rwa [List.head?_append_of_ne_nil _ hp] at hb
  obtain ⟨p, hp, htakes, hlast⟩ := (scan_takes h fuel).1 _ _ _ _ hs
  have htakes' : ∀ r, Stops r ∨ Opens (p ++ rest) → scanOnce h fuel limit (p ++ r) = .ok (v, r) :=
    fun r hr => htakes r (hp ▸ hr)
  have hne : p ≠ [] := TakesValue.ne_nil htakes'
  have hhead := hopen p rest hp hne
  refine ⟨p, hp, hhead, hlast hb, fun r fuel' hf' => ?_⟩
  -- the scan of the piece alone needs no more fuel than it has, so it succeeds with any
  have hself : scanOnce h fuel' limit p = .ok (v, []) := by
    have := htakes [] (.inl stops_nil)
    rw [List.append_nil] at this
    rw [← this]
    apply scanOnce_enough
    · rw [List.length_append] at hf'
      omega
    · rw [hp, List.length_append] at hf
      omega
  obtain ⟨q, hq, htakes', -⟩ := (scan_takes h fuel').1 _ _ _ _ hself
  rw [List.append_nil] at hq
  subst hq
  exact htakes' r (.inr ⟨_, hhead, .inr (.inl rfl)⟩)

/-- A document that starts with a brace is one object between whitespace. -/
theorem loadsWith_object {h : Hooks} {limit : Nat} {s : Str} {v : Value}
    (hs : loadsWith h limit s = .ok v) (hb : (skipWs s).head? = some (cp '\x7b')) :
    ∃ w p w', s = w ++ (p ++ w') ∧ (∀ c ∈ w, isWs c = true) ∧ (∀ c ∈ w', isWs c = true) ∧
      IsObject h limit p v := by
  unfold loadsWith at hs
  split_ifs at hs with hbom
  obtain ⟨⟨u, rest⟩, hscan, hs⟩ := bind_eq_ok.mp hs
  simp only at hs
  split_ifs at hs with hend
  obtain rfl := Except.ok.inj hs
  have hlen := skipWs_length s
  obtain ⟨p, hp, hobj⟩ := isObject_of_scanOnce (by omega) hscan hb
  refine ⟨s.takeWhile isWs, p, rest, ?_, fun c hc => List.mem_takeWhile_imp hc,
    eq_ws_of_skipWs_nil hend, hobj⟩
  rw [← hp]
  exact (List.takeWhile_append_dropWhile).symm

/-- One object between whitespace is a document. -/
theorem IsObject.loadsWith {h : Hooks} {limit : Nat} {w p w' : Str} {v : Value}
    (ho : IsObject h limit p v) (hw : ∀ c ∈ w, isWs c = true) (hw' : ∀ c ∈ w', isWs c = true) :
    loadsWith h limit (w ++ (p ++ w')) = .ok v := by
  obtain ⟨d, t, rfl⟩ := List.exists_cons_of_ne_nil ho.ne_nil
  obtain rfl : d = cp '\x7b' := Option.some.inj ho.head
  have hskip : skipWs (w ++ (cp '\x7b' :: t ++ w')) = cp '\x7b' :: t ++ w' := by
    rw [skipWs_append hw, List.cons_append, skipWs_cons (by decide)]
  have hbom : (w ++ (cp '\x7b' :: t ++ w')).head? ≠ some bom := by
    cases w with
    | nil => simp [bom, show cp '\x7b' ≠ cp '\uFEFF' by decide]
    | cons c w =>
        intro hc
        have : c = bom := Option.some.inj hc
        have hws := hw c (by simp)
        rw [this] at hws
        exact absurd hws (by decide)
  have hend : skipWs w' = [] := List.dropWhile_eq_nil_iff.mpr hw'
  have hscan := ho.scan w' (2 * (w ++ (cp '\x7b' :: t ++ w')).length + 2)
    (by simp only [List.length_append]; omega)
  simp only [Json.loadsWith, if_neg hbom, hskip, hscan, bind, Except.bind, hend, if_true]
  rfl

/-- Two objects at the front of one text are the same. -/
theorem IsObject.eq_of_prefix {h : Hooks} {limit : Nat} {p q r r' : Str} {v w : Value}
    (hp : IsObject h limit p v) (hq : IsObject h limit q w) (heq : p ++ r = q ++ r') :
    p = q ∧ v = w := by
  have h₁ := hp.scan r (2 * (q ++ r').length + 1) (by rw [heq])
  have h₂ := hq.scan r' (2 * (q ++ r').length + 1) le_rfl
  rw [heq, h₂] at h₁
  obtain ⟨rfl, rfl⟩ := Prod.mk.inj (Except.ok.inj h₁)
  exact ⟨List.append_cancel_right heq, rfl⟩

/-- A scalar is no object when no constant is. -/
theorem keeps_noDict {h : Hooks} (hc : ∀ name v, h.constant name = .ok v → ∀ kvs, v ≠ .dict kvs) :
    Hooks.Keeps ⟨fun _ => .error .hook, h.constant⟩ fun v => ∀ kvs, v ≠ .dict kvs where
  null _ := nofun
  bool _ _ := nofun
  int _ _ _ := nofun
  float _ _ := nofun
  str _ _ := nofun
  list _ _ _ := nofun
  constant := hc
  objectPairs _ _ _ := nofun

/-- An object is read from a brace on. -/
theorem head_of_scanOnce_dict {h : Hooks}
    (hc : ∀ name v, h.constant name = .ok v → ∀ kvs, v ≠ .dict kvs) {limit fuel : Nat}
    {s rest : Str} {kvs : List (Key × Value)}
    (hs : scanOnce h fuel limit s = .ok (.dict kvs, rest)) : s.head? = some (cp '\x7b') := by
  cases fuel with
  | zero => simp [scanOnce] at hs
  | succ fuel =>
      cases s with
      | nil => simp [scanOnce] at hs
      | cons c cs =>
          rw [scanOnce] at hs
          split_ifs at hs with h₁ h₂ h₃ h₄ h₅
          · obtain ⟨⟨t, r⟩, ht, hr⟩ := bind_eq_ok.mp hs
            cases hr
          · rw [h₂]
            rfl
          · obtain ⟨⟨t, r⟩, ht, hr⟩ := bind_eq_ok.mp hs
            cases hr
          · have hscalar : scanScalar ⟨fun _ => .error .hook, h.constant⟩ (c :: cs) =
                .ok (.dict kvs, rest) := hs
            exact absurd rfl ((keeps_noDict hc).keepsRead.scanScalar hscalar kvs)

/-- A document that reads as an object is one object between whitespace. -/
theorem loadsWith_dict {h : Hooks} (hc : ∀ name v, h.constant name = .ok v → ∀ kvs, v ≠ .dict kvs)
    {limit : Nat} {s : Str} {kvs : List (Key × Value)} (hs : loadsWith h limit s = .ok (.dict kvs)) :
    ∃ w p w', s = w ++ (p ++ w') ∧ (∀ c ∈ w, isWs c = true) ∧ (∀ c ∈ w', isWs c = true) ∧
      IsObject h limit p (.dict kvs) := by
  apply loadsWith_object hs
  unfold loadsWith at hs
  split_ifs at hs with hbom
  obtain ⟨⟨u, rest⟩, hscan, hs⟩ := bind_eq_ok.mp hs
  simp only at hs
  split_ifs at hs with hend
  obtain rfl := Except.ok.inj hs
  exact head_of_scanOnce_dict hc hscan

/-- No proper piece from the front of an object is a document. -/
theorem IsObject.torn {h : Hooks} {limit : Nat} {p q r : Str} {v w : Value}
    (hp : IsObject h limit p v) (heq : p = q ++ r) (hr : r ≠ []) :
    Json.loadsWith h limit q ≠ .ok w := by
  intro hq
  cases q with
  | nil => simp [Json.loadsWith, skipWs, scanOnce, bind, Except.bind] at hq
  | cons c q =>
      have hc : c = cp '\x7b' := by
        have := hp.head
        rw [heq] at this
        exact Option.some.inj this
      subst hc
      have hhead : (skipWs (cp '\x7b' :: q)).head? = some (cp '\x7b') := by
        rw [skipWs_cons (by decide)]
        rfl
      obtain ⟨u, p', u', hsplit, hu, -, hobj⟩ := loadsWith_object hq hhead
      cases u with
      | cons x u =>
          have hx := hu x (by simp)
          rw [List.cons_append] at hsplit
          rw [← (List.cons.inj hsplit).1] at hx
          exact absurd hx (by decide)
      | nil =>
          have hsame : p ++ [] = p' ++ (u' ++ r) := by
            rw [List.append_nil, heq, hsplit, List.nil_append, List.append_assoc]
          obtain ⟨rfl, -⟩ := hp.eq_of_prefix hobj hsame
          have hnil : u' ++ r = [] := by
            have := List.append_cancel_left hsame
            exact this.symm
          exact hr (List.append_eq_nil_iff.mp hnil).2

end IcsDeception.Json
