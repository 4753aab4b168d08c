import IcsDeception.Lib.Json.Decode

/-!
# What the scanner consumes

Every scan leaves a proper suffix behind, and enough fuel is enough: the result
of a scan no longer depends on the fuel once it exceeds twice the text.
-/

namespace IcsDeception.Json

open Text Decimal

theorem consText_eq_ok {c : CodePoint} {r : Except LoadsError (Str × Str)} {t rest : Str} :
    consText c r = .ok (t, rest) ↔ ∃ t', r = .ok (t', rest) ∧ t = c :: t' := by
  cases r with
  | error e => simp [consText, Except.map]
  | ok p =>
      obtain ⟨a, b⟩ := p
      simp only [consText, Except.map, Except.ok.injEq, Prod.mk.injEq]
      constructor
      · rintro ⟨rfl, rfl⟩
        exact ⟨a, ⟨rfl, rfl⟩, rfl⟩
      · rintro ⟨t', ⟨rfl, rfl⟩, rfl⟩
        exact ⟨rfl, rfl⟩

theorem skipWs_length (s : Str) : (skipWs s).length ≤ s.length := List.length_dropWhile_le ..

theorem scanString_length {s t rest : Str} (h : scanString s = .ok (t, rest)) :
    rest.length < s.length := by
  induction s using scanString.induct generalizing t rest <;>
    rw [scanString.eq_def] at h <;> simp only [*] at h <;> simp [consText_eq_ok] at h
  case case2 =>
      obtain ⟨-, rfl⟩ := h
      simp
  all_goals
    rename_i ih
    obtain ⟨t', hs, -⟩ := h
    have := ih hs
    simp only [List.length_cons]
    omega

theorem dropWhile_isDigit_length (s : Str) : (s.dropWhile isDigit).length ≤ s.length :=
  List.length_dropWhile_le ..

theorem scanIntPart_length {s ds rest : Str} (h : scanIntPart s = some (ds, rest)) :
    rest.length < s.length := by
  cases s with
  | nil => simp [scanIntPart] at h
  | cons c cs =>
      have := dropWhile_isDigit_length cs
      simp only [scanIntPart] at h
      split_ifs at h <;> simp only [Option.some.injEq, Prod.mk.injEq] at h <;>
        obtain ⟨-, rfl⟩ := h <;> simp only [List.length_cons] <;> omega

theorem scanFraction_length (s : Str) : (scanFraction s).2.length ≤ s.length := by
  unfold scanFraction
  split
  · rename_i p d cs
    have := dropWhile_isDigit_length cs
    split_ifs <;> simp only [List.length_cons] <;> omega
  · exact le_rfl

theorem scanExponent_length (s : Str) : (scanExponent s).2.length ≤ s.length := by
  unfold scanExponent
  split
  · rename_i e cs
    split_ifs with he
    · split
      · rename_i g d rest
        have h₁ := dropWhile_isDigit_length rest
        have h₂ := dropWhile_isDigit_length (d :: rest)
        simp only [List.length_cons] at h₂
        split_ifs <;> simp only [List.length_cons] <;> omega
      · split_ifs <;> simp
      · simp
    · exact le_rfl
  · exact le_rfl

theorem scanNumber_length {s rest : Str} {v : Value} (h : scanNumber s = .ok (v, rest)) :
    rest.length < s.length := by
  unfold scanNumber at h
  cases hi : scanIntPart (if s.head? = some (cp '-') then s.tail else s) with
  | none => simp [hi] at h
  | some p =>
      obtain ⟨ds, r⟩ := p
      have h₁ := scanIntPart_length hi
      have h₂ := scanFraction_length r
      have h₃ := scanExponent_length (scanFraction r).2
      have h₄ : (if s.head? = some (cp '-') then s.tail else s).length ≤ s.length := by
        split_ifs <;> simp
      simp only [hi] at h
      split_ifs at h <;>
        simp only [Except.ok.injEq, Prod.mk.injEq] at h <;>
        obtain ⟨-, rfl⟩ := h <;> omega

theorem map_pair_eq_ok {ε α β : Type*} {r : Except ε α} {b b' : β} {a : α}
    (h : r.map (·, b) = .ok (a, b')) : b = b' := by
  cases r with
  | error e => simp [Except.map] at h
  | ok x =>
      simp only [Except.map, Except.ok.injEq, Prod.mk.injEq] at h
      exact h.2

theorem drop_length_lt {p s : Str} {n : Nat} (hp : p.isPrefixOf s = true) (hn : 0 < n)
    (hl : p ≠ []) : (s.drop n).length < s.length := by
  have : 0 < p.length := List.length_pos_iff.mpr hl
  have := (List.isPrefixOf_iff_prefix.mp hp).length_le
  simp only [List.length_drop]
  omega

theorem scanScalar_length {h : Hooks} {s rest : Str} {v : Value}
    (hs : scanScalar h s = .ok (v, rest)) : rest.length < s.length := by
  unfold scanScalar at hs
  split_ifs at hs with h₁ h₂ h₃ h₄ h₅ h₆
  · simp only [Except.ok.injEq, Prod.mk.injEq] at hs
    exact hs.2 ▸ drop_length_lt h₁ (by decide) (by decide)
  · simp only [Except.ok.injEq, Prod.mk.injEq] at hs
    exact hs.2 ▸ drop_length_lt h₂ (by decide) (by decide)
  · simp only [Except.ok.injEq, Prod.mk.injEq] at hs
    exact hs.2 ▸ drop_length_lt h₃ (by decide) (by decide)
  · exact map_pair_eq_ok hs ▸ drop_length_lt h₄ (by decide) (by decide)
  · exact map_pair_eq_ok hs ▸ drop_length_lt h₅ (by decide) (by decide)
  · exact map_pair_eq_ok hs ▸ drop_length_lt h₆ (by decide) (by decide)
  · exact scanNumber_length hs

theorem bind_eq_error {ε α β : Type} {x : Except ε α} {f : α → Except ε β} {e : ε} :
    x >>= f = .error e ↔ x = .error e ∨ ∃ a, x = .ok a ∧ f a = .error e := by
  cases x <;> simp [bind, Except.bind]

theorem bind_eq_ok {ε α β : Type} {x : Except ε α} {f : α → Except ε β} {b : β} :
    (x >>= f) = .ok b ↔ ∃ a, x = .ok a ∧ f a = .ok b := by
  cases x with
  | error e => simp [bind, Except.bind]
  | ok a => simp [bind, Except.bind]

theorem tail_skipWs_length {s : Str} {c : CodePoint} (h : (skipWs s).head? = some c) :
    (skipWs s).tail.length < s.length := by
  have h₁ := skipWs_length s
  cases hs : skipWs s with
  | nil => simp [hs] at h
  | cons d ds =>
      rw [hs] at h₁
      simp only [List.tail_cons, List.length_cons] at h₁ ⊢
      omega

theorem opened_length {α : Type} {s rest : Str} {close : CodePoint} {xs : List α}
    {r : Except LoadsError (List α × Str)}
    (hr : ∀ ys t, r = .ok (ys, t) → t.length < (skipWs s).length)
    (h : opened close s r = .ok (xs, rest)) : rest.length < s.length := by
  have hw := skipWs_length s
  unfold opened at h
  split_ifs at h with hc
  · simp only [Except.ok.injEq, Prod.mk.injEq] at h
    exact h.2 ▸ tail_skipWs_length hc
  · exact (hr _ _ h).trans_le hw

/-- Every successful scan leaves a proper suffix. -/
theorem scan_length (h : Hooks) (fuel : Nat) :
    (∀ depth s v rest, scanOnce h fuel depth s = .ok (v, rest) → rest.length < s.length) ∧
    (∀ depth s ms rest, scanMembers h fuel depth s = .ok (ms, rest) → rest.length < s.length) ∧
    (∀ depth s vs rest, scanItems h fuel depth s = .ok (vs, rest) → rest.length < s.length) := by
  induction fuel with
  | zero => simp [scanOnce, scanMembers, scanItems]
  | succ fuel ih =>
      obtain ⟨ihv, ihm, ihi⟩ := ih
      refine ⟨?_, ?_, ?_⟩
      · intro depth s v rest hs
        cases s with
        | nil => simp [scanOnce] at hs
        | cons c cs =>
            rw [scanOnce] at hs
            simp only [List.length_cons]
            split_ifs at hs with h₁ h₂ h₃ h₄ h₅
            · obtain ⟨⟨t, r⟩, ht, hr⟩ := bind_eq_ok.mp hs
              have := scanString_length ht
              simp only [pure, Except.pure, Except.ok.injEq, Prod.mk.injEq] at hr
              obtain ⟨-, rfl⟩ := hr
              omega
            · obtain ⟨⟨ps, r⟩, ht, hr⟩ := bind_eq_ok.mp hs
              obtain ⟨w, -, hw⟩ := bind_eq_ok.mp hr
              have := opened_length (ihm _ _) ht
              simp only [pure, Except.pure, Except.ok.injEq, Prod.mk.injEq] at hw
              obtain ⟨-, rfl⟩ := hw
              omega
            · obtain ⟨⟨xs, r⟩, ht, hr⟩ := bind_eq_ok.mp hs
              have := opened_length (ihi _ _) ht
              simp only [pure, Except.pure, Except.ok.injEq, Prod.mk.injEq] at hr
              obtain ⟨-, rfl⟩ := hr
              omega
            · exact scanScalar_length hs
      · intro depth s ms rest hs
        cases s with
        | nil => simp [scanMembers] at hs
        | cons c cs =>
            rw [scanMembers] at hs
            simp only [List.length_cons]
            split_ifs at hs with h₁
            obtain ⟨⟨key, r⟩, hk, hs⟩ := bind_eq_ok.mp hs
            have := scanString_length hk
            simp only at hs
            split_ifs at hs with h₂
            have := tail_skipWs_length h₂
            have := skipWs_length (skipWs r).tail
            obtain ⟨⟨v, r'⟩, hv, hs⟩ := bind_eq_ok.mp hs
            have := ihv _ _ _ _ hv
            simp only at hs
            split_ifs at hs with h₃ h₄
            · have := tail_skipWs_length h₃
              simp only [pure, Except.pure, Except.ok.injEq, Prod.mk.injEq] at hs
              obtain ⟨-, rfl⟩ := hs
              omega
            · obtain ⟨⟨ms', r''⟩, hm, hs⟩ := bind_eq_ok.mp hs
              have := tail_skipWs_length h₄
              have := skipWs_length (skipWs r').tail
              have := ihm _ _ _ _ hm
              simp only [pure, Except.pure, Except.ok.injEq, Prod.mk.injEq] at hs
              obtain ⟨-, rfl⟩ := hs
              omega
      · intro depth s vs rest hs
        rw [scanItems] at hs
        obtain ⟨⟨v, r⟩, hv, hs⟩ := bind_eq_ok.mp hs
        have := ihv _ _ _ _ hv
        simp only at hs
        split_ifs at hs with h₁ h₂
        · have := tail_skipWs_length h₁
          simp only [pure, Except.pure, Except.ok.injEq, Prod.mk.injEq] at hs
          obtain ⟨-, rfl⟩ := hs
          omega
        · obtain ⟨⟨vs', r'⟩, hi, hs⟩ := bind_eq_ok.mp hs
          have := tail_skipWs_length h₂
          have := skipWs_length (skipWs r).tail
          have := ihi _ _ _ _ hi
          simp only [pure, Except.pure, Except.ok.injEq, Prod.mk.injEq] at hs
          obtain ⟨-, rfl⟩ := hs
          omega

theorem bind_congr_ok {ε α β : Type} {x : Except ε α} {f g : α → Except ε β}
    (h : ∀ a, x = .ok a → f a = g a) : (x >>= f) = (x >>= g) := by
  cases x with
  | error e => rfl
  | ok a => exact h a rfl

/-- One more unit of fuel changes nothing once there is enough. -/
theorem scan_fuel (h : Hooks) (fuel : Nat) :
    (∀ depth s, 2 * s.length + 1 ≤ fuel →
      scanOnce h (fuel + 1) depth s = scanOnce h fuel depth s) ∧
    (∀ depth s, 2 * s.length + 1 ≤ fuel →
      scanMembers h (fuel + 1) depth s = scanMembers h fuel depth s) ∧
    (∀ depth s, 2 * s.length + 2 ≤ fuel →
      scanItems h (fuel + 1) depth s = scanItems h fuel depth s) := by
  induction fuel with
  | zero => exact ⟨fun _ _ h => by omega, fun _ _ h => by omega, fun _ _ h => by omega⟩
  | succ fuel ih =>
      obtain ⟨ihv, ihm, ihi⟩ := ih
      refine ⟨?_, ?_, ?_⟩
      · intro depth s hl
        cases s with
        | nil => rw [scanOnce, scanOnce]
        | cons c cs =>
            have hw := skipWs_length cs
            simp only [List.length_cons] at hl
            rw [scanOnce, scanOnce, ihm _ _ (by omega), ihi _ _ (by omega)]
      · intro depth s hl
        cases s with
        | nil => rw [scanMembers, scanMembers]
        | cons c cs =>
            simp only [List.length_cons] at hl
            rw [scanMembers, scanMembers]
            split_ifs with h₁
            · apply bind_congr_ok
              rintro ⟨key, r⟩ hk
              have := scanString_length hk
              simp only
              split_ifs with h₂
              · have := tail_skipWs_length h₂
                have := skipWs_length (skipWs r).tail
                rw [ihv _ _ (by omega)]
                apply bind_congr_ok
                rintro ⟨v, r'⟩ hv
                have := (scan_length h fuel).1 _ _ _ _ hv
                simp only
                split_ifs with h₃ h₄
                · rfl
                · have := tail_skipWs_length h₄
                  have := skipWs_length (skipWs r').tail
                  rw [ihm _ _ (by omega)]
                · rfl
              · rfl
            · rfl
      · intro depth s hl
        rw [scanItems, scanItems, ihv _ _ (by omega)]
        apply bind_congr_ok
        rintro ⟨v, r⟩ hv
        have := (scan_length h fuel).1 _ _ _ _ hv
        simp only
        split_ifs with h₁ h₂
        · rfl
        · have := tail_skipWs_length h₂
          have := skipWs_length (skipWs r).tail
          rw [ihi _ _ (by omega)]
        · rfl

/-- A text is scanned alike with any fuel from twice its length on. -/
theorem scanOnce_enough {h : Hooks} {depth : Nat} {s : Str} {fuel fuel' : Nat}
    (hf : 2 * s.length + 1 ≤ fuel) (hf' : 2 * s.length + 1 ≤ fuel') :
    scanOnce h fuel depth s = scanOnce h fuel' depth s := by
  have key : ∀ n, 2 * s.length + 1 ≤ n →
      scanOnce h n depth s = scanOnce h (2 * s.length + 1) depth s := by
    intro n hn
    induction n, hn using Nat.le_induction with
    | base => rfl
    | succ n hn ih => rw [(scan_fuel h n).1 depth s hn, ih]
  rw [key fuel hf, key fuel' hf']

end IcsDeception.Json
