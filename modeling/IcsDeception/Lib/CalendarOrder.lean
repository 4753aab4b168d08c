import IcsDeception.Lib.Calendar

/-!
# The order of spelled instants

Fields of fixed width compare like their numbers, dates compare like their day counts, and so
the spellings of two instants compare like the instants.
-/

namespace IcsDeception

open Text Decimal

/-! ## Fields of fixed width -/

theorem append_lt_append_iff {α : Type} [LinearOrder α] {a a' b b' : List α}
    (h : a.length = a'.length) : a ++ b < a' ++ b' ↔ a < a' ∨ a = a' ∧ b < b' := by
  induction a generalizing a' with
  | nil =>
      obtain rfl := (List.length_eq_zero_iff.mp h.symm)
      simp
  | cons x a ih =>
      cases a' with
      | nil => cases h
      | cons x' a' =>
          rw [List.cons_append, List.cons_append, List.cons_lt_cons_iff, List.cons_lt_cons_iff,
            ih (Nat.succ.inj h), List.cons.injEq, and_or_left, or_assoc, and_assoc]

theorem digitChar_lt_iff {n m : Nat} (hn : n < 10) (hm : m < 10) :
    digitChar n < digitChar m ↔ n < m := by
  rw [Fin.lt_def, digitChar, digitChar, val_ofCode (by omega), val_ofCode (by omega)]
  omega

theorem padded_lt_iff {k n m : Nat} (hn : n < 10 ^ k) (hm : m < 10 ^ k) :
    padded k n < padded k m ↔ n < m := by
  induction k generalizing n m with
  | zero =>
      rw [Nat.pow_zero] at hn hm
      exact iff_of_false (lt_irrefl _) (by omega)
  | succ k ih =>
      rw [Nat.pow_succ] at hn hm
      have hn' : n / 10 < 10 ^ k := by omega
      have hm' : m / 10 < 10 ^ k := by omega
      have hlast : [digitChar (n % 10)] < [digitChar (m % 10)] ↔ n % 10 < m % 10 := by
        rw [List.cons_lt_cons_iff, digitChar_lt_iff (by omega) (by omega)]
        simp
      have heq : padded k (n / 10) = padded k (m / 10) ↔ n / 10 = m / 10 := by
        refine ⟨fun h => ?_, fun h => by rw [h]⟩
        rw [← digitsValue_padded hn', ← digitsValue_padded hm', h]
      rw [padded, padded, append_lt_append_iff (by simp), ih hn' hm', heq, hlast]
      omega

/-- A field decides, and where it is equal, what comes after it. -/
theorem field_lt_iff {k n m : Nat} (hn : n < 10 ^ k) (hm : m < 10 ^ k) {r s : Str} :
    padded k n ++ r < padded k m ++ s ↔ n < m ∨ n = m ∧ r < s := by
  have heq : padded k n = padded k m ↔ n = m := by
    refine ⟨fun h => ?_, fun h => by rw [h]⟩
    rw [← digitsValue_padded hn, ← digitsValue_padded hm, h]
  rw [append_lt_append_iff (by simp), padded_lt_iff hn hm, heq]

namespace Calendar

/-! ## Dates -/

theorem month_ends : ∀ leap : Bool, ∀ m < 13, 1 ≤ m →
    daysBeforeMonth leap m + daysInMonth leap m ≤ 365 + leap.toNat ∧
      ∀ m' < 13, m < m' → daysBeforeMonth leap m + daysInMonth leap m ≤ daysBeforeMonth leap m' := by
  decide

theorem daysBeforeYear_succ {y : Nat} (h : 1 ≤ y) :
    daysBeforeYear (y + 1) = daysBeforeYear y + (365 + (isLeap y).toNat) := by
  obtain ⟨n, rfl⟩ : ∃ n, y = n + 1 := ⟨y - 1, by omega⟩
  have hstep : ∀ k, (n + 1) / k = n / k + if k ∣ n + 1 then 1 else 0 := fun k => Nat.succ_div
  have h₄ := hstep 4
  have h₁₀₀ := hstep 100
  have h₄₀₀ := hstep 400
  have hleap : (isLeap (n + 1)).toNat =
      if 4 ∣ n + 1 ∧ (¬ 100 ∣ n + 1 ∨ 400 ∣ n + 1) then 1 else 0 := by
    simp only [isLeap, Nat.dvd_iff_mod_eq_zero]
    split_ifs with hy
    · simp [hy.1, hy.2]
    · by_cases h4 : (n + 1) % 4 = 0
      · simp only [h4, true_and, not_or, not_not] at hy
        simp [h4, hy.1, hy.2]
      · simp [h4]
  have hle : (n + 1) / 100 ≤ (n + 1) * 365 := by omega
  have hle' : n / 100 ≤ n * 365 := by omega
  simp only [daysBeforeYear, Nat.add_sub_cancel, hleap]
  split_ifs at h₄ h₁₀₀ h₄₀₀ ⊢ <;> omega

theorem daysBeforeYear_le {y y' : Nat} (h : 1 ≤ y) (hlt : y < y') :
    daysBeforeYear y + (365 + (isLeap y).toNat) ≤ daysBeforeYear y' := by
  induction y', hlt using Nat.le_induction with
  | base => exact (daysBeforeYear_succ h).ge
  | succ y' hle ih =>
      rw [daysBeforeYear_succ (show 1 ≤ y' by omega)]
      omega

/-- An earlier date has a smaller day count. -/
theorem dayOf_lt {y m d y' m' d' : Nat} (h : ValidDate y m d) (h' : ValidDate y' m' d')
    (hlt : y < y' ∨ y = y' ∧ (m < m' ∨ m = m' ∧ d < d')) : dayOf y m d < dayOf y' m' d' := by
  obtain ⟨hy, hm, hm12, hd, hdays⟩ := h
  obtain ⟨hy', hm', hm12', hd', hdays'⟩ := h'
  obtain ⟨hend, hnext⟩ := month_ends (isLeap y) m (by omega) hm
  unfold dayOf
  rcases hlt with hlt | ⟨rfl, hlt | ⟨rfl, hlt⟩⟩
  · have hyear := daysBeforeYear_le hy hlt
    omega
  · have hmonth := hnext m' (by omega) hlt
    omega
  · omega

theorem dayOf_lt_iff {y m d y' m' d' : Nat} (h : ValidDate y m d) (h' : ValidDate y' m' d') :
    dayOf y m d < dayOf y' m' d' ↔ y < y' ∨ y = y' ∧ (m < m' ∨ m = m' ∧ d < d') := by
  refine ⟨fun hlt => ?_, dayOf_lt h h'⟩
  by_contra hnot
  rcases (show (y = y' ∧ m = m' ∧ d = d') ∨ (y' < y ∨ y' = y ∧ (m' < m ∨ m' = m ∧ d' < d)) by
    omega) with ⟨rfl, rfl, rfl⟩ | hgt
  · exact absurd hlt (lt_irrefl _)
  · exact absurd hlt (dayOf_lt h' h hgt).not_gt

theorem dateOf_lt_iff (n n' : Nat) : n < n' ↔ (dateOf n).1 < (dateOf n').1 ∨
    (dateOf n).1 = (dateOf n').1 ∧ ((dateOf n).2.1 < (dateOf n').2.1 ∨
      (dateOf n).2.1 = (dateOf n').2.1 ∧ (dateOf n).2.2 < (dateOf n').2.2) := by
  obtain ⟨hv, hn⟩ := dayOf_dateOf n
  obtain ⟨hv', hn'⟩ := dayOf_dateOf n'
  rw [← dayOf_lt_iff hv hv', hn, hn']

/-! ## Spellings -/

/-- The spellings of two times on two dates compare field by field. -/
theorem spelling_lt_iff {y m d t y' m' d' t' : Nat} (hy : y < 10 ^ 4) (hy' : y' < 10 ^ 4)
    (hm : m < 10 ^ 2) (hm' : m' < 10 ^ 2) (hd : d < 10 ^ 2) (hd' : d' < 10 ^ 2)
    (ht : t < dayMicros) (ht' : t' < dayMicros) (r : Str) :
    spelling (padded 4 y) m d t r < spelling (padded 4 y') m' d' t' r ↔
      y < y' ∨ y = y' ∧ (m < m' ∨ m = m' ∧ (d < d' ∨ d = d' ∧ t < t')) := by
  unfold dayMicros at ht ht'
  have htime : (t / 3600000000 < t' / 3600000000 ∨ t / 3600000000 = t' / 3600000000 ∧
      (t / 60000000 % 60 < t' / 60000000 % 60 ∨ t / 60000000 % 60 = t' / 60000000 % 60 ∧
        (t / 1000000 % 60 < t' / 1000000 % 60 ∨ t / 1000000 % 60 = t' / 1000000 % 60 ∧
          (t % 1000000 < t' % 1000000)))) ↔ t < t' := by
    omega
  have hrefl : ¬ r < r := lt_irrefl r
  rw [spelling, spelling, field_lt_iff hy hy', List.cons_lt_cons_self, field_lt_iff hm hm',
    List.cons_lt_cons_self, field_lt_iff hd hd', List.cons_lt_cons_self,
    field_lt_iff (by omega) (by omega), List.cons_lt_cons_self,
    field_lt_iff (by omega) (by omega), List.cons_lt_cons_self,
    field_lt_iff (by omega) (by omega), List.cons_lt_cons_self,
    field_lt_iff (by omega) (by omega), ← htime]
  simp only [hrefl, and_false, or_false]

/-- From year 1000 on the spellings of two instants compare like the instants. -/
theorem text_lt_iff {pad : Bool} {i j : Instant} (hi : 1000 ≤ i.year) (hj : 1000 ≤ j.year) (r : Str) :
    i.text pad ++ r < j.text pad ++ r ↔ i.micros < j.micros := by
  obtain ⟨⟨-, -, hm, -, hd⟩, -⟩ := dayOf_dateOf (i.micros / dayMicros)
  obtain ⟨⟨-, -, hm', -, hd'⟩, -⟩ := dayOf_dateOf (j.micros / dayMicros)
  have hdays := daysInMonth_le (isLeap (dateOf (i.micros / dayMicros)).1)
    (dateOf (i.micros / dayMicros)).2.1
  have hdays' := daysInMonth_le (isLeap (dateOf (j.micros / dayMicros)).1)
    (dateOf (j.micros / dayMicros)).2.1
  have hyi := i.year_le_max
  have hyj := j.year_le_max
  rw [Instant.year] at hi hj hyi hyj
  rw [Instant.text, Instant.text, spelling_append, spelling_append,
    yearText_eq_padded (Or.inr hi), yearText_eq_padded (Or.inr hj),
    spelling_lt_iff (by omega) (by omega) (by omega) (by omega) (by omega) (by omega)
      (Nat.mod_lt _ (by decide)) (Nat.mod_lt _ (by decide))]
  have hday := dateOf_lt_iff (i.micros / dayMicros) (j.micros / dayMicros)
  have hback := dateOf_lt_iff (j.micros / dayMicros) (i.micros / dayMicros)
  unfold dayMicros at hday hback ⊢
  omega

end Calendar

end IcsDeception
