import IcsDeception.Lib.Decimal
import Mathlib.Tactic.IntervalCases

/-!
# Dates and instants

An instant is a number of microseconds in the years 1 to 9999. The date of a day
is found by cycles of 400, 100, 4 and 1 years, and `dayOf_dateOf` states that the
proleptic Gregorian day count inverts it. The spelling of an instant is the
fixed-width form with microseconds.

## Implementation notes

Days are counted from zero for the first of January of year 1.
-/

namespace IcsDeception.Calendar

open Text Decimal

/-- The number of days in the years 1 to 9999. -/
def totalDays : Nat := 3652059

/-- Microseconds in a day. -/
def dayMicros : Nat := 86400000000

/-- Microseconds from the start of year 1, up to the end of year 9999. -/
structure Instant where
  micros : Nat
  lt : micros < totalDays * dayMicros
  deriving DecidableEq

/-- The first moment of the calendar. -/
def Instant.first : Instant := ⟨0, by decide⟩

/-- Leap years of the Gregorian calendar. -/
def isLeap (y : Nat) : Bool := y % 4 == 0 && (y % 100 != 0 || y % 400 == 0)

/-- Days before the first of January of year `y`. -/
def daysBeforeYear (y : Nat) : Nat := (y - 1) * 365 + (y - 1) / 4 - (y - 1) / 100 + (y - 1) / 400

/-- Days before a month in a common year; index zero is unused. -/
def daysBeforeMonthTable : List Nat := [0, 0, 31, 59, 90, 120, 151, 181, 212, 243, 273, 304, 334]

/-- Days of a month in a common year; index zero is unused. -/
def daysInMonthTable : List Nat := [0, 31, 28, 31, 30, 31, 30, 31, 31, 30, 31, 30, 31]

/-- Days before a month. -/
def daysBeforeMonth (leap : Bool) (m : Nat) : Nat :=
  daysBeforeMonthTable.getD m 0 + if 2 < m ∧ leap then 1 else 0

/-- Days of a month. -/
def daysInMonth (leap : Bool) (m : Nat) : Nat :=
  daysInMonthTable.getD m 0 + if m = 2 ∧ leap then 1 else 0

/-- The day count of a date. -/
def dayOf (y m d : Nat) : Nat := daysBeforeYear y + daysBeforeMonth (isLeap y) m + d - 1

/-- Month and day of the `e`-th day of a year: a first guess, corrected by one. -/
def monthDay (leap : Bool) (e : Nat) : Nat × Nat :=
  if e < daysBeforeMonth leap ((e + 50) / 32) then
    ((e + 50) / 32 - 1, e - daysBeforeMonth leap ((e + 50) / 32 - 1) + 1)
  else ((e + 50) / 32, e - daysBeforeMonth leap ((e + 50) / 32) + 1)

/-- Year, month and day of a day count. -/
def dateOf (n : Nat) : Nat × Nat × Nat :=
  let a := n / 146097
  let b := n % 146097 / 36524
  let c := n % 146097 % 36524 / 1461
  let d := n % 146097 % 36524 % 1461 / 365
  let e := n % 146097 % 36524 % 1461 % 365
  if d = 4 ∨ b = 4 then (a * 400 + b * 100 + c * 4 + d, 12, 31)
  else
    (a * 400 + b * 100 + c * 4 + d + 1,
      monthDay (decide (d = 3 ∧ (c ≠ 24 ∨ b = 3))) e)

theorem monthDay_spec : ∀ leap : Bool, ∀ e < 365 + leap.toNat,
    1 ≤ (monthDay leap e).1 ∧ (monthDay leap e).1 ≤ 12 ∧ 1 ≤ (monthDay leap e).2 ∧
      (monthDay leap e).2 ≤ daysInMonth leap (monthDay leap e).1 ∧
      daysBeforeMonth leap (monthDay leap e).1 + (monthDay leap e).2 = e + 1 := by
  decide +kernel

/-- The leap rule of the cycle position is the leap rule of the year. -/
theorem isLeap_cycle {a b c d : Nat} (hb : b < 4) (hc : c < 25) (hd : d < 4) :
    isLeap (a * 400 + b * 100 + c * 4 + d + 1) = decide (d = 3 ∧ (c ≠ 24 ∨ b = 3)) := by
  rw [Bool.eq_iff_iff]
  simp only [isLeap, Bool.and_eq_true, beq_iff_eq, Bool.or_eq_true, bne_iff_ne, ne_eq,
    decide_eq_true_eq]
  omega

theorem daysBeforeYear_cycle {a b c d : Nat} (hb : b < 4) (hc : c < 25) (hd : d < 4) :
    daysBeforeYear (a * 400 + b * 100 + c * 4 + d + 1) =
      a * 146097 + b * 36524 + c * 1461 + d * 365 := by
  unfold daysBeforeYear
  omega

/-- A date of the calendar. -/
def ValidDate (y m d : Nat) : Prop :=
  1 ≤ y ∧ 1 ≤ m ∧ m ≤ 12 ∧ 1 ≤ d ∧ d ≤ daysInMonth (isLeap y) m

instance (y m d : Nat) : Decidable (ValidDate y m d) := inferInstanceAs (Decidable (_ ∧ _))

/-- The date of a day count is a calendar date with that day count. -/
theorem dayOf_dateOf (n : Nat) :
    ValidDate (dateOf n).1 (dateOf n).2.1 (dateOf n).2.2 ∧
      dayOf (dateOf n).1 (dateOf n).2.1 (dateOf n).2.2 = n := by
  unfold dateOf
  simp only
  generalize ha : n / 146097 = a
  generalize hb : n % 146097 / 36524 = b
  generalize hc : n % 146097 % 36524 / 1461 = c
  generalize hd : n % 146097 % 36524 % 1461 / 365 = d
  generalize he : n % 146097 % 36524 % 1461 % 365 = e
  split_ifs with hlast
  · -- the last day of a leap year overflows the one-year or the four-hundred-year cycle
    obtain ⟨b', c', hb', hc', hy, hl, hn⟩ : ∃ b' c', b' < 4 ∧ c' < 25 ∧
        a * 400 + b * 100 + c * 4 + d = a * 400 + b' * 100 + c' * 4 + 3 + 1 ∧
        (c' ≠ 24 ∨ b' = 3) ∧ n = a * 146097 + b' * 36524 + c' * 1461 + 3 * 365 + 365 := by
      by_cases hb4 : b = 4
      · exact ⟨3, 24, by omega, by omega, by omega, by omega, by omega⟩
      · exact ⟨b, c, by omega, by omega, by omega, by omega, by omega⟩
    have hleap : isLeap (a * 400 + b * 100 + c * 4 + d) = true := by
      rw [hy, isLeap_cycle hb' hc' (by decide)]
      simpa using hl
    have hday : daysBeforeYear (a * 400 + b * 100 + c * 4 + d) + 365 = n := by
      rw [hy, daysBeforeYear_cycle hb' hc' (by decide), hn]
    refine ⟨⟨?_, (by decide : 1 ≤ 12), (by decide : 12 ≤ 12), (by decide : 1 ≤ 31), ?_⟩, ?_⟩
    · simp only
      omega
    · simp only [hleap]
      decide
    · simp only [dayOf, hleap, show daysBeforeMonth true 12 = 335 by decide]
      omega
  · have hb' : b < 4 := by omega
    have hc' : c < 25 := by omega
    have hd' : d < 4 := by omega
    obtain ⟨h₁, h₂, h₃, h₄, h₅⟩ :=
      monthDay_spec (decide (d = 3 ∧ (c ≠ 24 ∨ b = 3))) e (by omega)
    rw [ValidDate, dayOf, isLeap_cycle hb' hc' hd', daysBeforeYear_cycle hb' hc' hd']
    refine ⟨⟨by simp only; omega, h₁, h₂, h₃, h₄⟩, ?_⟩
    simp only
    omega

theorem year_le {n : Nat} (h : n < totalDays) : (dateOf n).1 ≤ 9999 := by
  obtain ⟨⟨-, -, -, hd, -⟩, hn⟩ := dayOf_dateOf n
  by_contra hy
  have hb : totalDays ≤ daysBeforeYear (dateOf n).1 := by
    simp only [daysBeforeYear, totalDays]
    omega
  unfold dayOf at hn
  omega

/-- The spelling of a year. Some platforms do not pad years below 1000. -/
def yearText (pad : Bool) (y : Nat) : Str :=
  if y < 1000 ∧ pad = false then natText y else padded 4 y

/-- The year of an instant. -/
def Instant.year (i : Instant) : Nat := (dateOf (i.micros / dayMicros)).1

/-- A year's spelling, a month, a day and a time of day in the fixed-width form, before `r`. -/
def spelling (y : Str) (m d t : Nat) (r : Str) : Str :=
  y ++ cp '-' :: (padded 2 m ++ cp '-' :: (padded 2 d ++
    cp 'T' :: (padded 2 (t / 3600000000) ++ cp ':' :: (padded 2 (t / 60000000 % 60) ++
      cp ':' :: (padded 2 (t / 1000000 % 60) ++ cp '.' :: (padded 6 (t % 1000000) ++ r))))))

theorem spelling_append (y : Str) (m d t : Nat) (r : Str) :
    spelling y m d t [] ++ r = spelling y m d t r := by
  simp [spelling]

/-- `strftime("%Y-%m-%dT%H:%M:%S.%f")` of a UTC instant. -/
def Instant.text (pad : Bool) (i : Instant) : Str :=
  spelling (yearText pad (dateOf (i.micros / dayMicros)).1) (dateOf (i.micros / dayMicros)).2.1
    (dateOf (i.micros / dayMicros)).2.2 (i.micros % dayMicros) []

/-- `isoformat()` of a UTC instant: the fraction is left out when it is zero. -/
def Instant.isoformat (i : Instant) : Str :=
  (if i.micros % 1000000 = 0 then (i.text true).take ((i.text true).length - 7) else i.text true) ++
    lit "+00:00"

/-- A date and time as it was read, with its offset from UTC in microseconds if it has one. -/
structure Reading where
  clock : Instant
  offset : Option Int
  deriving DecidableEq

/-- How moving a reading to UTC fails. -/
inductive UtcError
  | naive
  | overflow
  deriving DecidableEq

/-- `astimezone(timezone.utc)` of an aware reading. -/
def Reading.toUtc (r : Reading) : Except UtcError Instant :=
  match r.offset with
  | none => .error .naive
  | some o =>
      if h : 0 ≤ (r.clock.micros : Int) - o ∧
          (r.clock.micros : Int) - o < (totalDays * dayMicros : Nat) then
        .ok ⟨((r.clock.micros : Int) - o).toNat, by omega⟩
      else .error .overflow

theorem toUtc_zero (i : Instant) : Reading.toUtc ⟨i, some 0⟩ = .ok i := by
  have := i.lt
  unfold Reading.toUtc
  simp only
  rw [dif_pos (by omega)]
  simp

/-! ## Reading the fixed-width form -/

/-- A number of exactly `k` digits at the head of a text. -/
def readDigits (k : Nat) (s : Str) : Option (Nat × Str) :=
  if (s.take k).length = k ∧ (s.take k).all isDigit then some (digitsValue (s.take k), s.drop k)
  else none

/-- A given character at the head of a text. -/
def expect (c : CodePoint) : Str → Option Str
  | [] => none
  | d :: rest => if d = c then some rest else none

/-- A UTC offset `+HH:MM` or `-HH:MM`, in microseconds. -/
def readOffset (s : Str) : Option Int := do
  let (h, rest) ← readDigits 2 s.tail
  let rest ← expect (cp ':') rest
  let (m, rest) ← readDigits 2 rest
  if rest = [] ∧ h < 24 ∧ m < 60 then
    if s.head? = some (cp '+') then some ((h * 60 + m) * 60000000)
    else if s.head? = some (cp '-') then some (-((h * 60 + m) * 60000000))
    else none
  else none

/-- A date `YYYY-MM-DD`, as its day count. -/
def readDate (s : Str) : Option (Nat × Str) := do
  let (y, s) ← readDigits 4 s
  let s ← expect (cp '-') s
  let (m, s) ← readDigits 2 s
  let s ← expect (cp '-') s
  let (d, s) ← readDigits 2 s
  if ValidDate y m d then some (dayOf y m d, s) else none

/-- A time `HH:MM:SS.ffffff`, in microseconds. -/
def readTime (s : Str) : Option (Nat × Str) := do
  let (h, s) ← readDigits 2 s
  let s ← expect (cp ':') s
  let (m, s) ← readDigits 2 s
  let s ← expect (cp ':') s
  let (sec, s) ← readDigits 2 s
  let s ← expect (cp '.') s
  let (us, s) ← readDigits 6 s
  if h < 24 ∧ m < 60 ∧ sec < 60 then some (((h * 60 + m) * 60 + sec) * 1000000 + us, s) else none

/-- An instant from microseconds, if they are in range. -/
def Instant.ofMicros (n : Nat) : Option Instant :=
  if h : n < totalDays * dayMicros then some ⟨n, h⟩ else none

/-- The part of `datetime.fromisoformat` that every interpreter version accepts: the
full date, the full time with microseconds, and an offset. -/
def readIso (s : Str) : Option Reading := do
  let day ← readDate s
  let s ← expect (cp 'T') day.2
  let time ← readTime s
  let o ← readOffset time.2
  (Instant.ofMicros (day.1 * dayMicros + time.1)).map fun clock => ⟨clock, some o⟩

theorem readDigits_padded {k n : Nat} (h : n < 10 ^ k) (r : Str) :
    readDigits k (padded k n ++ r) = some (n, r) := by
  have htake : (padded k n ++ r).take k = padded k n := by simp
  have hdrop : (padded k n ++ r).drop k = r := by simp
  have hall : (padded k n).all isDigit = true :=
    List.all_eq_true.mpr fun c hc => isDigit_of_mem_padded hc
  unfold readDigits
  rw [htake, hdrop, if_pos ⟨padded_length k n, hall⟩, digitsValue_padded h]

theorem expect_cons (c : CodePoint) (r : Str) : expect c (c :: r) = some r := if_pos rfl

theorem readOffset_utc : readOffset (lit "+00:00") = some 0 := by decide

theorem daysInMonth_le (leap : Bool) (m : Nat) : daysInMonth leap m ≤ 32 := by
  unfold daysInMonth daysInMonthTable
  rcases Nat.lt_or_ge m 13 with h | h
  · interval_cases m <;> cases leap <;> decide
  · rw [List.getD_eq_getElem?_getD, List.getElem?_eq_none (by simpa using h)]
    split_ifs <;> simp

theorem readDate_text {y m d : Nat} (hv : ValidDate y m d) (hy : y ≤ 9999) (r : Str) :
    readDate (padded 4 y ++ cp '-' :: (padded 2 m ++ cp '-' :: (padded 2 d ++ r))) =
      some (dayOf y m d, r) := by
  have hd := daysInMonth_le (isLeap y) m
  obtain ⟨h₁, h₂, h₃, h₄, h₅⟩ := hv
  unfold readDate
  rw [readDigits_padded (show y < 10 ^ 4 by omega)]
  simp only [Option.bind_eq_bind, Option.bind_some, expect_cons]
  rw [readDigits_padded (show m < 10 ^ 2 by omega)]
  simp only [Option.bind_some, expect_cons]
  rw [readDigits_padded (show d < 10 ^ 2 by omega)]
  simp only [Option.bind_some]
  rw [if_pos ⟨h₁, h₂, h₃, h₄, h₅⟩]

theorem readTime_text {t : Nat} (ht : t < dayMicros) (r : Str) :
    readTime (padded 2 (t / 3600000000) ++ cp ':' :: (padded 2 (t / 60000000 % 60) ++
      cp ':' :: (padded 2 (t / 1000000 % 60) ++ cp '.' :: (padded 6 (t % 1000000) ++ r)))) =
      some (t, r) := by
  unfold dayMicros at ht
  unfold readTime
  rw [readDigits_padded (show t / 3600000000 < 10 ^ 2 by omega)]
  simp only [Option.bind_eq_bind, Option.bind_some, expect_cons]
  rw [readDigits_padded (show t / 60000000 % 60 < 10 ^ 2 by omega)]
  simp only [Option.bind_some, expect_cons]
  rw [readDigits_padded (show t / 1000000 % 60 < 10 ^ 2 by omega)]
  simp only [Option.bind_some, expect_cons]
  rw [readDigits_padded (show t % 1000000 < 10 ^ 6 by omega)]
  simp only [Option.bind_some]
  rw [if_pos ⟨by omega, by omega, by omega⟩]
  congr 2
  omega

theorem readIso_of {s s₁ s₂ s₃ : Str} {day t : Nat} {o : Int}
    (h₁ : readDate s = some (day, s₁)) (h₂ : expect (cp 'T') s₁ = some s₂)
    (h₃ : readTime s₂ = some (t, s₃)) (h₄ : readOffset s₃ = some o) :
    readIso s = (Instant.ofMicros (day * dayMicros + t)).map fun i => ⟨i, some o⟩ := by
  unfold readIso
  rw [h₁, Option.bind_eq_bind, Option.bind_some, h₂, Option.bind_eq_bind, Option.bind_some, h₃,
    Option.bind_eq_bind, Option.bind_some, h₄, Option.bind_some]

/-- The fixed-width spelling of a date and a time of day, with the UTC offset, is read back. -/
theorem readIso_spelling {y m d t : Nat} (hv : ValidDate y m d) (hy : y ≤ 9999)
    (ht : t < dayMicros) :
    readIso (spelling (padded 4 y) m d t (lit "+00:00")) =
      (Instant.ofMicros (dayOf y m d * dayMicros + t)).map fun i => ⟨i, some 0⟩ :=
  readIso_of (readDate_text hv hy _) (expect_cons _ _) (readTime_text ht _) readOffset_utc

/-- `strptime(s, "%Y-%m-%dT%H:%M:%S.%fZ")` on texts of the fixed-width form. -/
def readUtc (s : Str) : Option Instant := do
  let day ← readDate s
  let s ← expect (cp 'T') day.2
  let time ← readTime s
  if time.2 = [cp 'Z'] then Instant.ofMicros (day.1 * dayMicros + time.1) else none

theorem readUtc_of {s s₁ s₂ : Str} {day t : Nat} (h₁ : readDate s = some (day, s₁))
    (h₂ : expect (cp 'T') s₁ = some s₂) (h₃ : readTime s₂ = some (t, [cp 'Z'])) :
    readUtc s = Instant.ofMicros (day * dayMicros + t) := by
  unfold readUtc
  rw [h₁, Option.bind_eq_bind, Option.bind_some, h₂, Option.bind_eq_bind, Option.bind_some, h₃,
    Option.bind_some, if_pos rfl]

theorem Instant.ofMicros_micros (i : Instant) : Instant.ofMicros i.micros = some i :=
  dif_pos i.lt

theorem Instant.year_le_max (i : Instant) : i.year ≤ 9999 :=
  year_le (Nat.div_lt_of_lt_mul (Nat.mul_comm totalDays dayMicros ▸ i.lt))

theorem yearText_eq_padded {pad : Bool} {y : Nat} (h : pad = true ∨ 1000 ≤ y) :
    yearText pad y = padded 4 y := by
  refine if_neg fun hn => ?_
  rcases h with h | h
  · rw [h] at hn
    exact Bool.false_ne_true hn.2.symm
  · omega

/-- The spelling of an instant with a padded year, with the UTC offset, is read back. -/
theorem readIso_padded {pad : Bool} (i : Instant) (hy : pad = true ∨ 1000 ≤ i.year) :
    readIso (i.text pad ++ lit "+00:00") = some ⟨i, some 0⟩ := by
  obtain ⟨hv, hday⟩ := dayOf_dateOf (i.micros / dayMicros)
  have hmod : i.micros % dayMicros < dayMicros := Nat.mod_lt _ (by decide)
  have hyt := yearText_eq_padded hy
  have hsum : i.micros / dayMicros * dayMicros + i.micros % dayMicros = i.micros :=
    Nat.div_add_mod' i.micros dayMicros
  have hread := readIso_spelling hv i.year_le_max hmod
  rw [hday, hsum, i.ofMicros_micros] at hread
  unfold Instant.text
  rw [← Instant.year, hyt, spelling_append]
  exact hread

/-- The spelling of an instant from year 1000 on, with the UTC offset, is read back. -/
theorem readIso_text (pad : Bool) (i : Instant) (hy : 1000 ≤ i.year) :
    readIso (i.text pad ++ lit "+00:00") = some ⟨i, some 0⟩ :=
  readIso_padded i (.inr hy)

/-- The spelling of an instant with a padded year, with the trailing `Z`, is read back. -/
theorem readUtc_padded {pad : Bool} (i : Instant) (hy : pad = true ∨ 1000 ≤ i.year) :
    readUtc (i.text pad ++ [cp 'Z']) = some i := by
  obtain ⟨hv, hday⟩ := dayOf_dateOf (i.micros / dayMicros)
  have hmod : i.micros % dayMicros < dayMicros := Nat.mod_lt _ (by decide)
  have hyt := yearText_eq_padded hy
  have hsum : i.micros / dayMicros * dayMicros + i.micros % dayMicros = i.micros :=
    Nat.div_add_mod' i.micros dayMicros
  unfold Instant.text
  rw [← Instant.year, hyt, spelling_append]
  have hread := readUtc_of (readDate_text hv i.year_le_max _) (expect_cons _ _)
    (readTime_text hmod [cp 'Z'])
  rw [hday, hsum, i.ofMicros_micros] at hread
  exact hread

/-! ## Reading the form of `isoformat()` -/

/-- `fromisoformat` on both forms of `isoformat()`, with the fraction and without. -/
def readIsoformat (s : Str) : Option Reading :=
  if s.length = 25 then readIso (s.take 19 ++ (lit ".000000" ++ s.drop 19)) else readIso s

theorem text_split (i : Instant) : ∃ a, a.length = 19 ∧
    i.text true = a ++ cp '.' :: padded 6 (i.micros % 1000000) := by
  have hmicros : i.micros % dayMicros % 1000000 = i.micros % 1000000 :=
    Nat.mod_mod_of_dvd _ (by decide)
  obtain ⟨y, m, d, hdate⟩ : ∃ y m d, dateOf (i.micros / dayMicros) = (y, m, d) := ⟨_, _, _, rfl⟩
  obtain ⟨t, ht⟩ : ∃ t, i.micros % dayMicros = t := ⟨_, rfl⟩
  refine ⟨padded 4 y ++ cp '-' :: (padded 2 m ++ cp '-' :: (padded 2 d ++
    cp 'T' :: (padded 2 (t / 3600000000) ++ cp ':' :: (padded 2 (t / 60000000 % 60) ++
      cp ':' :: padded 2 (t / 1000000 % 60))))), ?_, ?_⟩
  · simp only [List.length_append, List.length_cons, padded_length]
  · rw [Instant.text, spelling, hdate, ht, yearText_eq_padded (.inl rfl), ← hmicros, ht,
      List.append_nil]
    simp only [List.append_assoc, List.cons_append]

theorem length_text {pad : Bool} {i : Instant} (hy : 1000 ≤ i.year) :
    (i.text pad ++ lit "+00:00").length = 32 := by
  have hlit : (lit "+00:00").length = 6 := rfl
  rw [Instant.text, ← Instant.year, yearText_eq_padded (.inr hy)]
  simp only [spelling, List.length_append, List.length_cons, List.length_nil,
    padded_length, hlit]

theorem readIsoformat_isoformat (i : Instant) : readIsoformat i.isoformat = some ⟨i, some 0⟩ := by
  obtain ⟨a, ha, htext⟩ := text_split i
  have hread := readIso_padded i (.inl rfl : true = true ∨ 1000 ≤ i.year)
  have hlit : (lit "+00:00").length = 6 := rfl
  have hlength : (i.text true).length = 26 := by
    rw [htext, List.length_append, List.length_cons, padded_length, ha]
  unfold readIsoformat Instant.isoformat
  by_cases hz : i.micros % 1000000 = 0
  · rw [if_pos hz, hlength, show 26 - 7 = a.length from ha.symm, htext, List.take_left, if_pos,
      ← ha, List.take_left, List.drop_left]
    · rw [htext, hz, List.append_assoc] at hread
      exact hread
    · rw [List.length_append, ha, hlit]
  · rw [if_neg hz, if_neg]
    · exact hread
    · rw [List.length_append, hlength, hlit]
      decide

end IcsDeception.Calendar
