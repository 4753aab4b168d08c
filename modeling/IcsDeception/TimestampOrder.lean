import IcsDeception.EnvelopeRoundTrip
import IcsDeception.Lib.CalendarOrder

/-!
# Normalised timestamps

From year 1000 on the normal form of a timestamp stands for its instant: it is its own normal
form, it is shared by exactly the spellings of the instant, and it is ordered as text like the
instants are in time.
-/

namespace IcsDeception

open Text Calendar Canonicalizer EnvelopeRoundTrip

/-- A timestamp denotes a moment, in microseconds from the start of year 1 in UTC: what the
parser reads on the clock, less the offset that it reads. -/
def Denotes (py : Interp) (timestamp : Str) (moment : Int) : Prop :=
  ∃ r o, py.fromisoformat (isoCandidate (strip timestamp)) = some r ∧ r.offset = some o ∧
    moment = r.clock.micros - o

theorem Denotes.unique {py : Interp} {s : Str} {x y : Int} (hx : Denotes py s x)
    (hy : Denotes py s y) : x = y := by
  obtain ⟨r, o, hr, ho, rfl⟩ := hx
  obtain ⟨r', o', hr', ho', rfl⟩ := hy
  obtain rfl := Option.some.inj (hr.symm.trans hr')
  obtain rfl := Option.some.inj (ho.symm.trans ho')
  rfl

/-- Moving a reading to UTC takes its offset away. -/
theorem micros_toUtc {r : Reading} {i : Instant} (h : r.toUtc = .ok i) :
    ∃ o, r.offset = some o ∧ (i.micros : Int) = r.clock.micros - o := by
  unfold Reading.toUtc at h
  cases ho : r.offset with
  | none =>
      rw [ho] at h
      cases h
  | some o =>
      rw [ho] at h
      dsimp only at h
      split_ifs at h with hrange
      obtain rfl := Except.ok.inj h
      exact ⟨o, rfl, Int.toNat_of_nonneg hrange.1⟩

/-- A normalised timestamp spells the moment that the timestamp denotes. -/
theorem denotes_of_normalizeTimestamp {py : Interp} {s s' : Str}
    (h : normalizeTimestamp py (.str s) = .ok s') :
    ∃ i : Instant, utcInstant py s = some i ∧ Denotes py s i.micros ∧
      s' = i.text py.padYears ++ [cp 'Z'] := by
  obtain ⟨r, i, hr, hi, rfl⟩ := normalizeTimestamp_eq_ok h
  obtain ⟨o, ho, hmicros⟩ := micros_toUtc hi
  refine ⟨i, ?_, ⟨r, o, hr, ho, hmicros⟩, rfl⟩
  rw [utcInstant, hr]
  simp [hi, Except.toOption]

theorem text_inj {pad : Bool} {i j : Instant} (hi : 1000 ≤ i.year) (hj : 1000 ≤ j.year) (r : Str) :
    i.text pad ++ r = j.text pad ++ r ↔ i.micros = j.micros := by
  constructor
  · intro h
    have hij : i.text pad ++ r < j.text pad ++ r ↔ i.micros < j.micros := text_lt_iff hi hj r
    have hji : j.text pad ++ r < i.text pad ++ r ↔ j.micros < i.micros := text_lt_iff hj hi r
    rw [h] at hij hji
    have hle := hij.not.mp (lt_irrefl _)
    have hge := hji.not.mp (lt_irrefl _)
    omega
  · intro h
    obtain ⟨i, hi⟩ := i
    obtain rfl : i = j.micros := h
    rfl

/-- Normalisation is idempotent, it identifies exactly the spellings of one moment, and it
carries the order of the moments to the order of texts. -/
theorem normalizeTimestamp_is_canonical (py : Interp) {s t s' t' : Str}
    (hs : normalizeTimestamp py (.str s) = .ok s') (ht : normalizeTimestamp py (.str t) = .ok t')
    (hys : ∀ i, utcInstant py s = some i → 1000 ≤ i.year)
    (hyt : ∀ i, utcInstant py t = some i → 1000 ≤ i.year) :
    normalizeTimestamp py (.str s') = .ok s' ∧
      (s' = t' ↔ ∃ x, Denotes py s x ∧ Denotes py t x) ∧
      (s' < t' ↔ ∃ x y, Denotes py s x ∧ Denotes py t y ∧ x < y) := by
  obtain ⟨i, hi, hdi, hs'⟩ := denotes_of_normalizeTimestamp hs
  obtain ⟨j, hj, hdj, ht'⟩ := denotes_of_normalizeTimestamp ht
  have hiy := hys i hi
  have hjy := hyt j hj
  refine ⟨normalizeTimestamp_idem hys hs, ?_, ?_⟩
  · rw [hs', ht', text_inj hiy hjy]
    constructor
    · exact fun h => ⟨i.micros, hdi, h ▸ hdj⟩
    · rintro ⟨x, hx, hx'⟩
      exact_mod_cast (hdi.unique hx).trans (hdj.unique hx').symm
  · rw [hs', ht', text_lt_iff hiy hjy]
    constructor
    · exact fun h => ⟨i.micros, j.micros, hdi, hdj, by exact_mod_cast h⟩
    · rintro ⟨x, y, hx, hy, hlt⟩
      obtain rfl := hdi.unique hx
      obtain rfl := hdj.unique hy
      exact_mod_cast hlt

/-- An hour before midnight in UTC, spelled across the turn of the year. -/
def newYear : Str := lit "2026-01-01T01:00:00.000000" ++ lit "+02:00"

/-- The same day at noon, with the trailing letter. -/
def newYearNoon : Str := lit "2026-01-01T12:00:00.000000Z"

theorem normalizeTimestamp_is_canonical_newYear :
    (∃ s', normalizeTimestamp .reference (.str newYear) = .ok s') ∧
      (∃ t', normalizeTimestamp .reference (.str newYearNoon) = .ok t') ∧
      ∀ s' t', normalizeTimestamp .reference (.str newYear) = .ok s' →
        normalizeTimestamp .reference (.str newYearNoon) = .ok t' →
          normalizeTimestamp .reference (.str s') = .ok s' := by
  have hs : (normalizeTimestamp .reference (.str newYear)).isOk = true := by decide +kernel
  have ht : (normalizeTimestamp .reference (.str newYearNoon)).isOk = true := by decide +kernel
  have hys : ∀ i, utcInstant .reference newYear = some i → 1000 ≤ i.year := by
    have hyear : (utcInstant .reference newYear).all (fun i => decide (1000 ≤ i.year)) = true := by
      decide +kernel
    intro i hi
    rw [hi] at hyear
    exact of_decide_eq_true hyear
  have hyt : ∀ i, utcInstant .reference newYearNoon = some i → 1000 ≤ i.year := by
    have hyear : (utcInstant .reference newYearNoon).all (fun i => decide (1000 ≤ i.year)) =
        true := by
      decide +kernel
    intro i hi
    rw [hi] at hyear
    exact of_decide_eq_true hyear
  refine ⟨?_, ?_, fun s' t' hs' ht' =>
    (normalizeTimestamp_is_canonical .reference hs' ht' hys hyt).1⟩
  · cases h : normalizeTimestamp .reference (.str newYear) with
    | error e =>
        rw [h] at hs
        cases hs
    | ok s' => exact ⟨s', rfl⟩
  · cases h : normalizeTimestamp .reference (.str newYearNoon) with
    | error e =>
        rw [h] at ht
        cases ht
    | ok t' => exact ⟨t', rfl⟩

end IcsDeception
