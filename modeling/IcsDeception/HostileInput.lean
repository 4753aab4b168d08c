import IcsDeception.CanonicalForm
import IcsDeception.Verdicts

/-!
# What leaves the parser

The parser of a record turns every failure into a validation error, except one: a
timestamp near the ends of the calendar whose offset moves it out of the calendar. A
stream gets a report unless one of its lines holds such a timestamp.
-/

namespace IcsDeception

open Text Json Calendar Canonicalizer EventChain Models EvidenceVerifier EvidenceCollector

/-- A result, or a validation error. -/
def Contained {α : Type} (r : Except Exn α) : Prop :=
  ∀ x, r = .error x → ∃ reason, x = .validation reason

/-! ## The exceptions of the single checks -/

theorem contained_ok {α : Type} (a : α) : Contained (.ok a) := nofun

theorem contained_validation {α : Type} (reason : Reason) :
    Contained (.error (.validation reason) : Except Exn α) := by
  intro x h
  exact ⟨reason, (Except.error.inj h).symm⟩

theorem Contained.bind {α β : Type} {r : Except Exn α} {f : α → Except Exn β} (hr : Contained r)
    (hf : ∀ a, r = .ok a → Contained (f a)) : Contained (r >>= f) := by
  intro x h
  rcases bind_eq_error.mp h with h | ⟨a, ha, h⟩
  · exact hr x h
  · exact hf a ha x h

theorem contained_require (c : Bool) (reason : Reason) : Contained (require c reason) := by
  unfold require
  split_ifs
  · exact contained_ok ()
  · exact contained_validation reason

theorem contained_asText (v : Value) : Contained (asText v) := by
  cases v
  case str s => exact contained_ok s
  all_goals exact contained_validation _

theorem contained_supported {α : Type} (reason : Reason) (o : Option α) :
    Contained (supported reason o) := by
  cases o with
  | none => exact contained_validation reason
  | some a => exact contained_ok a

theorem contained_asMalformed {α : Type} {r : Except Exn α}
    (h : ∀ x, r = .error x → x = .canonicalization) : Contained (asMalformed r) := by
  cases r with
  | ok a => exact contained_ok a
  | error x =>
      obtain rfl := h x rfl
      exact contained_validation _

theorem checkString_error {s : Str} {x : Exn} (h : checkString s = .error x) :
    x = .canonicalization := by
  unfold checkString at h
  split_ifs at h
  · exact (Except.error.inj h).symm
  · exact (Except.error.inj h).symm

mutual
theorem check_error : ∀ (d : Nat) (v : Value) (x : Exn), check d v = .error x →
    x = .canonicalization
  | d, v, x, h => by
      rw [check.eq_def] at h
      split_ifs at h
      · exact (Except.error.inj h).symm
      · cases v with
        | null => cases h
        | bool b => cases h
        | int i => cases h
        | float l => exact (Except.error.inj h).symm
        | other n => exact (Except.error.inj h).symm
        | str s => exact checkString_error h
        | list xs => exact checkItems_error _ xs x h
        | tuple xs => exact checkItems_error _ xs x h
        | dict kvs => exact checkMembers_error _ kvs x h
theorem checkMembers_error : ∀ (d : Nat) (kvs : List (Key × Value)) (x : Exn),
    checkMembers d kvs = .error x → x = .canonicalization
  | _, [], _, h => by cases h
  | _, (.other _, _) :: _, _, h => (Except.error.inj h).symm
  | d, (.str k, v) :: rest, x, h => by
      rw [checkMembers] at h
      rcases bind_eq_error.mp h with h | ⟨-, -, h⟩
      · exact checkString_error h
      · rcases bind_eq_error.mp h with h | ⟨-, -, h⟩
        · exact check_error d v x h
        · exact checkMembers_error d rest x h
theorem checkItems_error : ∀ (d : Nat) (xs : List Value) (x : Exn),
    checkItems d xs = .error x → x = .canonicalization
  | _, [], _, h => by cases h
  | d, v :: rest, x, h => by
      rw [checkItems] at h
      rcases bind_eq_error.mp h with h | ⟨-, -, h⟩
      · exact check_error d v x h
      · exact checkItems_error d rest x h
end

theorem canonicalBytes_error {v : Value} {x : Exn} (h : canonicalBytes v = .error x) :
    x = .canonicalization := by
  unfold canonicalBytes canonicalString checkCanonicalizable at h
  rcases bind_eq_error.mp h with h | ⟨text, -, h⟩
  · rcases bind_eq_error.mp h with h | ⟨-, -, h⟩
    · exact check_error 0 v x h
    · split at h
      · exact (Except.error.inj h).symm
      · cases h
  · split at h
    · exact (Except.error.inj h).symm
    · cases h

theorem contained_validateIdentifier (v : Value) : Contained (validateIdentifier v) :=
  (contained_asText v).bind fun _ _ => (contained_require _ _).bind fun _ _ =>
    (contained_require _ _).bind fun _ _ => (contained_require _ _).bind fun _ _ => contained_ok _

theorem contained_validateHash (v : Value) : Contained (validateHash v) :=
  (contained_asText v).bind fun _ _ => (contained_require _ _).bind fun _ _ => contained_ok _

theorem contained_validateSequence (v : Value) : Contained (validateSequence v) := by
  cases v
  case int i =>
    exact (contained_require _ _).bind fun _ _ => (contained_require _ _).bind fun _ _ =>
      contained_ok _
  all_goals exact contained_validation _

theorem contained_validateSignature (py : Interp) (v : Value) :
    Contained (validateSignature py v) :=
  (contained_asText v).bind fun _ _ => (contained_require _ _).bind fun _ _ =>
    (contained_supported _ _).bind fun _ _ => (contained_require _ _).bind fun _ _ =>
      contained_ok _

/-! ## The event -/

/-- A value that is encoded when it passes the check: its integers can be written. -/
def CheckEncodes (v : Value) : Prop := ∀ d, check d v = .ok () → Encodable d v

theorem checkItems_encodable {xs : List Value} (hx : ∀ x ∈ xs, CheckEncodes x) {d : Nat}
    (h : checkItems d xs = .ok ()) : EncodableItems d xs := by
  induction xs with
  | nil => trivial
  | cons x rest ih =>
      rw [checkItems] at h
      obtain ⟨⟨⟩, h₁, h₂⟩ := bind_eq_ok.mp h
      exact ⟨hx x (by simp) d h₁, ih (fun y hy => hx y (by simp [hy])) h₂⟩

theorem checkMembers_encodable {kvs : List (Key × Value)} (hx : ∀ p ∈ kvs, CheckEncodes p.2)
    {d : Nat} (h : checkMembers d kvs = .ok ()) : EncodableMembers d kvs := by
  induction kvs with
  | nil => trivial
  | cons p rest ih =>
      obtain ⟨k, v⟩ := p
      cases k with
      | other s => cases h
      | str s =>
          rw [checkMembers] at h
          obtain ⟨⟨⟩, h₁, h⟩ := bind_eq_ok.mp h
          obtain ⟨⟨⟩, h₂, h₃⟩ := bind_eq_ok.mp h
          exact ⟨checkString_eq_ok.mp h₁, hx (.str s, v) (by simp) d h₂,
            ih (fun q hq => hx q (by simp [hq])) h₃⟩

theorem check_eq_ok {d : Nat} {v : Value} (h : check d v = .ok ()) : d ≤ maxDepth := by
  rw [check.eq_def] at h
  split_ifs at h
  omega

theorem checkEncodes_scalar {v : Value} (h : ∀ d ≤ maxDepth, Encodable d v) : CheckEncodes v :=
  fun d hd => h d (check_eq_ok hd)

theorem checkEncodes_float (l : Str) : CheckEncodes (.float l) := by
  intro d h
  have hd := check_eq_ok h
  rw [check.eq_def, if_neg (Nat.not_lt.mpr hd)] at h
  cases h

theorem checkEncodes_str (s : Str) : CheckEncodes (.str s) := by
  intro d h
  have hd := check_eq_ok h
  rw [check.eq_def, if_neg (Nat.not_lt.mpr hd)] at h
  exact ⟨hd, checkString_eq_ok.mp h⟩

theorem checkEncodes_list {xs : List Value} (hx : ∀ x ∈ xs, CheckEncodes x) :
    CheckEncodes (.list xs) := by
  intro d h
  have hd := check_eq_ok h
  rw [check.eq_def, if_neg (Nat.not_lt.mpr hd)] at h
  exact ⟨hd, checkItems_encodable hx h⟩

theorem checkEncodes_dict {kvs : List (Key × Value)} (hx : ∀ p ∈ kvs, CheckEncodes p.2) :
    CheckEncodes (.dict kvs) := by
  intro d h
  have hd := check_eq_ok h
  rw [check.eq_def, if_neg (Nat.not_lt.mpr hd)] at h
  exact ⟨hd, checkMembers_encodable hx h⟩

/-- What the strict reader returns is encoded when it passes the check, and so are its
members. -/
theorem strictHooks_keeps_checkEncodes : strictHooks.Keeps fun v =>
    CheckEncodes v ∧ ∀ kvs, v = .dict kvs → ∀ p ∈ kvs, CheckEncodes p.2 where
  null := ⟨checkEncodes_scalar fun _ h => h, nofun⟩
  bool _ := ⟨checkEncodes_scalar fun _ h => h, nofun⟩
  int _ hi := ⟨checkEncodes_scalar fun _ h => ⟨h, hi⟩, nofun⟩
  float l := ⟨checkEncodes_float l, nofun⟩
  str s := ⟨checkEncodes_str s, nofun⟩
  list xs hx := ⟨checkEncodes_list fun x hm => (hx x hm).1, nofun⟩
  constant _ _ h := by cases h
  objectPairs pairs v hp h := by
    simp only [strictHooks] at h
    split_ifs at h with hn
    obtain rfl := Except.ok.inj h
    rw [dictOfPairs_of_nodup hn]
    have hmem : ∀ p ∈ pairs.map fun p => (Key.str p.1, p.2), CheckEncodes p.2 := by
      intro q hq
      obtain ⟨p, hpm, rfl⟩ := List.mem_map.mp hq
      exact (hp p hpm).1
    refine ⟨checkEncodes_dict hmem, fun kvs hk => ?_⟩
    cases hk
    exact hmem

theorem contained_validateEvent {v : Value} (hv : CheckEncodes v) : Contained (validateEvent v) := by
  cases v
  case dict kvs =>
    refine (contained_asMalformed fun x hx => check_error 0 _ x hx).bind fun _ hc => ?_
    have henc := hv 0 (asMalformed_eq_ok.mp hc)
    obtain ⟨t, ht⟩ := henc.dump 0 0
    have hok := canonicalBytes_eq_ok.mpr ⟨henc, t, ht, rfl⟩
    refine Contained.bind (fun x hx => ?_) fun _ _ => (contained_require _ _).bind fun _ _ =>
      (contained_require _ _).bind fun _ _ => contained_ok _
    rw [hok] at hx
    cases hx
  all_goals exact contained_validation _

/-! ## The whole parser -/

/-- A text that is a timestamp, of a moment outside the calendar in UTC. -/
def OutOfRange (py : Interp) (s : Str) : Prop :=
  s ≠ [] ∧ ∃ r, py.fromisoformat (isoCandidate (strip s)) = some r ∧ r.toUtc = .error .overflow

/-- A mapping whose timestamp the parser comes to: no unknown and no missing fields, and
supported names. -/
structure ReachesTimestamp (data : List (Key × Value)) (requireSignature : Bool) (s : Str) :
    Prop where
  known : (data.all fun p => envelopeFields.any fun f => p.1 = .str f) = true
  present : ((requiredFields requireSignature).all fun f => (data.lookup (.str f)).isSome) = true
  formatVersion : ∃ t v, field data "format_version" = .str t ∧ FormatVersion.ofText? t = some v
  signatureAlgorithm : ∃ t a, field data "signature_algorithm" = .str t ∧
    SignatureAlgorithm.ofText? t = some a
  hashAlgorithm : ∃ t a, field data "hash_algorithm" = .str t ∧ HashAlgorithm.ofText? t = some a
  timestamp : field data "timestamp" = .str s

theorem normalizeTimestamp_error {py : Interp} {s : Str} {x : Exn}
    (h : normalizeTimestamp py (.str s) = .error x) :
    x = .canonicalization ∨ x = .overflow ∧ OutOfRange py s := by
  rw [normalizeTimestamp] at h
  split_ifs at h with hs
  · exact .inl (Except.error.inj h).symm
  · cases hr : py.fromisoformat (isoCandidate (strip s)) with
    | none =>
        rw [hr] at h
        exact .inl (Except.error.inj h).symm
    | some r =>
        rw [hr] at h
        cases hu : r.toUtc with
        | ok i =>
            simp only [hu] at h
            cases h
        | error e =>
            simp only [hu] at h
            cases e with
            | naive => exact .inl (Except.error.inj h).symm
            | overflow => exact .inr ⟨(Except.error.inj h).symm, hs, r, hr, hu⟩

theorem normalizeTimestamp_overflow {py : Interp} {s : Str} (h : OutOfRange py s) :
    normalizeTimestamp py (.str s) = .error .overflow := by
  obtain ⟨hs, r, hr, hu⟩ := h
  rw [normalizeTimestamp, if_neg hs, hr]
  simp only [hu]

theorem asMalformed_error {α : Type} {r : Except Exn α} {x : Exn}
    (h : asMalformed r = .error x) :
    (∃ reason, x = .validation reason) ∨ r = .error x ∧ x ≠ .canonicalization := by
  cases r with
  | ok a => cases h
  | error y =>
      by_cases hy : y = .canonicalization
      · subst hy
        exact .inl ⟨_, (Except.error.inj h).symm⟩
      · have hsame : asMalformed (.error y : Except Exn α) = .error y := by
          cases y <;> first | rfl | exact absurd rfl hy
        rw [hsame] at h
        exact .inr ⟨h, Except.error.inj h ▸ hy⟩

/-- What follows the timestamp raises validation errors only. -/
theorem contained_afterTimestamp {data : List (Key × Value)} (maxBytes : Nat)
    (hd : ∀ p ∈ data, CheckEncodes p.2) :
    Contained (parseSignedEventSizeGuard data maxBytes) := by
  have hevent : CheckEncodes (field data "event") := by
    unfold field
    cases hl : data.lookup (.str (lit "event")) with
    | none => exact checkEncodes_scalar fun _ h => h
    | some v => exact hd _ (mem_of_lookup hl)
  exact (contained_validateEvent hevent).bind fun _ _ =>
    (contained_asMalformed fun x hx => canonicalBytes_error hx).bind fun _ _ =>
      (contained_require _ _).bind fun _ _ => contained_ok _

/-- A mapping is parsed, refused with a validation error, or has a timestamp out of range. -/
theorem parseSignedEvent_error {py : Interp} {maxBytes : Nat} {requireSignature : Bool}
    {data : List (Key × Value)} {x : Exn} (hd : ∀ p ∈ data, CheckEncodes p.2)
    (h : parseSignedEvent py maxBytes requireSignature (.dict data) = .error x) :
    (∃ reason, x = .validation reason) ∨
      ∃ s, ReachesTimestamp data requireSignature s ∧ OutOfRange py s := by
  rw [parseSignedEvent] at h
  rcases bind_eq_error.mp h with h | ⟨⟨⟩, hknown, h⟩
  · exact .inl (contained_require _ _ x h)
  rcases bind_eq_error.mp h with h | ⟨⟨⟩, hpresent, h⟩
  · exact .inl (contained_require _ _ x h)
  rcases bind_eq_error.mp h with h | ⟨vt, hvt, h⟩
  · exact .inl (contained_asText _ x h)
  rcases bind_eq_error.mp h with h | ⟨v, hv, h⟩
  · exact .inl (contained_supported _ _ x h)
  rcases bind_eq_error.mp h with h | ⟨st, hst, h⟩
  · exact .inl (contained_asText _ x h)
  rcases bind_eq_error.mp h with h | ⟨sa, hsa, h⟩
  · exact .inl (contained_supported _ _ x h)
  rcases bind_eq_error.mp h with h | ⟨ht, hht, h⟩
  · exact .inl (contained_asText _ x h)
  rcases bind_eq_error.mp h with h | ⟨ha, hha, h⟩
  · exact .inl (contained_supported _ _ x h)
  rcases bind_eq_error.mp h with h | ⟨s, hs, h⟩
  · exact .inl (contained_asText _ x h)
  rcases bind_eq_error.mp h with h | ⟨n, hn, h⟩
  · rcases asMalformed_error h with h | ⟨h, hne⟩
    · exact .inl h
    rcases normalizeTimestamp_error h with hx | ⟨-, hrange⟩
    · exact absurd hx hne
    · exact .inr ⟨s, ⟨require_eq_ok.mp hknown, require_eq_ok.mp hpresent,
        ⟨vt, v, asText_eq_ok.mp hvt, supported_eq_ok.mp hv⟩,
        ⟨st, sa, asText_eq_ok.mp hst, supported_eq_ok.mp hsa⟩,
        ⟨ht, ha, asText_eq_ok.mp hht, supported_eq_ok.mp hha⟩, asText_eq_ok.mp hs⟩, hrange⟩
  rcases bind_eq_error.mp h with h | ⟨⟨⟩, -, h⟩
  · exact .inl (contained_require _ _ x h)
  -- the signature is read or not, and the rest is the same
  split_ifs at h
  all_goals
    rcases bind_eq_error.mp h with h | ⟨sig, -, h⟩
    · first
      | exact .inl (contained_validateSignature _ _ x h)
      | cases h
    rcases bind_eq_error.mp h with h | ⟨event, -, h⟩
    · exact .inl (contained_afterTimestamp maxBytes hd x h)
    rcases bind_eq_error.mp h with h | ⟨node, -, h⟩
    · exact .inl (contained_validateIdentifier _ x h)
    rcases bind_eq_error.mp h with h | ⟨seq, -, h⟩
    · exact .inl (contained_validateSequence _ x h)
    rcases bind_eq_error.mp h with h | ⟨prev, -, h⟩
    · exact .inl (contained_validateHash _ x h)
    rcases bind_eq_error.mp h with h | ⟨hash, -, h⟩
    · exact .inl (contained_validateHash _ x h)
    rcases bind_eq_error.mp h with h | ⟨key, -, h⟩
    · exact .inl (contained_validateIdentifier _ x h)
    cases h

theorem parseSignedEvent_overflow {py : Interp} {maxBytes : Nat} {requireSignature : Bool}
    {data : List (Key × Value)} {s : Str} (hr : ReachesTimestamp data requireSignature s)
    (ho : OutOfRange py s) :
    parseSignedEvent py maxBytes requireSignature (.dict data) = .error .overflow := by
  obtain ⟨vt, v, hvt, hv⟩ := hr.formatVersion
  obtain ⟨st, sa, hst, hsa⟩ := hr.signatureAlgorithm
  obtain ⟨ht, ha, hht, hha⟩ := hr.hashAlgorithm
  rw [parseSignedEvent, hr.known, hr.present, hvt, hst, hht, hr.timestamp]
  simp only [require, if_true, asText, supported, hv, hsa, hha, normalizeTimestamp_overflow ho,
    asMalformed, bind, Except.bind]

/-- A line that holds a mapping with a timestamp out of range, behind supported names. -/
def Overflows (py : Interp) (maxBytes : Nat) (requireSignature : Bool) (line : Line) : Prop :=
  ∃ raw text data s, line.raw = some raw ∧ raw.length ≤ maxBytes ∧
    Utf8.decodeStrict raw = some text ∧
    loadsWith strictHooks py.jsonLimit text = .ok (.dict data) ∧
    ReachesTimestamp data requireSignature s ∧ OutOfRange py s

/-- The parser returns a record or raises a validation error, unless a timestamp is out of
range. -/
theorem contained_parse_iff (py : Interp) (maxBytes : Nat) (requireSignature : Bool)
    (line : Line) :
    Contained (parseSignedEventJson py maxBytes requireSignature line) ↔
      ¬ Overflows py maxBytes requireSignature line := by
  constructor
  · rintro hc ⟨raw, text, data, s, hraw, hlen, htext, hl, hr, ho⟩
    have herr : parseSignedEventJson py maxBytes requireSignature line = .error .overflow := by
      unfold parseSignedEventJson
      rw [hraw]
      simp only [supported, require, decide_eq_true hlen, if_true, htext, hl, bind, Except.bind]
      exact parseSignedEvent_overflow hr ho
    obtain ⟨reason, h⟩ := hc _ herr
    cases h
  · intro hno x h
    unfold parseSignedEventJson at h
    rcases bind_eq_error.mp h with h | ⟨raw, hraw, h⟩
    · exact contained_supported _ _ x h
    rcases bind_eq_error.mp h with h | ⟨⟨⟩, hlen, h⟩
    · exact contained_require _ _ x h
    rcases bind_eq_error.mp h with h | ⟨text, htext, h⟩
    · exact contained_supported _ _ x h
    cases hl : loadsWith strictHooks py.jsonLimit text with
    | error e =>
        rw [hl] at h
        exact contained_validation _ x h
    | ok v =>
        rw [hl] at h
        have hkeeps := strictHooks_keeps_checkEncodes.loadsWith hl
        cases v
        case dict data =>
          rcases parseSignedEvent_error (hkeeps.2 data rfl) h with h | ⟨s, hr, ho⟩
          · exact h
          · exact absurd ⟨raw, text, data, s, supported_eq_ok.mp hraw,
              of_decide_eq_true (require_eq_ok.mp hlen), supported_eq_ok.mp htext, hl, hr, ho⟩ hno
        all_goals exact contained_validation _ x h

/-! ## A stream of lines -/

/-- `datetime.fromisoformat` reads a year of four digits. -/
def Interp.FourDigitYears (py : Interp) : Prop :=
  ∀ s r, py.fromisoformat s = some r → (s.take 4).length = 4 ∧ (s.take 4).all Decimal.isDigit = true

/-- A year below 1000 that is not padded leaves a dash among the first four characters. -/
theorem dash_of_short_year {i : Instant} (hy : i.year < 1000) (r : Str) :
    cp '-' ∈ (i.text false ++ r).take 4 := by
  have hyear : yearText false i.year = Decimal.natText i.year := if_pos ⟨hy, rfl⟩
  have hlen : (Decimal.natText i.year).length ≤ 3 :=
    Decimal.natText_length_le (by decide) (by omega)
  obtain ⟨t, ht⟩ : ∃ t, i.text false ++ r = Decimal.natText i.year ++ cp '-' :: t := by
    unfold Instant.text spelling
    rw [← Instant.year, hyear, List.append_assoc, List.cons_append]
    exact ⟨_, rfl⟩
  rw [ht, List.take_append, List.mem_append]
  refine .inr ?_
  obtain ⟨k, hk⟩ : ∃ k, 4 - (Decimal.natText i.year).length = k + 1 :=
    Nat.exists_eq_succ_of_ne_zero (by omega)
  rw [hk, List.take_succ_cons]
  exact List.mem_cons_self

/-- A year that is spelled with fewer digits is not read. -/
theorem padded_of_fromisoformat {py : Interp} (hpy : py.FourDigitYears) {i : Instant} {r : Reading}
    (h : py.fromisoformat (i.text py.padYears ++ lit "+00:00") = some r) :
    py.padYears = true ∨ 1000 ≤ i.year := by
  by_contra hn
  rw [not_or, Bool.not_eq_true] at hn
  obtain ⟨-, hdigits⟩ := hpy _ _ h
  rw [hn.1] at hdigits
  have hdash := dash_of_short_year (Nat.lt_of_not_le hn.2) (lit "+00:00")
  have := List.all_eq_true.mp hdigits _ hdash
  revert this
  decide

/-- A canonical timestamp can be read as a moment. -/
theorem parseTime_of_canonical {py : Interp} (hpy : py.FourDigitYears) {s : Str}
    (h : normalizeTimestamp py (.str s) = .ok s) : ∃ i, KeyRegistry.parseTime py s = .ok i := by
  obtain ⟨r, i, hr, -, hs⟩ := normalizeTimestamp_eq_ok h
  refine ⟨i, ?_⟩
  unfold KeyRegistry.parseTime
  rw [h]
  rw [hs, isoCandidate_text] at hr
  have hread := readUtc_padded i (padded_of_fromisoformat hpy hr)
  rw [← hs] at hread
  simp only [hread]

/-- The window of a record with readable dates is checked without an exception, unless the
moment is one that `strptime` does not take. -/
theorem windowProblems_ok {py : Interp} {r : KeyRecord}
    (hact : ∃ i, KeyRegistry.parseTime py r.activatedAt = .ok i)
    (hexp : ∀ t, r.expiresAt = some t → ∃ i, KeyRegistry.parseTime py t = .ok i) {t : Str}
    (ht : KeyRegistry.parseTime py t ≠ .error .valueError) (problems : List Alert) :
    ∃ ps, KeyRegistry.windowProblems py r t problems = .ok ps := by
  obtain ⟨activated, hact⟩ := hact
  have hexpiry : ∀ now problems, ∃ ps, KeyRegistry.expiryProblems py r now problems = .ok ps := by
    intro now problems
    unfold KeyRegistry.expiryProblems
    cases he : r.expiresAt with
    | none => exact ⟨_, rfl⟩
    | some x =>
        obtain ⟨expires, hx⟩ := hexp x he
        exact ⟨_, bind_eq_ok.mpr ⟨expires, hx, rfl⟩⟩
  unfold KeyRegistry.windowProblems
  cases hnow : KeyRegistry.parseTime py t with
  | ok now =>
      simp only [hact]
      obtain ⟨ps, hps⟩ := hexpiry now (problems ++ KeyRegistry.alertIf
        (now.micros < activated.micros) .unknownKey)
      simp only [hps]
      exact ⟨ps, rfl⟩
  | error e =>
      have he : e = .keyRegistry := by
        unfold KeyRegistry.parseTime at hnow ht
        cases hn : Canonicalizer.normalizeTimestamp py (.str t) with
        | error x =>
            rw [hn] at hnow
            exact (Except.error.inj hnow).symm
        | ok normalized =>
            rw [hn] at hnow ht
            dsimp only at hnow ht
            cases hread : readUtc normalized with
            | none => exact absurd (by rw [hread]) ht
            | some i =>
                rw [hread] at hnow
                cases hnow
      subst he
      exact ⟨_, rfl⟩

theorem checkUsable_ok {py : Interp} {reg : KeyRegistry} (hreg : reg.DatesRead py) {k n t : Str}
    {a : SignatureAlgorithm} (ht : ∃ i, KeyRegistry.parseTime py t = .ok i) :
    ∃ u, reg.checkUsable py k n t a = .ok u := by
  obtain ⟨now, hnow⟩ := ht
  unfold KeyRegistry.checkUsable
  cases hg : reg.get k with
  | none => exact ⟨_, rfl⟩
  | some r =>
      obtain ⟨hact, hexp⟩ := hreg r (List.mem_of_find?_eq_some hg)
      obtain ⟨ps, hps⟩ := windowProblems_ok hact hexp (by rw [hnow]; nofun)
        (KeyRegistry.standingProblems r n a)
      exact ⟨_, bind_eq_ok.mpr ⟨ps, hps, rfl⟩⟩

/-- A parsed record is verified without an exception. -/
theorem verifyEvent_ok {py : Interp} {verifier : EvidenceVerifier} (hpy : py.FourDigitYears)
    (hreg : verifier.registry.DatesRead py) (hb : verifier.backend.Total) {line : Line}
    {e : SignedEvent}
    (hparse : parseSignedEventJson py verifier.maxRecordBytes true line = .ok e) :
    ∃ r, verifyEvent py verifier e = .ok r := by
  have hwf := wellFormed_of_parse hparse
  obtain ⟨-, -, data, -, -, -, -, -, hchecked⟩ := parseSignedEventJson_eq_ok.mp hparse
  obtain ⟨payload, hp⟩ := SignedEvent.hashPayload_ok hwf.encodable
  have hhash : computeEventHash py e = .ok (py.sha3_256 payload) :=
    bind_eq_ok.mpr ⟨payload, hp, rfl⟩
  obtain ⟨u, hu⟩ := checkUsable_ok hreg (k := e.keyId) (n := e.nodeId) (a := e.signatureAlgorithm)
    (parseTime_of_canonical hpy hchecked.timestamp)
  have hkey : ∀ r, ∃ r', checkKey py verifier e r = .ok r' := by
    intro r
    by_cases huse : u.usable = true
    · exact ⟨r, bind_eq_ok.mpr ⟨u, hu, if_pos huse⟩⟩
    · exact ⟨_, bind_eq_ok.mpr ⟨u, hu, if_neg huse⟩⟩
  have hsig : ∀ r, ∃ r', checkSignature py verifier e r = .ok r' := by
    intro r
    unfold checkSignature
    cases verifier.registry.get e.keyId with
    | none => exact ⟨_, rfl⟩
    | some rec =>
        cases hpk : rec.publicKeyBytes py with
        | error x => exact ⟨r.addError .invalidSignature, by simp only [hpk]⟩
        | ok key =>
            obtain ⟨message, hm⟩ := SignedEvent.signingPayload_ok hwf.encodable
            obtain ⟨answer, ha⟩ := hb key message e.signatureBytes e.signatureAlgorithm
            simp only [hpk]
            exact ⟨_, bind_eq_ok.mpr ⟨message, hm, by rw [ha]; rfl⟩⟩
  obtain ⟨r₁, h₁⟩ := hkey (VerificationResult.addErrorIf
    ⟨true, e.nodeId, e.sequence, e.eventHash, [], e.keyId⟩
    (py.sha3_256 payload ≠ e.eventHash) .eventHashMismatch)
  obtain ⟨r₂, h₂⟩ := hsig r₁
  exact ⟨r₂, bind_eq_ok.mpr ⟨_, checkEventHash_eq_ok.mpr ⟨_, hhash, rfl⟩,
    bind_eq_ok.mpr ⟨r₁, h₁, h₂⟩⟩⟩

/-- One line is judged, whatever the tracker of its node, unless its timestamp is out of
range. -/
theorem judge_ok_iff {py : Interp} {c : EvidenceCollector} (hpy : py.FourDigitYears)
    (hreg : c.verifier.registry.DatesRead py) (hb : c.verifier.backend.Total)
    (t : Option NodeTracker) (line : Line) :
    (∃ p, judge py c t line = .ok p) ↔ ¬ Overflows py c.verifier.maxRecordBytes true line := by
  rw [← contained_parse_iff]
  constructor
  · rintro ⟨p, hj⟩ x hx
    by_contra hne
    unfold judge at hj
    split_ifs at hj with hlong
    · -- a line that is too long is refused by the parser too
      have hcont : Contained (parseSignedEventJson py c.verifier.maxRecordBytes true line) := by
        refine (contained_parse_iff py _ true line).mpr ?_
        rintro ⟨raw, -, -, -, hraw, hlen, -⟩
        have := lineLength_le_raw hraw
        omega
      exact hne (hcont x hx)
    · obtain ⟨q, hq, -⟩ := bind_eq_ok.mp hj
      unfold verifyLine at hq
      rw [hx] at hq
      cases x
      case validation reason => exact hne ⟨reason, rfl⟩
      all_goals cases hq
  · intro hcont
    cases hp : parseSignedEventJson py c.verifier.maxRecordBytes true line with
    | error x =>
        obtain ⟨reason, rfl⟩ := hcont x hp
        unfold judge verifyLine
        rw [hp]
        split_ifs
        · exact ⟨_, rfl⟩
        · exact ⟨_, rfl⟩
    | ok e =>
        obtain ⟨r, hr⟩ := verifyEvent_ok hpy hreg hb hp
        obtain ⟨q, hq⟩ := trackOne_ok py (t.getD NodeTracker.start) (wellFormed_of_parse hp) r
        rw [judge_record hp]
        exact ⟨_, bind_eq_ok.mpr ⟨r, hr, bind_eq_ok.mpr ⟨q, hq, rfl⟩⟩⟩

/-- The parser of a record returns or raises a validation error exactly when no timestamp is
out of range, and a stream gets a report exactly when this holds of all its lines. -/
theorem hostile_input_contained_iff (py : Interp) (hpy : py.FourDigitYears) :
    (∀ maxBytes requireSignature line,
      (∃ e, parseSignedEventJson py maxBytes requireSignature line = .ok e) ∨
        (∃ reason, parseSignedEventJson py maxBytes requireSignature line =
          .error (.validation reason)) ↔ ¬ Overflows py maxBytes requireSignature line) ∧
    ∀ c : EvidenceCollector, c.verifier.registry.DatesRead py → c.verifier.backend.Total →
      ∀ lines, (∃ report, verifyStream py c lines = .ok report) ↔
        ∀ line ∈ nonBlank lines, ¬ Overflows py c.verifier.maxRecordBytes true line := by
  constructor
  · intro maxBytes requireSignature line
    rw [← contained_parse_iff]
    cases hp : parseSignedEventJson py maxBytes requireSignature line with
    | ok e => exact ⟨fun _ => contained_ok e, fun _ => .inl ⟨e, rfl⟩⟩
    | error x =>
        constructor
        · rintro (⟨e, h⟩ | ⟨reason, h⟩)
          · cases h
          · rw [Except.error.inj h]
            exact contained_validation reason
        · intro h
          obtain ⟨reason, rfl⟩ := h x rfl
          exact .inr ⟨reason, rfl⟩
  · intro c hreg hb lines
    rw [← Keyed.run_ok_iff (m := stream py c) (judge_ok_iff hpy hreg hb) (fun _ => none)]
    constructor
    · rintro ⟨report, h⟩
      obtain ⟨s, vs, hrun, -⟩ := run_of_verifyStream h
      exact ⟨_, hrun⟩
    · rintro ⟨⟨s, vs⟩, hrun⟩
      exact verifyStream_of_run hrun

theorem fourDigitYears_reference : Interp.reference.FourDigitYears := by
  intro s r h
  have h : readIso s = some r := h
  obtain ⟨day, hday, -⟩ := Option.bind_eq_some_iff.mp h
  obtain ⟨y, hy, -⟩ := Option.bind_eq_some_iff.mp hday
  unfold readDigits at hy
  split_ifs at hy with hd
  exact hd

/-- A record at the start of the calendar, in a zone ahead of UTC. -/
def earlyRecord : Line :=
  chainRecord (lit "1") (lit "0001-01-01T00:00:00.000000+14:00") zeroHash zeroHash

set_option maxRecDepth 100000 in
theorem parse_earlyRecord :
    (match parseSignedEventJson .reference maxEvidenceBytes true earlyRecord with
      | .error x => some x
      | .ok _ => none) = some .overflow := by
  decide +kernel

/-- A timestamp of the first day in a zone ahead of UTC leaves the parser as an overflow. -/
theorem parse_raises_overflow :
    ¬ ((∃ e, parseSignedEventJson .reference maxEvidenceBytes true earlyRecord = .ok e) ∨
      ∃ reason, parseSignedEventJson .reference maxEvidenceBytes true earlyRecord =
        .error (.validation reason)) := by
  have h := parse_earlyRecord
  rintro (⟨e, he⟩ | ⟨reason, he⟩)
  · rw [he] at h
    cases h
  · rw [he] at h
    cases h

theorem datesRead_sample : sampleCollector.verifier.registry.DatesRead .reference := by
  have hread : (match KeyRegistry.parseTime .reference sampleKey.activatedAt with
      | .ok _ => true
      | .error _ => false) = true := by decide +kernel
  have hkeys : ∀ r ∈ [sampleKey, neighbourKey],
      r.activatedAt = sampleKey.activatedAt ∧ r.expiresAt = none := by decide
  intro r hr
  obtain ⟨hactivated, hexpires⟩ := hkeys r hr
  rw [hactivated, hexpires]
  refine ⟨?_, nofun⟩
  cases h : KeyRegistry.parseTime .reference sampleKey.activatedAt with
  | ok i => exact ⟨i, rfl⟩
  | error x =>
      rw [h] at hread
      cases hread

/-- The chain of three records gets a report, so none of its timestamps is out of range. -/
theorem hostile_input_contained_sample :
    (∃ report, verifyStream .reference sampleCollector (chainFirst :: chainRest) = .ok report) ∧
      ∀ line ∈ nonBlank (chainFirst :: chainRest),
        ¬ Overflows .reference sampleCollector.verifier.maxRecordBytes true line := by
  obtain ⟨report, hr, -⟩ := verifyStream_chain
  exact ⟨⟨report, hr⟩, ((hostile_input_contained_iff .reference fourDigitYears_reference).2
    sampleCollector datesRead_sample (fun _ _ _ _ => ⟨_, rfl⟩) (chainFirst :: chainRest)).mp
      ⟨report, hr⟩⟩

end IcsDeception
