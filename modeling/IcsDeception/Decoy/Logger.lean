import IcsDeception.Lib.Calendar
import IcsDeception.Lib.Json.Members
import IcsDeception.Lib.TextFile

/-!
# The event log of the native decoys

The escaper and the logger that the native services share, and what a reader of UTF-8 finds
in a line: the text around the values, and every value with its quotes and backslashes
escaped. When the values are UTF-8 the line is the JSON text of its event.

## Implementation notes

A value that comes from a client is a byte string, and nothing says that it is a text. So a
line is decoded to characters with marks between them, one for each place where the bytes
are not UTF-8.
-/

namespace IcsDeception.Decoy

open Text Calendar Json

/-! ## The source -/

/-- A string constant as bytes. -/
def ascii (s : String) : Bytes := Utf8.encodeAll (lit s)

/-- The text of `now_utc_iso`: the date and time with milliseconds. -/
def stamp (i : Instant) : Str := (i.text false).take ((i.text false).length - 3) ++ [cp 'Z']

/-- `now_utc_iso`. -/
def nowUtcIso (i : Instant) : Bytes := Utf8.encodeAll (stamp i)

/-- One character of `json_escape`. -/
def escapeByte (c : UInt8) : Bytes :=
  if c = 0x5C then ascii "\\\\"
  else if c = 0x22 then ascii "\\\""
  else if c = 0x0A then ascii "\\n"
  else if c = 0x0D then ascii "\\r"
  else if c = 0x09 then ascii "\\t"
  else if c = 0x08 then ascii "\\b"
  else if c = 0x0C then ascii "\\f"
  else if c < 0x20 ∨ c = 0x7F then Utf8.encodeAll (unicodeEscape c.toNat)
  else [c]

/-- `json_escape`. -/
def jsonEscape (s : Bytes) : Bytes := s.flatMap escapeByte

/-- `jstr`. -/
def jstr (key value : Bytes) : Bytes :=
  ascii "\"" ++ jsonEscape key ++ ascii "\":\"" ++ jsonEscape value ++ ascii "\""

/-- `jnum`. -/
def jnum (key : Bytes) (value : Int) : Bytes :=
  ascii "\"" ++ jsonEscape key ++ ascii "\":" ++ Utf8.encodeAll (Decimal.intText value)

/-- `jjoin`. -/
def jjoin : List Bytes → Bytes
  | [] => []
  | part :: parts => part ++ parts.flatMap (ascii "," ++ ·)

/-- A detail of an event, as it is handed to `jstr` or `jnum`. -/
inductive Part
  | str (key : Str) (value : Bytes)
  | num (key : Str) (value : Int)
  deriving DecidableEq

/-- The rendered detail. -/
def Part.render : Part → Bytes
  | .str key value => jstr (Utf8.encodeAll key) value
  | .num key value => jnum (Utf8.encodeAll key) value

/-- An event: its type and its details. -/
structure Event where
  eventType : Str
  details : List Part
  deriving DecidableEq

/-- The line that `JsonLogger::event` writes, without the line feed. -/
def line (source : Str) (time : Instant) (e : Event) : Bytes :=
  ascii "\x7b\"timestamp\":\"" ++ nowUtcIso time ++ ascii "\",\"source\":\"" ++
    jsonEscape (Utf8.encodeAll source) ++ ascii "\",\"event_type\":\"" ++
    jsonEscape (Utf8.encodeAll e.eventType) ++ ascii "\",\"details\":\x7b" ++
    jjoin (e.details.map Part.render) ++ ascii "\x7d\x7d"

/-! ## Escaped bytes -/

/-- A byte string without control characters. -/
def Clean (s : Bytes) : Prop := ∀ c ∈ s, 0x20 ≤ c.toNat ∧ c.toNat ≠ 0x7F

/-- The characters and marks of a decoded text, with the escapes of `json_escape`. -/
def escapeMark : Option CodePoint → List (Option CodePoint)
  | none => [none]
  | some c => (escapeOne false c).map some

/-- The same for a whole text. -/
def escapeMarks (xs : List (Option CodePoint)) : List (Option CodePoint) := xs.flatMap escapeMark

theorem escapeMarks_map (s : Str) : escapeMarks (s.map some) = (escape false s).map some := by
  induction s with
  | nil => rfl
  | cons c rest ih =>
      have hcons : escape false (c :: rest) = escapeOne false c ++ escape false rest := rfl
      rw [escapeMarks] at ih
      rw [List.map_cons, escapeMarks, List.flatMap_cons, ih, hcons, List.map_append]
      rfl

theorem none_mem_escapeMarks {xs : List (Option CodePoint)} :
    none ∈ escapeMarks xs ↔ none ∈ xs := by
  unfold escapeMarks
  rw [List.mem_flatMap]
  constructor
  · rintro ⟨x, hx, hn⟩
    cases x with
    | none => exact hx
    | some c =>
        obtain ⟨d, -, hd⟩ := List.mem_map.mp hn
        cases hd
  · exact fun h => ⟨none, h, by simp [escapeMark]⟩

/-- A text that starts with an ASCII character. -/
def AsciiHead (s : Str) : Prop := ∃ c ∈ s.head?, c.val < 0x80

instance (s : Str) : Decidable (AsciiHead s) :=
  decidable_of_iff (s.head?.any fun c => c.val < 0x80) (by
    rw [Option.any_eq_true]
    simp [AsciiHead])

/-- An encoded text that starts with an ASCII character ends whatever stands before it. -/
theorem decode_append_text (p : Bytes) {s : Str} (hs : Scalar s) (hhead : AsciiHead s) (t : Bytes) :
    Utf8.decode (p ++ (Utf8.encodeAll s ++ t)) =
      Utf8.decode p ++ (s.map some ++ Utf8.decode t) := by
  obtain ⟨c, hc, hlt⟩ := hhead
  obtain ⟨rest, rfl⟩ : ∃ rest, s = c :: rest := by
    cases s with
    | nil => cases hc
    | cons d rest =>
        obtain rfl := Option.some.inj hc
        exact ⟨rest, rfl⟩
  have hone : Utf8.encodeOne c = [UInt8.ofNat c.val] := if_pos hlt
  have hb : (UInt8.ofNat c.val).toNat < 0x80 := by
    rw [Utf8.toNat_ofNat (by omega)]
    exact hlt
  rw [← Utf8.decode_encodeAll_append hs t, Utf8.encodeAll_cons, hone]
  exact Utf8.decode_append_ascii p hb _

/-- An ASCII character without control characters is escaped as the JSON writer escapes it. -/
theorem escapeByte_ascii : ∀ n < 0x80, 0x20 ≤ n → n ≠ 0x7F →
    escapeByte (UInt8.ofNat n) = Utf8.encodeAll (escapeOne false (ofCode n)) ∧
      Scalar (escapeOne false (ofCode n)) ∧ AsciiHead (escapeOne false (ofCode n)) := by
  decide

theorem escapeByte_high {c : UInt8} (h : 0x80 ≤ c.toNat) : escapeByte c = [c] := by
  have hne : ∀ k : UInt8, k.toNat < 0x80 → c ≠ k := by
    rintro k hk rfl
    omega
  unfold escapeByte
  rw [if_neg (hne _ (by decide)), if_neg (hne _ (by decide)), if_neg (hne _ (by decide)),
    if_neg (hne _ (by decide)), if_neg (hne _ (by decide)), if_neg (hne _ (by decide)),
    if_neg (hne _ (by decide)), if_neg]
  rintro (hlt | heq)
  · have hlt : c.toNat < 0x20 := UInt8.lt_iff_toNat_lt.mp hlt
    omega
  · exact hne _ (by decide) heq

theorem escapeOne_self {c : CodePoint} (hlow : 0x20 ≤ c.val) (hquote : c ≠ cp '"')
    (hback : c ≠ cp '\\') : escapeOne false c = [c] := by
  have hne : ∀ d : CodePoint, d.val < 0x20 → c ≠ d := by
    rintro d hd rfl
    omega
  have hshort : shortEscape c = none := by
    unfold shortEscape
    rw [if_neg hquote, if_neg hback, if_neg (hne _ (by decide)), if_neg (hne _ (by decide)),
      if_neg (hne _ (by decide)), if_neg (hne _ (by decide)), if_neg (hne _ (by decide))]
  rw [escapeOne, hshort]
  simp only [Bool.false_eq_true, false_and, if_false]
  exact if_neg (by omega)

/-- A character from outside ASCII is not escaped. -/
theorem escapeMark_high {x : Option CodePoint} (h : ∀ c, x = some c → 0x80 ≤ c.val) :
    escapeMark x = [x] := by
  cases x with
  | none => rfl
  | some c =>
      have hc := h c rfl
      have hne : ∀ d : CodePoint, d.val < 0x80 → c ≠ d := by
        rintro d hd rfl
        omega
      rw [escapeMark, escapeOne_self (by omega) (hne _ (by decide)) (hne _ (by decide))]
      rfl

theorem escapeMarks_high {s : Bytes} (h : ∀ b ∈ s, 0x80 ≤ b.toNat) :
    escapeMarks (Utf8.decode s) = Utf8.decode s := by
  have hall : ∀ x ∈ Utf8.decode s, escapeMark x = [x] := by
    intro x hx
    refine escapeMark_high fun c hc => ?_
    by_contra hlt
    obtain ⟨b, hb, hval⟩ := Utf8.mem_of_mem_decode (hc ▸ hx) (by omega)
    have := h b hb
    omega
  rw [escapeMarks, List.flatMap_congr hall]
  exact List.flatMap_singleton' _

/-- An escaped byte string is decoded to its characters and marks, escaped. -/
theorem decode_jsonEscape {s : Bytes} (hs : Clean s) {b : UInt8} (hb : b.toNat < 0x80)
    (t : Bytes) :
    Utf8.decode (jsonEscape s ++ b :: t) = escapeMarks (Utf8.decode s) ++ Utf8.decode (b :: t) := by
  -- the bytes before the next ASCII byte are left as they are
  suffices general : ∀ p : Bytes, (∀ b ∈ p, 0x80 ≤ b.toNat) →
      Utf8.decode (p ++ (jsonEscape s ++ b :: t)) =
        escapeMarks (Utf8.decode (p ++ s)) ++ Utf8.decode (b :: t) from general [] (by simp)
  induction s with
  | nil =>
      intro p hp
      rw [List.append_nil, escapeMarks_high hp]
      exact Utf8.decode_append_ascii p hb t
  | cons a rest ih =>
      intro p hp
      obtain ⟨ha, hrest⟩ := List.forall_mem_cons.mp hs
      have hcons : jsonEscape (a :: rest) = escapeByte a ++ jsonEscape rest := rfl
      by_cases hlow : a.toNat < 0x80
      · obtain ⟨hesc, hscalar, hhead⟩ := escapeByte_ascii a.toNat hlow ha.1 ha.2
        rw [UInt8.ofNat_toNat] at hesc
        have hrest := ih hrest [] (by simp)
        rw [List.nil_append, List.nil_append] at hrest
        rw [hcons, hesc, List.append_assoc, decode_append_text p hscalar hhead, hrest,
          Utf8.decode_append_ascii p hlow, Utf8.decode_ascii hlow, escapeMarks, escapeMarks,
          List.flatMap_append, ← escapeMarks, ← escapeMarks, escapeMarks_high hp]
        simp [escapeMarks, escapeMark]
      · rw [hcons, escapeByte_high (by omega)]
        have := ih hrest (p ++ [a]) (by
          intro b hb
          rcases List.mem_append.mp hb with hb | hb
          · exact hp b hb
          · rw [List.mem_singleton.mp hb]
            omega)
        simpa using this

/-! ## Decoded lines -/

theorem decode_jsonEscape_text {s : Bytes} (hs : Clean s) {u : Str} (hu : Scalar u)
    (hhead : AsciiHead u) (t : Bytes) :
    Utf8.decode (jsonEscape s ++ (Utf8.encodeAll u ++ t)) =
      escapeMarks (Utf8.decode s) ++ (u.map some ++ Utf8.decode t) := by
  have hsame := decode_append_text (jsonEscape s) hu hhead t
  have hmarks : Utf8.decode (jsonEscape s) = escapeMarks (Utf8.decode s) := by
    have hend := decode_jsonEscape hs (b := 0x22) (by decide) []
    rw [Utf8.decode_append_ascii (jsonEscape s) (by decide) []] at hend
    exact List.append_cancel_right hend
  rw [hsame, hmarks]

/-- A name in the source: printable characters. -/
def Named (k : Str) : Prop := ∀ c ∈ k, Printable c

instance (k : Str) : Decidable (Named k) :=
  @List.decidableBAll _ (fun c => Printable c)
    (fun c => inferInstanceAs (Decidable (0x20 ≤ c.val ∧ c.val < 0x7F))) k

theorem Named.scalar {k : Str} (h : Named k) : Scalar k := fun c hc => (h c hc).plain.2

theorem Named.clean {k : Str} (h : Named k) : Clean (Utf8.encodeAll k) := by
  intro b hb
  obtain ⟨c, hc, hb⟩ := List.mem_flatMap.mp hb
  obtain ⟨hlow, hhigh⟩ := h c hc
  rw [Utf8.encodeOne, if_pos (by omega), List.mem_singleton] at hb
  rw [hb, Utf8.toNat_ofNat (by omega)]
  omega

/-- A name is decoded to itself, with its escapes. -/
theorem Named.marks {k : Str} (h : Named k) :
    escapeMarks (Utf8.decode (Utf8.encodeAll k)) = (escape false k).map some := by
  rw [Utf8.decode_encodeAll h.scalar, escapeMarks_map]

/-- A detail with a proper name and no control characters. -/
def Part.Clean : Part → Prop
  | .str key value => Named key ∧ Decoy.Clean value
  | .num key _ => Named key

/-- What a rendered detail is decoded to. -/
def Part.marks : Part → List (Option CodePoint)
  | .str key value =>
      (quote false key ++ lit ":\"").map some ++ (escapeMarks (Utf8.decode value) ++ [some (cp '"')])
  | .num key value => (quote false key ++ (lit ":" ++ Decimal.intText value)).map some

theorem scalar_intText (i : Int) : Scalar (Decimal.intText i) :=
  fun _ hc => (printable_of_mem_intText hc).plain.2

theorem decode_render {p : Part} (hp : p.Clean) {u : Str} (hu : Scalar u) (t : Bytes) :
    Utf8.decode (p.render ++ (Utf8.encodeAll u ++ t)) =
      p.marks ++ (u.map some ++ Utf8.decode t) := by
  have hquote : Scalar (lit "\"") ∧ AsciiHead (lit "\"") := by decide
  cases p with
  | str key value =>
      have hmiddle : Scalar (lit "\":\"") ∧ AsciiHead (lit "\":\"") := by decide
      simp only [Part.render, jstr, ascii, List.append_assoc]
      rw [Utf8.decode_encodeAll_append hquote.1, decode_jsonEscape_text hp.1.clean hmiddle.1 hmiddle.2,
        decode_jsonEscape_text hp.2 hquote.1 hquote.2, Utf8.decode_encodeAll_append hu, hp.1.marks]
      simp [Part.marks, quote, lit_eq]
  | num key value =>
      have hmiddle : Scalar (lit "\":") ∧ AsciiHead (lit "\":") := by decide
      simp only [Part.render, jnum, ascii, List.append_assoc]
      rw [Utf8.decode_encodeAll_append hquote.1,
        decode_jsonEscape_text (Named.clean hp) hmiddle.1 hmiddle.2,
        Utf8.decode_encodeAll_append (scalar_intText value), Utf8.decode_encodeAll_append hu,
        Named.marks hp]
      simp [Part.marks, quote, lit_eq]

/-- What joined details are decoded to. -/
def joinedMarks : List Part → List (Option CodePoint)
  | [] => []
  | p :: ps => p.marks ++ ps.flatMap fun q => some (cp ',') :: q.marks

theorem decode_jjoin {ps : List Part} (hps : ∀ p ∈ ps, p.Clean) {u : Str} (hu : Scalar u)
    (hhead : AsciiHead u) (t : Bytes) :
    Utf8.decode (jjoin (ps.map Part.render) ++ (Utf8.encodeAll u ++ t)) =
      joinedMarks ps ++ (u.map some ++ Utf8.decode t) := by
  -- what stands behind a detail starts with a comma, or is what stands behind all of them
  have hbehind : ∀ qs : List Part, (∀ q ∈ qs, q.Clean) → ∃ v t', Scalar v ∧ AsciiHead v ∧
      (qs.map Part.render).flatMap (ascii "," ++ ·) ++ (Utf8.encodeAll u ++ t) =
        Utf8.encodeAll v ++ t' ∧
      v.map some ++ Utf8.decode t' =
        (qs.flatMap fun q => some (cp ',') :: q.marks) ++ (u.map some ++ Utf8.decode t) := by
    intro qs
    induction qs with
    | nil => exact fun _ => ⟨u, t, hu, hhead, rfl, rfl⟩
    | cons q qs ih =>
        intro hqs
        obtain ⟨hq, hqs⟩ := List.forall_mem_cons.mp hqs
        obtain ⟨v, t', hv, hvhead, hbytes, hmarks⟩ := ih hqs
        refine ⟨lit ",", q.render ++ (Utf8.encodeAll v ++ t'), by decide, by decide, ?_, ?_⟩
        · rw [List.map_cons, List.flatMap_cons, List.append_assoc, hbytes, ascii,
            List.append_assoc]
        · rw [decode_render hq hv, hmarks]
          simp [lit_eq]
  cases ps with
  | nil => exact Utf8.decode_encodeAll_append hu t
  | cons p ps =>
      obtain ⟨hp, hps⟩ := List.forall_mem_cons.mp hps
      obtain ⟨v, t', hv, hvhead, hbytes, hmarks⟩ := hbehind ps hps
      rw [List.map_cons, jjoin, List.append_assoc, hbytes, decode_render hp hv, hmarks,
        joinedMarks, List.append_assoc]

/-- An event with proper names and no control characters. -/
structure Event.Clean (e : Event) : Prop where
  eventType : Named e.eventType
  details : ∀ p ∈ e.details, p.Clean

/-- A stamp has digits and a few signs. -/
theorem mem_stamp {i : Instant} {c : CodePoint} (h : c ∈ stamp i) :
    Decimal.isDigit c = true ∨ c ∈ lit "-T:.Z" := by
  have hsigns : cp '-' ∈ lit "-T:.Z" ∧ cp 'T' ∈ lit "-T:.Z" ∧ cp ':' ∈ lit "-T:.Z" ∧
      cp '.' ∈ lit "-T:.Z" ∧ cp 'Z' ∈ lit "-T:.Z" := by decide
  have hdigits : ∀ k n, c ∈ Decimal.padded k n → Decimal.isDigit c = true :=
    fun k n => Decimal.isDigit_of_mem_padded
  rcases List.mem_append.mp h with h | h
  · have h := List.mem_of_mem_take h
    simp only [Instant.text, spelling, List.mem_append, List.mem_cons] at h
    rcases h with h | rfl | h | rfl | h | rfl | h | rfl | h | rfl | h | rfl | h | h
    · unfold yearText at h
      split_ifs at h
      · exact .inl (Decimal.isDigit_of_mem_natText h)
      · exact .inl (hdigits _ _ h)
    · exact .inr hsigns.1
    · exact .inl (hdigits _ _ h)
    · exact .inr hsigns.1
    · exact .inl (hdigits _ _ h)
    · exact .inr hsigns.2.1
    · exact .inl (hdigits _ _ h)
    · exact .inr hsigns.2.2.1
    · exact .inl (hdigits _ _ h)
    · exact .inr hsigns.2.2.1
    · exact .inl (hdigits _ _ h)
    · exact .inr hsigns.2.2.2.1
    · exact .inl (hdigits _ _ h)
    · cases h
  · rw [List.mem_singleton.mp h]
    exact .inr hsigns.2.2.2.2

theorem named_stamp (i : Instant) : Named (stamp i) := by
  intro c hc
  rcases mem_stamp hc with h | h
  · exact printable_of_isDigit h
  · exact printable_of_all (by decide) c h

/-- What a line is decoded to. -/
theorem decode_line {source : Str} (hs : Named source) (time : Instant) {e : Event}
    (he : e.Clean) :
    Utf8.decode (line source time e) =
      (lit "\x7b\"timestamp\":\"" ++ stamp time ++ lit "\",\"source\":" ++ quote false source ++
        lit ",\"event_type\":" ++ quote false e.eventType ++ lit ",\"details\":\x7b").map some ++
        (joinedMarks e.details ++ (lit "\x7d\x7d").map some) := by
  have h₁ : Scalar (lit "\x7b\"timestamp\":\"") := by decide
  have h₂ : Scalar (lit "\",\"source\":\"") := by decide
  have h₃ : Scalar (lit "\",\"event_type\":\"") ∧ AsciiHead (lit "\",\"event_type\":\"") := by decide
  have h₄ : Scalar (lit "\",\"details\":\x7b") ∧ AsciiHead (lit "\",\"details\":\x7b") := by decide
  have h₅ : Scalar (lit "\x7d\x7d") ∧ AsciiHead (lit "\x7d\x7d") := by decide
  have hnil := decode_jjoin he.details h₅.1 h₅.2 []
  rw [List.append_nil] at hnil
  simp only [line, ascii, nowUtcIso, List.append_assoc]
  rw [Utf8.decode_encodeAll_append h₁, Utf8.decode_encodeAll_append (named_stamp time).scalar,
    Utf8.decode_encodeAll_append h₂, decode_jsonEscape_text hs.clean h₃.1 h₃.2,
    decode_jsonEscape_text he.eventType.clean h₄.1 h₄.2, hnil, hs.marks, he.eventType.marks]
  simp [quote, lit_eq, Utf8.decode]

/-! ## Lines of UTF-8 -/

/-- A detail whose value is UTF-8. -/
def Part.Legible : Part → Prop
  | .str _ value => Utf8.IsUtf8 value
  | .num _ _ => True

theorem none_mem_map_some {s : Str} : none ∉ s.map some := by simp

theorem Part.none_mem_marks {p : Part} : none ∉ p.marks ↔ p.Legible := by
  cases p with
  | str key value =>
      rw [Part.marks, Part.Legible, Utf8.isUtf8_iff, List.mem_append, List.mem_append,
        none_mem_escapeMarks]
      simp
  | num key value => exact iff_of_true none_mem_map_some trivial

theorem none_mem_joinedMarks {ps : List Part} :
    none ∉ joinedMarks ps ↔ ∀ p ∈ ps, p.Legible := by
  cases ps with
  | nil => simp [joinedMarks]
  | cons p ps =>
      have hrest : none ∉ (ps.flatMap fun q => some (cp ',') :: q.marks) ↔ ∀ q ∈ ps, q.Legible := by
        simp [List.mem_flatMap, Part.none_mem_marks]
      rw [joinedMarks, List.mem_append, not_or, Part.none_mem_marks, hrest, List.forall_mem_cons]

/-- A line is UTF-8 exactly when every value in it is. -/
theorem isUtf8_line {source : Str} (hs : Named source) (time : Instant) {e : Event}
    (he : e.Clean) : Utf8.IsUtf8 (line source time e) ↔ ∀ p ∈ e.details, p.Legible := by
  rw [Utf8.isUtf8_iff, decode_line hs time he, ← none_mem_joinedMarks, List.mem_append,
    List.mem_append]
  simp

/-! ## The JSON text of an event -/

/-- How the logger writes: without escapes for other scripts, without spaces. -/
def logStyle : Style := ⟨false, false, lit ",", lit ":", none⟩

theorem valid_logStyle : logStyle.Valid :=
  ⟨⟨[], by decide, by simp⟩, ⟨[], by decide, by simp⟩⟩

/-- A detail as a field of a dictionary. -/
def Part.member : Part → Str × Value
  | .str key value => (key, .str (Utf8.decodeReplace value))
  | .num key value => (key, .int value)

/-- The text of a detail's value. -/
def Part.valueText : Part → Str
  | .str _ value => quote false (Utf8.decodeReplace value)
  | .num _ value => Decimal.intText value

/-- The dictionary that a line spells. -/
def Event.fields (source : Str) (time : Instant) (e : Event) : List (Str × Value) :=
  [(lit "timestamp", .str (stamp time)), (lit "source", .str source),
    (lit "event_type", .str e.eventType),
    (lit "details", .ofMembers (e.details.map Part.member))]

/-- A detail as it stands in a line. -/
def Part.written (p : Part) : Str := logStyle.member (p.member.1, p.valueText)

theorem Part.Legible.marks {p : Part} (h : p.Legible) : p.marks = p.written.map some := by
  cases p with
  | str key value =>
      have hvalue : Utf8.decode value = (Utf8.decodeReplace value).map some :=
        Utf8.IsUtf8.decode_eq h
      rw [Part.marks, hvalue, escapeMarks_map]
      simp [Part.written, Part.member, Part.valueText, Style.member, logStyle, quote, lit_eq]
  | num key value => simp [Part.marks, Part.written, Part.member, Part.valueText, Style.member, logStyle]

theorem joinedMarks_of_legible {ps : List Part} (h : ∀ p ∈ ps, p.Legible) :
    joinedMarks ps = (joined (lit ",") (ps.map Part.written)).map some := by
  cases ps with
  | nil => rfl
  | cons p ps =>
      obtain ⟨hp, hps⟩ := List.forall_mem_cons.mp h
      have hrest : (ps.flatMap fun q => some (cp ',') :: q.marks) =
          ((ps.map Part.written).flatMap (lit "," ++ ·)).map some := by
        rw [List.flatMap_map, List.map_flatMap]
        apply List.flatMap_congr
        intro q hq
        rw [(hps q hq).marks]
        rfl
      rw [joinedMarks, hp.marks, hrest, List.map_cons, joined, List.map_append]

/-- A detail of the size that a session logs. -/
def Part.Small : Part → Prop
  | .str key value => key.length ≤ 32 ∧ value.length ≤ 513
  | .num key value => key.length ≤ 32 ∧ value.natAbs < 65536

theorem Part.Small.dump {p : Part} (h : p.Small) (level : Nat) :
    dump logStyle level p.member.2 = .ok p.valueText := by
  cases p with
  | str key value => rfl
  | num key value =>
      have hbound : value.natAbs < 10 ^ 5 := h.2.trans (by decide)
      have hlength := Decimal.natText_length_le (by decide) hbound
      have hdigits : maxDigits = 4300 := rfl
      rw [Part.member, Json.dump, dumpInt, if_neg (by omega)]
      rfl

theorem bracket_logStyle (level : Nat) (o c : CodePoint) (parts : List Str) :
    bracket logStyle level o c parts = o :: (joined (lit ",") parts ++ [c]) := by
  cases parts with
  | nil => rfl
  | cons p ps => simp [bracket, Style.newline, logStyle]

/-- A dictionary is written with the texts of its values. -/
theorem dump_fields {α : Type} {xs : List α} {f : α → Str × Value} {text : α → Str} {level : Nat}
    (h : ∀ x ∈ xs, dump logStyle (level + 1) (f x).2 = .ok (text x)) :
    dump logStyle level (.ofMembers (xs.map f)) =
      .ok (cp '\x7b' :: (joined (lit ",") (xs.map fun x => logStyle.member ((f x).1, text x)) ++
        [cp '\x7d'])) := by
  have horder : logStyle.order (xs.map fun x => ((f x).1, text x)) =
      xs.map fun x => ((f x).1, text x) := rfl
  rw [Value.ofMembers, Json.dump, dumpMembers_ofMembers h]
  simp only [bind, Except.bind, pure, Except.pure]
  rw [bracket_logStyle, horder, List.map_map]
  rfl

theorem dump_details {ps : List Part} (h : ∀ p ∈ ps, p.Small) (level : Nat) :
    dump logStyle level (.ofMembers (ps.map Part.member)) =
      .ok (cp '\x7b' :: (joined (lit ",") (ps.map Part.written) ++ [cp '\x7d'])) :=
  dump_fields fun p hp => (h p hp).dump (level + 1)

theorem escape_stamp (i : Instant) : escape false (stamp i) = stamp i := by
  have hsigns : ((lit "-T:.Z").all fun d => 0x20 ≤ d.val && d != cp '"' && d != cp '\\') = true := by
    decide
  have hone : ∀ c ∈ stamp i, escapeOne false c = [c] := by
    intro c hc
    rcases mem_stamp hc with h | h
    · have hdigit : 0x30 ≤ c.val ∧ c.val ≤ 0x39 := by simpa [Decimal.isDigit] using h
      refine escapeOne_self (by omega) ?_ ?_
      · rintro rfl
        exact absurd hdigit (by decide)
      · rintro rfl
        exact absurd hdigit (by decide)
    · have hsign := List.all_eq_true.mp hsigns c h
      simp only [Bool.and_eq_true, decide_eq_true_eq, bne_iff_ne] at hsign
      exact escapeOne_self hsign.1.1 hsign.1.2 hsign.2
  rw [escape, List.flatMap_congr hone]
  exact List.flatMap_singleton' _

/-- The fields of an event with their texts. -/
def Event.spelled (source : Str) (time : Instant) (e : Event) : List (Str × Value × Str) :=
  [(lit "timestamp", .str (stamp time), quote false (stamp time)),
    (lit "source", .str source, quote false source),
    (lit "event_type", .str e.eventType, quote false e.eventType),
    (lit "details", .ofMembers (e.details.map Part.member),
      cp '\x7b' :: (joined (lit ",") (e.details.map Part.written) ++ [cp '\x7d']))]

theorem dump_event (source : Str) (time : Instant) {e : Event} (h : ∀ p ∈ e.details, p.Small) :
    dump logStyle 0 (.ofMembers (e.fields source time)) =
      .ok (lit "\x7b\"timestamp\":" ++ quote false (stamp time) ++ lit ",\"source\":" ++
        quote false source ++ lit ",\"event_type\":" ++ quote false e.eventType ++
        lit ",\"details\":\x7b" ++ joined (lit ",") (e.details.map Part.written) ++
        lit "\x7d\x7d") := by
  have hfields : dump logStyle 0 (.ofMembers ((e.spelled source time).map fun x => (x.1, x.2.1))) =
      .ok (cp '\x7b' :: (joined (lit ",") ((e.spelled source time).map fun x =>
        logStyle.member (x.1, x.2.2)) ++ [cp '\x7d'])) := by
    apply dump_fields
    intro x hx
    simp only [Event.spelled, List.mem_cons, List.not_mem_nil, or_false] at hx
    rcases hx with rfl | rfl | rfl | rfl
    · rfl
    · rfl
    · rfl
    · exact dump_details h 1
  have hmember : ∀ k t, logStyle.member (k, t) = (quote false k ++ lit ":") ++ t := fun _ _ => rfl
  have hstart : cp '\x7b' :: (quote false (lit "timestamp") ++ lit ":") =
      lit "\x7b\"timestamp\":" := by decide
  have hsource : lit "," ++ (quote false (lit "source") ++ lit ":") = lit ",\"source\":" := by decide
  have htype : lit "," ++ (quote false (lit "event_type") ++ lit ":") = lit ",\"event_type\":" := by
    decide
  have hdetails : lit "," ++ (quote false (lit "details") ++ lit ":") ++ [cp '\x7b'] =
      lit ",\"details\":\x7b" := by decide
  have hend : [cp '\x7d'] ++ [cp '\x7d'] = lit "\x7d\x7d" := by decide
  refine hfields.trans (congrArg Except.ok ?_)
  rw [← hstart, ← hsource, ← htype, ← hdetails, ← hend]
  simp only [Event.spelled, List.map_cons, List.map_nil, joined, List.flatMap_cons, List.flatMap_nil,
    hmember, List.append_assoc, List.cons_append, List.nil_append, List.append_nil]

/-- The line of an event whose values are UTF-8 is the JSON text of the event. -/
theorem decode_line_of_legible {source : Str} (hs : Named source) (time : Instant) {e : Event}
    (he : e.Clean) (hsmall : ∀ p ∈ e.details, p.Small) (hlegible : ∀ p ∈ e.details, p.Legible) :
    ∃ text, Utf8.decodeStrict (line source time e) = some text ∧
      dump logStyle 0 (.ofMembers (e.fields source time)) = .ok text := by
  have hstamp : quote false (stamp time) = cp '"' :: (stamp time ++ [cp '"']) := by
    rw [quote, escape_stamp]
  have hopen : lit "\x7b\"timestamp\":\"" = lit "\x7b\"timestamp\":" ++ [cp '"'] := by decide
  have hsource : lit "\",\"source\":" = cp '"' :: lit ",\"source\":" := by decide
  refine ⟨_, Utf8.decodeStrict_of_decode ?_, dump_event source time hsmall⟩
  rw [decode_line hs time he, joinedMarks_of_legible hlegible, ← List.map_append,
    ← List.map_append, hopen, hsource, hstamp]
  apply congrArg
  simp only [List.append_assoc, List.cons_append, List.nil_append]

end IcsDeception.Decoy
