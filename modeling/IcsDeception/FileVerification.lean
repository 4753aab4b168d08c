import IcsDeception.StreamSpec
import IcsDeception.Lib.Json.Consumed
import IcsDeception.Lib.TextFile

/-!
# Files and lines of bytes

`verify_file` opens the file as text: invalid bytes are replaced, carriage returns end
lines, and the surrounding whitespace that is removed from a line is that of Unicode.
`verify_line` on the bytes of a line does none of this. The lines of a file that the
first reading accepts are accepted by the second exactly when the file has no line in
which these liberties matter.
-/

namespace IcsDeception

open Text Json Models EvidenceVerifier EvidenceCollector

namespace FileVerification

/-- A line that `verify_line` reads and finds valid. -/
def AcceptsLine (py : Interp) (verifier : EvidenceVerifier) (line : Line) : Prop :=
  ∃ r e, verifyLine py verifier line = .ok (r, some e) ∧ r.valid = true

theorem acceptsLine_iff {py : Interp} {verifier : EvidenceVerifier} {line : Line} :
    AcceptsLine py verifier line ↔
      ∃ e, parseSignedEventJson py verifier.maxRecordBytes true line = .ok e ∧
        Sound py verifier e := by
  unfold AcceptsLine verifyLine
  constructor
  · rintro ⟨r, e, h, hv⟩
    cases hp : parseSignedEventJson py verifier.maxRecordBytes true line with
    | error x =>
        rw [hp] at h
        cases x <;> cases h
    | ok e' =>
        rw [hp] at h
        obtain ⟨r', hr, h⟩ := bind_eq_ok.mp h
        obtain ⟨rfl, he⟩ := Prod.mk.inj (Except.ok.inj h)
        obtain rfl := Option.some.inj he
        exact ⟨e', rfl, (verifyEvent_valid hr).mp hv⟩
  · rintro ⟨e, hp, hs⟩
    obtain ⟨r, hr, hv⟩ := verifyEvent_of_sound hs
    refine ⟨r, e, ?_, hv⟩
    rw [hp]
    exact bind_eq_ok.mpr ⟨r, hr, rfl⟩

theorem strictHooks_constant (name : Str) (v : Value) (h : strictHooks.constant name = .ok v)
    (kvs : List (Key × Value)) : v ≠ .dict kvs := by
  simp [strictHooks] at h

/-- A record: an object whose members parse, with a sound event. -/
def IsRecord (py : Interp) (verifier : EvidenceVerifier) (p : Str) : Prop :=
  ∃ data e, IsObject strictHooks py.jsonLimit p (.dict data) ∧ Holds data e ∧
    Checked py verifier.maxRecordBytes data e ∧ Sound py verifier e

/-- What is accepted decodes to one record between whitespace, within the size limit. -/
theorem acceptsLine_decoded {py : Interp} {verifier : EvidenceVerifier} {line : Line} {raw : Bytes}
    {t : Str} (hraw : line.raw = some raw) (ht : Utf8.decodeStrict raw = some t) :
    AcceptsLine py verifier line ↔ raw.length ≤ verifier.maxRecordBytes ∧
      ∃ w p w', t = w ++ (p ++ w') ∧ (∀ c ∈ w, isWs c = true) ∧ (∀ c ∈ w', isWs c = true) ∧
        IsRecord py verifier p := by
  rw [acceptsLine_iff]
  constructor
  · rintro ⟨e, hp, hs⟩
    obtain ⟨raw', t', data, hraw', hlen, ht', hl, hh, hc⟩ := parseSignedEventJson_eq_ok.mp hp
    obtain rfl := Option.some.inj (hraw.symm.trans hraw')
    obtain rfl := Option.some.inj (ht.symm.trans ht')
    obtain ⟨w, p, w', hsplit, hw, hw', hobj⟩ := loadsWith_dict strictHooks_constant hl
    exact ⟨hlen, w, p, w', hsplit, hw, hw', data, e, hobj, hh, hc, hs⟩
  · rintro ⟨hlen, w, p, w', rfl, hw, hw', data, e, hobj, hh, hc, hs⟩
    exact ⟨e, parseSignedEventJson_eq_ok.mpr ⟨raw, _, data, hraw, hlen, ht, hobj.loadsWith hw hw',
      hh, hc⟩, hs⟩

/-! ## The middle of a line -/

theorem isSpace_of_isWs {c : CodePoint} (h : isWs c = true) : isSpace c = true := by
  rcases isWs_iff.mp h with rfl | rfl | rfl | rfl <;> decide

/-- A line without the whitespace of the grammar around it. -/
def middle (t : Str) : Str := stripWith isWs t

theorem middle_split (t : Str) :
    ∃ w w', t = w ++ (middle t ++ w') ∧ (∀ c ∈ w, isWs c = true) ∧ ∀ c ∈ w', isWs c = true := by
  refine ⟨t.takeWhile isWs, (t.dropWhile isWs).rtakeWhile isWs, ?_,
    fun c hc => List.mem_takeWhile_imp hc, fun c hc => List.mem_rtakeWhile_imp hc⟩
  rw [middle, stripWith, List.rdropWhile_append_rtakeWhile, List.takeWhile_append_dropWhile]

theorem record_ends {py : Interp} {verifier : EvidenceVerifier} {p : Str}
    (h : IsRecord py verifier p) : p ≠ [] ∧ p.head? = some (cp '\x7b') ∧
      p.getLast? = some (cp '\x7d') := by
  obtain ⟨data, e, hobj, -⟩ := h
  exact ⟨hobj.ne_nil, hobj.head, hobj.last⟩

theorem stripWith_record {py : Interp} {verifier : EvidenceVerifier} {p : Str}
    (h : IsRecord py verifier p) {q : CodePoint → Bool} (hq : q (cp '\x7b') = false)
    (hq' : q (cp '\x7d') = false) {w w' : Str} (hw : ∀ c ∈ w, q c = true)
    (hw' : ∀ c ∈ w', q c = true) : stripWith q (w ++ (p ++ w')) = p := by
  obtain ⟨hne, hhead, hlast⟩ := record_ends h
  rw [← List.append_assoc]
  apply stripWith_eq hw hw' _ _ hne
  · rw [hhead]
    rintro x hx
    obtain rfl := Option.some.inj hx
    exact hq
  · rw [hlast]
    rintro x hx
    obtain rfl := Option.some.inj hx
    exact hq'

theorem middle_of_record {py : Interp} {verifier : EvidenceVerifier} {p : Str}
    (h : IsRecord py verifier p) {w w' : Str} (hw : ∀ c ∈ w, isWs c = true)
    (hw' : ∀ c ∈ w', isWs c = true) : middle (w ++ (p ++ w')) = p :=
  stripWith_record h (by decide) (by decide) hw hw'

theorem strip_of_record {py : Interp} {verifier : EvidenceVerifier} {p : Str}
    (h : IsRecord py verifier p) {w w' : Str} (hw : ∀ c ∈ w, isSpace c = true)
    (hw' : ∀ c ∈ w', isSpace c = true) : strip (w ++ (p ++ w')) = p :=
  stripWith_record h (by decide) (by decide) hw hw'

/-- A stripped line of text is accepted exactly when it is a record within the limit. -/
theorem acceptsLine_text {py : Interp} {verifier : EvidenceVerifier} {m : Str}
    (hm : strip m = m) (h : AcceptsLine py verifier (.text m)) : IsRecord py verifier m := by
  obtain ⟨e, hp, -⟩ := acceptsLine_iff.mp h
  obtain ⟨raw, t, data, hraw, -, ht, -⟩ := parseSignedEventJson_eq_ok.mp hp
  obtain ⟨hs, rfl⟩ := Utf8.encode_eq_some.mp hraw
  obtain rfl : m = t := Option.some.inj ((Utf8.decodeStrict_encodeAll hs).symm.trans ht)
  obtain ⟨-, w, p, w', hsplit, hw, hw', hrec⟩ := (acceptsLine_decoded hraw ht).mp h
  have hstrip := strip_of_record hrec (fun c hc => isSpace_of_isWs (hw c hc))
    (fun c hc => isSpace_of_isWs (hw' c hc))
  rw [← hsplit, hm] at hstrip
  rwa [hstrip]

/-! ## The lines of the text reading -/

theorem nonBlank_text (ls : List Str) : nonBlank (ls.map .text) = (strips ls).map .text := by
  simp only [nonBlank, strips, List.map_map, List.filter_map]
  congr 1
  apply List.filter_congr
  intro s _
  simp [lineLength, stripLine, List.length_eq_zero_iff]

/-- In a file that is reported valid, every piece of a line between carriage returns is
blank or a record. -/
theorem pieces_of_valid {py : Interp} {c : EvidenceCollector} {content : Bytes}
    {report : StreamReport} (h : verifyFile py c content = .ok report) (hv : report.valid = true)
    {raw : Bytes} (hraw : raw ∈ Utf8.rawLines content) :
    ∀ m ∈ strips ((Utf8.decodeReplace raw).splitOnP isBreak), IsRecord py c.verifier m := by
  intro m hm
  obtain ⟨rs, hg⟩ := genuine_of_valid h hv
  have hparses := hg.parses
  rw [nonBlank_text, strips_lines, Utf8.pieces_decodeReplace] at hparses
  obtain ⟨⟨s, hs, hstrip⟩, hne⟩ := mem_strips.mp hm
  have hmem : m ∈ strips ((Utf8.rawLines content).flatMap fun raw =>
      (Utf8.decodeReplace raw).splitOnP isBreak) :=
    mem_strips.mpr ⟨⟨s, List.mem_flatMap.mpr ⟨raw, hraw, hs⟩, hstrip⟩, hne⟩
  have hparse : parseSignedEventJson py c.verifier.maxRecordBytes true (.text m) ∈ rs.map .ok := by
    rw [← hparses, List.map_map]
    exact List.mem_map_of_mem hmem
  obtain ⟨e, he, hparse⟩ := List.mem_map.mp hparse
  apply acceptsLine_text
  · rw [← hstrip, strip_strip]
  · exact acceptsLine_iff.mpr ⟨e, hparse.symm, hg.sound e he⟩

/-! ## Lines of bytes -/

/-- A line on which lenient reading takes no liberty: it is UTF-8 and within the size
limit as it stands, and what the grammar's whitespace surrounds has neither other
whitespace at its ends nor a carriage return inside. -/
def CleanLine (maxBytes : Nat) (raw : Bytes) : Prop :=
  ∃ t, Utf8.decodeStrict raw = some t ∧ raw.length ≤ maxBytes ∧ strip (middle t) = middle t ∧
    cr ∉ middle t

/-- A line of bytes that is UTF-8 and accepted as it stands. -/
def StrictlyAccepted (py : Interp) (verifier : EvidenceVerifier) (raw : Bytes) : Prop :=
  (Utf8.decodeStrict raw).isSome = true ∧ AcceptsLine py verifier (.bytes raw)

theorem isAsciiSpace_of_isWs {b : UInt8} (hb : b.toNat < 0x80)
    (h : isWs (ofCode b.toNat) = true) : isAsciiSpace b = true := by
  have hval : (ofCode b.toNat).val = b.toNat := val_ofCode (by omega)
  have hws := isWs_iff.mp h
  have : b.toNat = 0x20 ∨ b.toNat = 0x09 ∨ b.toNat = 0x0A ∨ b.toNat = 0x0D := by
    rw [← hval]
    rcases hws with h | h | h | h <;> rw [h] <;> decide
  rcases this with h | h | h | h
  · obtain rfl : b = 0x20 := UInt8.toNat_inj.mp h
    decide
  · obtain rfl : b = 0x09 := UInt8.toNat_inj.mp h
    decide
  · obtain rfl : b = 0x0A := UInt8.toNat_inj.mp h
    decide
  · obtain rfl : b = 0x0D := UInt8.toNat_inj.mp h
    decide

/-- A line of bytes that is not blank has a middle. -/
theorem middle_ne_nil {raw : Bytes} {t : Str} (ht : Utf8.decodeStrict raw = some t)
    (hraw : stripBytes raw ≠ []) : middle t ≠ [] := by
  intro hmid
  obtain ⟨w, w', hsplit, hw, hw'⟩ := middle_split t
  have hall : ∀ c ∈ t, isWs c = true := by
    intro c hc
    rw [hsplit, hmid, List.nil_append] at hc
    exact (List.mem_append.mp hc).elim (hw c) (hw' c)
  have hdecode := Utf8.decode_of_decodeStrict ht
  apply hraw
  have hspace : ∀ b ∈ raw, isAsciiSpace b = true := by
    intro b hb
    rcases Utf8.mem_decode_of_mem hb with ⟨hlt, hmem⟩ | ⟨x, hx, hhigh⟩
    · rw [hdecode] at hmem
      obtain ⟨c, hc, heq⟩ := List.mem_map.mp hmem
      exact isAsciiSpace_of_isWs hlt (Option.some.inj heq ▸ hall c hc)
    · rw [hdecode] at hx
      obtain ⟨c, hc, rfl⟩ := List.mem_map.mp hx
      have hge := hhigh c rfl
      rcases isWs_iff.mp (hall c hc) with rfl | rfl | rfl | rfl <;> exact absurd hge (by decide)
  unfold stripBytes stripWith
  rw [List.dropWhile_eq_nil_iff.mpr hspace]
  rfl

/-- No record of the strict reading runs over a carriage return when the pieces between
them are records. -/
theorem cr_notMem_of_pieces {py : Interp} {verifier : EvidenceVerifier} {w p w' : Str}
    (hw : ∀ c ∈ w, isWs c = true) (hp : IsRecord py verifier p) (hlf : lf ∉ p)
    (hpieces : ∀ m ∈ strips ((w ++ (p ++ w')).splitOnP isBreak), IsRecord py verifier m) :
    cr ∉ p := by
  intro hcr
  obtain ⟨q, rest, rfl, hq⟩ := List.eq_append_cons_of_mem hcr
  have hqbreak : ∀ c ∈ q, isBreak c = false := by
    intro c hc
    apply isBreak_eq_false.mpr
    constructor
    · rintro rfl
      exact hlf (List.mem_append_left _ hc)
    · rintro rfl
      exact hq hc
  obtain ⟨-, hhead, -⟩ := record_ends hp
  obtain ⟨d, q, rfl⟩ : ∃ d q', q = d :: q' := by
    cases q with
    | nil => exact absurd (Option.some.inj hhead) (by decide)
    | cons d q => exact ⟨d, q, rfl⟩
  obtain rfl : d = cp '\x7b' := Option.some.inj hhead
  -- the piece up to the carriage return strips to an object at the front of the record
  obtain ⟨a, b, hmem, ha, hb⟩ := @piece_around w _ [] hqbreak
  obtain rfl : b = [] := List.eq_nil_iff_forall_not_mem.mpr fun c hc => List.not_mem_nil (hb c hc)
  rw [List.append_nil] at hmem
  have hsplit : w ++ ((cp '\x7b' :: q) ++ cr :: rest ++ w') =
      (w ++ cp '\x7b' :: q) ++ cr :: (rest ++ w') := by simp
  have hpiece : a ++ cp '\x7b' :: q ∈
      (w ++ ((cp '\x7b' :: q) ++ cr :: rest ++ w')).splitOnP isBreak := by
    rw [hsplit, List.splitOnP_append_cons _ _ (by decide)]
    exact List.mem_append_left _ hmem
  have hstrip : strip (a ++ cp '\x7b' :: q) = (cp '\x7b' :: q).rdropWhile isSpace := by
    rw [strip, stripWith, List.dropWhile_append_of_pos fun c hc => isSpace_of_isWs (hw c (ha c hc))]
    rfl
  have hcut := List.rdropWhile_append_rtakeWhile (p := isSpace) (l := cp '\x7b' :: q)
  generalize (cp '\x7b' :: q).rtakeWhile isSpace = tail at hcut
  have hne : (cp '\x7b' :: q).rdropWhile isSpace ≠ [] := by
    intro hnil
    have hall := List.rdropWhile_eq_nil_iff.mp hnil (cp '\x7b') (by simp)
    exact absurd hall (by decide)
  obtain ⟨data, e, hobj, -⟩ := hpieces _ (mem_strips.mpr ⟨⟨_, hpiece, hstrip⟩, hne⟩)
  obtain ⟨data', e', hobj', -⟩ := hp
  have hfront : cp '\x7b' :: q ++ cr :: rest ++ [] =
      (cp '\x7b' :: q).rdropWhile isSpace ++ (tail ++ cr :: rest) := by
    rw [List.append_nil, ← List.append_assoc, hcut]
  obtain ⟨heq, -⟩ := hobj'.eq_of_prefix hobj hfront
  rw [← heq, List.append_right_inj] at hfront
  simp at hfront

theorem strictlyAccepted_iff {py : Interp} {verifier : EvidenceVerifier} {raw : Bytes}
    (hlf : Utf8.lfByte ∉ raw) (hraw : stripBytes raw ≠ [])
    (hpieces : ∀ m ∈ strips ((Utf8.decodeReplace raw).splitOnP isBreak), IsRecord py verifier m) :
    StrictlyAccepted py verifier raw ↔ CleanLine verifier.maxRecordBytes raw := by
  constructor
  · rintro ⟨hsome, haccept⟩
    obtain ⟨t, ht⟩ := Option.isSome_iff_exists.mp hsome
    obtain ⟨hlen, w, p, w', rfl, hw, hw', hrec⟩ := (acceptsLine_decoded rfl ht).mp haccept
    rw [Utf8.decodeReplace_of_decodeStrict ht] at hpieces
    have hmid := middle_of_record hrec hw hw'
    have hlf' : lf ∉ p := by
      intro hmem
      apply Utf8.lf_notMem_decodeReplace hlf
      rw [Utf8.decodeReplace_of_decodeStrict ht]
      simp [hmem]
    refine ⟨_, ht, hlen, ?_, ?_⟩
    · rw [hmid]
      have hnone : ∀ c ∈ ([] : Str), isSpace c = true := by simp
      simpa using strip_of_record hrec hnone hnone
    · rw [hmid]
      exact cr_notMem_of_pieces hw hrec hlf' hpieces
  · rintro ⟨t, ht, hlen, hstrip, hcr⟩
    rw [Utf8.decodeReplace_of_decodeStrict ht] at hpieces
    obtain ⟨w, w', hsplit, hw, hw'⟩ := middle_split t
    have hlf' : lf ∉ t := by
      have := Utf8.lf_notMem_decodeReplace hlf
      rwa [Utf8.decodeReplace_of_decodeStrict ht] at this
    have hbreak : ∀ c ∈ middle t, isBreak c = false := by
      intro c hc
      apply isBreak_eq_false.mpr
      constructor
      · rintro rfl
        apply hlf'
        rw [hsplit]
        simp [hc]
      · rintro rfl
        exact hcr hc
    have hne := middle_ne_nil ht hraw
    -- the text reading verifies the middle of the line
    obtain ⟨a, b, hmem, ha, hb⟩ := @piece_around w _ w' hbreak
    rw [← hsplit] at hmem
    have hmiddle : strip (a ++ (middle t ++ b)) = middle t := by
      rw [← List.append_assoc]
      apply stripWith_eq (fun c hc => isSpace_of_isWs (hw c (ha c hc)))
        (fun c hc => isSpace_of_isWs (hw' c (hb c hc))) _ _ hne
      · rw [← hstrip]
        exact head?_strip
      · rw [← hstrip]
        exact getLast?_strip
    have hrec := hpieces _ (mem_strips.mpr ⟨⟨_, hmem, hmiddle⟩, hne⟩)
    refine ⟨by rw [ht]; rfl, (acceptsLine_decoded rfl ht).mpr ⟨hlen, w, middle t, w', ?_, hw, hw', hrec⟩⟩
    exact hsplit

/-- When `verify_file` reports a file valid, its lines that are not blank are accepted as
bytes exactly when they are clean. -/
theorem verifyFile_strict_iff (py : Interp) (c : EvidenceCollector) (content : Bytes)
    (report : StreamReport) (h : verifyFile py c content = .ok report)
    (hv : report.valid = true) :
    (∀ raw ∈ Utf8.rawLines content, stripBytes raw ≠ [] →
      StrictlyAccepted py c.verifier raw) ↔
    (∀ raw ∈ Utf8.rawLines content, stripBytes raw ≠ [] →
      CleanLine c.verifier.maxRecordBytes raw) := by
  apply forall₂_congr
  intro raw hraw
  apply imp_congr_right
  intro hblank
  exact strictlyAccepted_iff (Utf8.lfByte_notMem_rawLines hraw) hblank
    (pieces_of_valid h hv hraw)

/-- The first record of node `n`. -/
def sampleRecord : Str :=
  recordText (lit "k") (lit "n") (lit "cGs=") (lit "1") chainTime (chainHash 0) chainGenesis

/-- The sample record as a file with one line. -/
def sampleFile : Bytes := Utf8.encodeAll sampleRecord ++ [Utf8.lfByte]

set_option maxRecDepth 100000 in
theorem verifyFile_sample :
    (verifyFile .reference sampleCollector sampleFile).toOption.map StreamReport.valid =
      some true := by
  rw [Interp.reference_eq_unrolled]
  decide +kernel

set_option maxRecDepth 100000 in
theorem sampleFile_lines : Utf8.rawLines sampleFile = [Utf8.encodeAll sampleRecord, []] ∧
    Scalar sampleRecord ∧ (Utf8.encodeAll sampleRecord).length ≤ maxEvidenceBytes ∧
    strip (middle sampleRecord) = middle sampleRecord ∧ cr ∉ middle sampleRecord := by
  decide +kernel

/-- The file of the sample record is reported valid and its line is accepted as bytes. -/
theorem verifyFile_strict_sample :
    ∃ report, verifyFile .reference sampleCollector sampleFile = .ok report ∧
      report.valid = true ∧ ∀ raw ∈ Utf8.rawLines sampleFile, stripBytes raw ≠ [] →
        StrictlyAccepted .reference sampleCollector.verifier raw := by
  obtain ⟨report, hreport, hvalid⟩ := eq_ok_of_toOption verifyFile_sample
  obtain ⟨hlines, hscalar, hlen, hstrip, hcr⟩ := sampleFile_lines
  refine ⟨report, hreport, hvalid, ?_⟩
  apply (verifyFile_strict_iff .reference sampleCollector sampleFile report hreport hvalid).mpr
  intro raw hraw hblank
  rw [hlines, List.mem_cons, List.mem_singleton] at hraw
  rcases hraw with rfl | rfl
  · exact ⟨sampleRecord, Utf8.decodeStrict_encodeAll hscalar, hlen, hstrip, hcr⟩
  · exact absurd rfl hblank

/-- A record whose event holds the replacement character, with the given bytes in its
place. -/
def replacedFile (bytes : Bytes) : Bytes :=
  let record := recordText (lit "k") (lit "n") (lit "cGs=") (lit "1") chainTime
    (hashText 0xac2415fe3bf0bfa95586a026918859ec8d64c9435376d2189c7aa7df5574549e) chainGenesis
  -- the event of the record is empty, and its brace ends at the eleventh character
  Utf8.encodeAll (record.take 10) ++ Utf8.encodeAll (lit "\"x\":\"") ++ bytes ++
    Utf8.encodeAll (lit "\"") ++ Utf8.encodeAll (record.drop 10)

set_option maxRecDepth 100000 in
theorem verifyFile_replaced :
    (verifyFile .reference sampleCollector (replacedFile [0xFF])).toOption.map StreamReport.valid =
      some true := by
  rw [Interp.reference_eq_unrolled]
  decide +kernel

set_option maxRecDepth 100000 in
theorem replacedFile_lines : Utf8.rawLines (replacedFile [0xFF]) = [replacedFile [0xFF]] ∧
    stripBytes (replacedFile [0xFF]) ≠ [] ∧ Utf8.decodeStrict (replacedFile [0xFF]) = none := by
  decide +kernel

/-- A file with the byte 0xFF where the signed event has the replacement character is
reported valid; its line is not UTF-8. -/
theorem verifyFile_accepts_invalid_utf8 :
    ¬ ∀ (c : EvidenceCollector) (content : Bytes) (report : StreamReport),
      verifyFile .reference c content = .ok report → report.valid = true →
        ∀ raw ∈ Utf8.rawLines content, stripBytes raw ≠ [] →
          StrictlyAccepted .reference c.verifier raw := by
  intro hall
  obtain ⟨report, hreport, hvalid⟩ := eq_ok_of_toOption verifyFile_replaced
  obtain ⟨hlines, hblank, hdecode⟩ := replacedFile_lines
  have hstrict := hall sampleCollector (replacedFile [0xFF]) report hreport hvalid
    (replacedFile [0xFF]) (by rw [hlines]; exact List.mem_singleton_self _) hblank
  have hsome := hstrict.1
  rw [hdecode] at hsome
  exact absurd hsome (by decide)

end FileVerification

end IcsDeception
