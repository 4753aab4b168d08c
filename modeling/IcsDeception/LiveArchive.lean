import IcsDeception.StrictArchive
import IcsDeception.Lib.Json.Consumed
import IcsDeception.Lib.TextFile

/-!
# Strict archiving of a live log

A creation reads the evidence file three times: for the summary, for the verification and
for the compression. A signer that runs at the same time appends whole records in between.
The sealed content is what was verified, and the manifest describes it, exactly when no
record is appended after the scan has read the end of the file.

## Implementation notes

A file that only grows is read as it stands when a pass meets its end, so an interleaving
is given by the records that are appended before each pass ends.
-/

namespace IcsDeception

open Text Json Models EvidenceCollector

namespace Json

theorem skipWs_object {h : Hooks} {limit : Nat} {w p r : Str} {v : Value}
    (hp : IsObject h limit p v) (hw : ∀ c ∈ w, isWs c = true) : skipWs (w ++ (p ++ r)) = p ++ r := by
  obtain ⟨d, t, rfl⟩ := List.exists_cons_of_ne_nil hp.ne_nil
  obtain rfl : d = cp '\x7b' := Option.some.inj hp.head
  rw [skipWs_append hw, List.cons_append, skipWs_cons (by decide)]

/-- An object with a text behind it is an object only when the text is whitespace. -/
theorem isWs_of_loads_append {limit : Nat} {x y : Str} {a b : List (Key × Value)}
    (hx : loads limit x = .ok (.dict a)) (hxy : loads limit (x ++ y) = .ok (.dict b)) :
    ∀ c ∈ y, isWs c = true := by
  have hplain : ∀ name v, Hooks.default.constant name = .ok v → ∀ kvs, v ≠ .dict kvs := by
    intro name v h kvs hv
    rw [hv] at h
    cases h
  obtain ⟨w, p, w', rfl, hw, -, hp⟩ := loadsWith_dict hplain hx
  obtain ⟨u, q, u', heq, hu, hu', hq⟩ := loadsWith_dict hplain hxy
  have hrest : p ++ (w' ++ y) = q ++ u' := by
    rw [← skipWs_object hp hw, ← skipWs_object hq hu, ← heq]
    simp only [List.append_assoc]
  obtain ⟨rfl, -⟩ := hp.eq_of_prefix hq hrest
  have htail := List.append_cancel_left hrest
  intro c hc
  apply hu'
  rw [← htail]
  exact List.mem_append_right _ hc

end Json

namespace Text

/-- A text without line breaks, and a line feed, behind any text: the last piece goes on. -/
theorem pieces_append_line (a : Str) : ∃ init last, a.splitOnP isBreak = init ++ [last] ∧
    ∀ t b : Str, (∀ c ∈ t, isBreak c = false) →
      (a ++ (t ++ lf :: b)).splitOnP isBreak = init ++ (last ++ t) :: b.splitOnP isBreak := by
  have hjoin : ∀ v t b : Str, (∀ c ∈ v, isBreak c = false) → (∀ c ∈ t, isBreak c = false) →
      (v ++ (t ++ lf :: b)).splitOnP isBreak = (v ++ t) :: b.splitOnP isBreak := by
    intro v t b hv ht
    have hvt : ∀ c ∈ v ++ t, isBreak c = false := by
      intro c hc
      rcases List.mem_append.mp hc with hc | hc
      · exact hv c hc
      · exact ht c hc
    rw [← List.append_assoc, List.splitOnP_append_cons_of_forall_mem hvt lf (by decide)]
  rcases forall_or_last_break a with ha | ⟨u, x, v, rfl, hx, hv⟩
  · exact ⟨[], a, List.splitOnP_eq_singleton ha, fun t b ht => hjoin a t b ha ht⟩
  · refine ⟨u.splitOnP isBreak, v, ?_, fun t b ht => ?_⟩
    · rw [List.splitOnP_append_cons _ _ hx, List.splitOnP_eq_singleton hv]
    · rw [List.append_assoc, List.cons_append, List.splitOnP_append_cons _ _ hx, hjoin v t b hv ht]

theorem strip_ne_nil {s : Str} {c : CodePoint} (hc : c ∈ s) (h : isSpace c = false) :
    strip s ≠ [] := by
  intro hs
  have hdrop := List.rdropWhile_eq_nil_iff.mp hs
  have hall : ∀ x ∈ s, isSpace x = true := by
    rw [← List.dropWhile_eq_nil_iff]
    by_contra hne
    have hhead := List.head_dropWhile_not isSpace hne
    rw [hdrop _ (List.head_mem hne)] at hhead
    cases hhead
  rw [hall c hc] at h
  cases h

/-- A text behind a line that is not blank is not cut off the line. -/
theorem strip_append {s t : Str} (hs : strip s ≠ []) (hne : t ≠ [])
    (ht : ∀ c ∈ t.getLast?, isSpace c = false) : ∃ w, strip (s ++ t) = strip s ++ (w ++ t) := by
  obtain ⟨w, hw⟩ := List.rdropWhile_prefix isSpace (s.dropWhile isSpace)
  have hsplit : s ++ t = s.takeWhile isSpace ++ (strip s ++ (w ++ t)) ++ [] := by
    rw [List.append_nil, ← List.append_assoc (strip s), show strip s ++ w = s.dropWhile isSpace from hw,
      ← List.append_assoc, List.takeWhile_append_dropWhile]
  refine ⟨w, ?_⟩
  rw [hsplit]
  apply stripWith_eq
  · exact fun x hx => List.mem_takeWhile_imp hx
  · simp
  · rw [List.head?_append_of_ne_nil _ hs]
    exact head?_strip
  · rw [List.getLast?_append_of_ne_nil _ (by simp [hne]), List.getLast?_append_of_ne_nil _ hne]
    exact ht
  · simp [hs]

end Text

namespace Archive

/-! ## Lines that are appended -/

theorem evidenceLines_eq (content : Bytes) :
    evidenceLines content = strips ((Utf8.decodeReplace content).splitOnP isBreak) :=
  strips_lines _

/-- The line of a record, as the store appends it. -/
structure RecordLine where
  text : Str
  record : ∃ e : SignedEvent, e.toJsonLine = .ok text

/-- The bytes that the store appends for a record. -/
def RecordLine.bytes (l : RecordLine) : Bytes := Utf8.encodeAll (l.text ++ [lf])

/-- A record line is plain text between two braces. -/
theorem RecordLine.shape (l : RecordLine) :
    (∀ c ∈ l.text, Json.Plain c) ∧ ∃ m, l.text = cp '\x7b' :: (m ++ [cp '\x7d']) := by
  obtain ⟨e, he⟩ := l.record
  obtain ⟨b, hb, he⟩ := bind_eq_ok.mp he
  obtain ⟨henc, t, ht, rfl⟩ := Canonicalizer.canonicalBytes_eq_ok.mp hb
  have hplain := henc.plain ht
  rw [Utf8.decodeStrict_encodeAll (Canonicalizer.scalar_of_plain hplain)] at he
  obtain rfl := Except.ok.inj he
  exact ⟨hplain, dump_dict_ends ht⟩

theorem RecordLine.noBreak (l : RecordLine) : ∀ c ∈ l.text, isBreak c = false := by
  intro c hc
  have hplain := (l.shape.1 c hc).1
  rw [isBreak_eq_false]
  constructor
  · rintro rfl
    exact absurd hplain (by decide)
  · rintro rfl
    exact absurd hplain (by decide)

theorem RecordLine.bytes_eq (l : RecordLine) : ∃ bs, l.bytes = 0x7B :: bs := by
  obtain ⟨-, m, hm⟩ := l.shape
  refine ⟨Utf8.encodeAll (m ++ [cp '\x7d'] ++ [lf]), ?_⟩
  rw [RecordLine.bytes, hm]
  rfl

theorem decodeReplace_append_record (a b : Bytes) (l : RecordLine) :
    Utf8.decodeReplace (a ++ (l.bytes ++ b)) =
      Utf8.decodeReplace a ++ (l.text ++ lf :: Utf8.decodeReplace b) := by
  have hscalar : Scalar (l.text ++ [lf]) :=
    scalar_append.mpr ⟨Canonicalizer.scalar_of_plain l.shape.1, by decide⟩
  -- the brace at the front of the record ends whatever sequence stands before it
  obtain ⟨bs, hbs⟩ := l.bytes_eq
  have hdecode := Utf8.decode_append_ascii a (b := 0x7B) (by decide) (bs ++ b)
  rw [← List.cons_append, ← hbs, RecordLine.bytes, Utf8.decode_encodeAll_append hscalar] at hdecode
  rw [Utf8.decodeReplace, RecordLine.bytes, hdecode]
  simp [Utf8.decodeReplace, Function.comp_def]

/-- A record behind a content goes on with the last line, and is a line itself if that is
blank. -/
theorem evidenceLines_append_record (a b : Bytes) (l : RecordLine) : ∃ init last,
    evidenceLines a = init ++ strips [last] ∧
      evidenceLines (a ++ (l.bytes ++ b)) = init ++ strip (last ++ l.text) :: evidenceLines b := by
  obtain ⟨init, last, hpieces, happend⟩ := pieces_append_line (Utf8.decodeReplace a)
  refine ⟨strips init, last, ?_, ?_⟩
  · rw [evidenceLines_eq, hpieces, strips_append]
  · have hbrace : cp '\x7b' ∈ last ++ l.text := by
      obtain ⟨-, m, hm⟩ := l.shape
      rw [hm]
      simp
    rw [evidenceLines_eq, decodeReplace_append_record, happend _ _ l.noBreak, strips_append,
      strips_cons, if_pos (strip_ne_nil hbrace (by decide)), evidenceLines_eq]
    rfl

/-! ## Files that strict mode accepts -/

theorem scanStep_failed {py : Interp} {s s' : Scan} {text : Str}
    (h : scanStep py true s text = .ok s') (hs' : s'.failed = false) :
    s.failed = false ∧ ∃ record, loads py.jsonLimit text = .ok (.dict record) := by
  unfold scanStep at h
  dsimp only at h
  split at h
  · cases h
  · obtain rfl := Except.ok.inj h
    simp [Scan.unparsable] at hs'
  · next record hl =>
      obtain rfl := Except.ok.inj h
      have hkeep : ({ s with count := s.count + 1 } : Scan).note record =
          { ({ s with count := s.count + 1 } : Scan).note record with failed := s.failed } :=
        note_failed { s with count := s.count + 1 } record s.failed
      rw [hkeep] at hs'
      exact ⟨hs', record, hl⟩
  · obtain rfl := Except.ok.inj h
    simp [Scan.unparsable] at hs'

/-- A strict scan without failures has read objects only. -/
theorem objects_of_scan {py : Interp} {lines : List Str} {s s' : Scan}
    (h : lines.foldlM (scanStep py true) s = .ok s') (hs' : s'.failed = false) :
    s.failed = false ∧ ∀ text ∈ lines, ∃ record, loads py.jsonLimit text = .ok (.dict record) := by
  induction lines generalizing s with
  | nil =>
      obtain rfl := Except.ok.inj h
      exact ⟨hs', by simp⟩
  | cons text rest ih =>
      obtain ⟨s₁, hstep, hrest⟩ := bind_eq_ok.mp h
      obtain ⟨hs₁, hall⟩ := ih hrest
      obtain ⟨hs, hobject⟩ := scanStep_failed hstep hs₁
      exact ⟨hs, List.forall_mem_cons.mpr ⟨hobject, hall⟩⟩

/-- What strict mode finds in the contents that its two passes have read. -/
theorem objects_of_strict {py : Interp} {backend : Backend} {registry : Option KeyRegistry}
    {scanned verified : Bytes} {summary : EvidenceSummary} {trust : ArchiveTrust}
    (h : summariseEvidence py backend registry true scanned verified = .ok (summary, trust))
    (hfailed : trust.failed = false) :
    (∀ text ∈ evidenceLines scanned, ∃ record, loads py.jsonLimit text = .ok (.dict record)) ∧
      ∀ text ∈ evidenceLines verified, ∃ record, loads py.jsonLimit text = .ok (.dict record) := by
  obtain ⟨⟨⟩, hregistry, h⟩ := bind_eq_ok.mp h
  obtain ⟨s, hscan, h⟩ := bind_eq_ok.mp h
  cases registry with
  | none => cases hregistry
  | some reg =>
      obtain ⟨report, hreport, h⟩ := bind_eq_ok.mp h
      obtain ⟨-, rfl⟩ := Prod.mk.inj (Except.ok.inj h)
      have hreport := lift_eq_ok.mp hreport
      obtain ⟨hfine, -, -, hnone, -⟩ := accepted_of_trustOf hfailed
      refine ⟨(objects_of_scan hscan hfine).2, fun text htext => ?_⟩
      obtain ⟨rs, hrs⟩ := genuine_of_valid hreport (clear_of_unfailed hreport hnone).1
      have hparses := hrs.parses
      rw [nonBlank_evidenceLines, List.map_map] at hparses
      have hmem := List.mem_map_of_mem (f := fun t =>
        parseSignedEventJson py maxEvidenceBytes true (.text t)) htext
      obtain ⟨e, -, he⟩ := List.mem_map.mp (hparses ▸ hmem)
      obtain ⟨data, hdata, -⟩ := loads_of_parse he.symm
      exact ⟨data, hdata⟩

/-- Strict mode finds more lines when a record was appended between its two passes. -/
theorem lines_grow {py : Interp} {a b : Bytes} {l : RecordLine}
    (hscanned : ∀ text ∈ evidenceLines a, ∃ record, loads py.jsonLimit text = .ok (.dict record))
    (hverified : ∀ text ∈ evidenceLines (a ++ (l.bytes ++ b)), ∃ record,
      loads py.jsonLimit text = .ok (.dict record)) :
    (evidenceLines a).length < (evidenceLines (a ++ (l.bytes ++ b))).length := by
  obtain ⟨init, last, ha, hab⟩ := evidenceLines_append_record a b l
  rw [ha] at hscanned ⊢
  rw [hab] at hverified ⊢
  have hblank : strip last = [] := by
    -- a line that is not blank would be an object with a record behind it
    by_contra hlast
    obtain ⟨hplain, m, hm⟩ := l.shape
    have hne : l.text ≠ [] := by simp [hm]
    have hend : ∀ c ∈ l.text.getLast?, isSpace c = false := by
      intro c hc
      rw [hm, ← List.cons_append, List.getLast?_concat] at hc
      obtain rfl := Option.some.inj hc
      decide
    obtain ⟨w, hw⟩ := strip_append hlast hne hend
    obtain ⟨x, hx⟩ := hscanned (strip last) (by simp [strips, hlast])
    obtain ⟨y, hy⟩ := hverified (strip (last ++ l.text)) (by simp)
    rw [hw] at hy
    have hbrace := isWs_of_loads_append hx hy (cp '\x7b') (by simp [hm])
    exact absurd hbrace (by decide)
  simp [strips, hblank]

/-! ## A log that grows -/

/-- A log at the start of a creation, and the records that a signer appends before the scan,
the verification and the compression have read the end of the file. -/
structure LiveLog where
  content : Bytes
  scan : List RecordLine
  verification : List RecordLine
  compression : List RecordLine

/-- The bytes of appended records. -/
def appended (ls : List RecordLine) : Bytes := ls.flatMap RecordLine.bytes

/-- What the passes of a creation read of the log. -/
def LiveLog.file (log : LiveLog) : EvidenceFile where
  size := log.content.length
  scanned := log.content ++ appended log.scan
  verified := log.content ++ appended log.scan ++ appended log.verification
  sealed := log.content ++ appended log.scan ++ appended log.verification ++
    appended log.compression

/-- The number of events, the last sequence and the final hash of a manifest are those of a
content. -/
structure DescribesEvents (py : Interp) (m : ArchiveManifest) (content : Bytes) : Prop where
  eventCount : m.eventCount = (evidenceLines content).length
  lastSequence : m.lastSequence =
    (sequencesOf (objectsOf py (evidenceLines content))).max?.getD 0
  chainFinalHash : m.chainFinalHash =
    .str ((hashesOf (objectsOf py (evidenceLines content))).getLast?.getD [])

theorem appended_eq_nil {ls : List RecordLine} : appended ls = [] ↔ ls = [] := by
  constructor
  · intro h
    cases ls with
    | nil => rfl
    | cons l rest =>
        obtain ⟨bs, hbs⟩ := l.bytes_eq
        rw [appended, List.flatMap_cons, hbs] at h
        cases h
  · rintro rfl
    rfl

/-- The manifest of a creation describes what the scan has read. -/
theorem describes_scanned {py : Interp} {crypto : ArchiveCrypto} {backend : Backend}
    {registry : Option KeyRegistry} {draws : Draws} {request : Request} {file : EvidenceFile}
    {s : Sealed} {trust : ArchiveTrust}
    (h : createArchive py crypto backend registry draws request file = .ok (s, trust)) :
    DescribesEvents py s.manifest file.scanned := by
  obtain ⟨summary, hsummary, -, -, hseal⟩ := createArchive_eq_ok h
  obtain ⟨scan, hscan, rfl⟩ := summariseEvidence_eq_ok hsummary
  obtain ⟨hcount, hnotes⟩ := notes_scan hscan
  obtain ⟨secret, encapsulated, -, -, -, hmanifest, -, -, -⟩ := sealEvidence_eq_ok hseal
  rw [hmanifest]
  constructor
  · rw [← hcount]
    rfl
  · rw [← hnotes.last]
    rfl
  · rw [← hnotes.finalHash]
    rfl

/-- In strict mode the sealed content is the verified one, and the manifest describes it,
exactly when nothing is appended after the scan. -/
theorem live_archive_iff {py : Interp} {crypto : ArchiveCrypto} {backend : Backend}
    {registry : Option KeyRegistry} {draws : Draws} {request : Request} {log : LiveLog}
    {s : Sealed} {trust : ArchiveTrust} (hstrict : request.requireValidEvidence = true)
    (hcreate : createArchive py crypto backend registry draws request log.file =
      .ok (s, trust)) :
    (log.file.sealed = log.file.verified ∧ DescribesEvents py s.manifest log.file.sealed) ↔
      log.verification = [] ∧ log.compression = [] := by
  have hdescribes := describes_scanned hcreate
  constructor
  · rintro ⟨hsealed, hevents⟩
    have hcompression : log.compression = [] := by
      rw [← appended_eq_nil]
      exact List.append_right_eq_self.mp hsealed
    refine ⟨?_, hcompression⟩
    obtain ⟨summary, hsummary, haccepted, -, -⟩ := createArchive_eq_ok hcreate
    rw [hstrict] at hsummary haccepted
    have hfailed : trust.failed = false := by simpa using haccepted
    obtain ⟨hscanned, hverified⟩ := objects_of_strict hsummary hfailed
    cases hv : log.verification with
    | nil => rfl
    | cons l rest =>
        have hfile : log.file.verified = log.file.scanned ++ (l.bytes ++ appended rest) := by
          simp [LiveLog.file, hv, appended]
        rw [hfile] at hverified
        have hgrow := lines_grow hscanned hverified
        rw [hsealed, hfile] at hevents
        have hcount := hdescribes.eventCount.symm.trans hevents.eventCount
        omega
  · rintro ⟨hv, hc⟩
    have hsame : log.file.sealed = log.file.verified ∧ log.file.verified = log.file.scanned := by
      simp [LiveLog.file, hv, hc, appended]
    refine ⟨hsame.1, ?_⟩
    rw [hsame.1, hsame.2]
    exact hdescribes

set_option maxRecDepth 100000 in
theorem secondText_record : ∃ e : SignedEvent, e.toJsonLine = .ok secondText := by
  have hline : (parseSignedEventJson .unrolled maxEvidenceBytes true
      (.text secondText)).toOption.bind (fun e => e.toJsonLine.toOption) = some secondText := by
    decide +kernel
  obtain ⟨e, -, he⟩ := Option.bind_eq_some_iff.mp hline
  cases hl : e.toJsonLine with
  | error x =>
      rw [hl] at he
      cases he
  | ok t =>
      rw [hl] at he
      exact ⟨e, Option.some.inj he ▸ hl⟩

/-- The line of the second record, as a running signer appends it. -/
def secondLine : RecordLine := ⟨secondText, secondText_record⟩

/-- A log to which the second record is appended before the scan has read the end. -/
def scannedLog : LiveLog := ⟨firstLine, [secondLine], [], []⟩

/-- A log to which the second record is appended before the compression has read the end. -/
def growingLog : LiveLog := ⟨firstLine, [], [], [secondLine]⟩

/-- The size of the file before the scan matters for its limit only. -/
theorem createArchive_of_size {py : Interp} {crypto : ArchiveCrypto} {backend : Backend}
    {registry : Option KeyRegistry} {draws : Draws} {request : Request} {file : EvidenceFile}
    {size : Nat} (hsize : (size : Int) ≤ request.maxPlaintextBytes)
    (hfile : (file.size : Int) ≤ request.maxPlaintextBytes) :
    createArchive py crypto backend registry draws request { file with size } =
      createArchive py crypto backend registry draws request file := by
  unfold createArchive
  simp only [archiveCheck, hsize, hfile]

/-- A record that is appended before the end of the scan is verified, sealed and described. -/
theorem live_archive_scanned :
    ∃ s trust, createArchive .unrolled keyedCrypto keyBackend (some sampleRegistry) sampleDraws
        strictRequest scannedLog.file = .ok (s, trust) ∧ s.manifest.eventCount = 2 ∧
      scannedLog.file.sealed = scannedLog.file.verified ∧
      DescribesEvents .unrolled s.manifest scannedLog.file.sealed := by
  have hread : firstLine ++ secondLine.bytes = sampleLog := rfl
  have hfile : scannedLog.file = { steadyFile sampleLog with size := firstLine.length } := by
    simp [LiveLog.file, scannedLog, steadyFile, appended, hread]
  have hcreate := createArchive_strictRequest
  rw [← @createArchive_of_size _ _ _ _ _ _ _ firstLine.length (by decide +kernel)
    (by decide +kernel), ← hfile] at hcreate
  obtain ⟨⟨s, trust⟩, hs, hchecked⟩ := eq_ok_of_toOption hcreate
  exact ⟨s, trust, hs, (Prod.mk.inj hchecked).1, (live_archive_iff rfl hs).mpr ⟨rfl, rfl⟩⟩

set_option maxRecDepth 100000 in
/-- A record that was not verified is sealed in strict mode, and the manifest does not count
it. -/
theorem growing_log_sealed_unverified :
    ∃ s trust, createArchive .unrolled keyedCrypto keyBackend (some sampleRegistry) sampleDraws
        strictRequest growingLog.file = .ok (s, trust) ∧
      growingLog.file.sealed ≠ growingLog.file.verified ∧
      ¬ DescribesEvents .unrolled s.manifest growingLog.file.sealed := by
  have hcreate : (createArchive .unrolled keyedCrypto keyBackend (some sampleRegistry)
      sampleDraws strictRequest growingLog.file).toOption.map
        (fun p => decide (p.1.manifest.eventCount = 1)) = some true ∧
      (evidenceLines growingLog.file.sealed).length = 2 := by
    refine ⟨?_, ?_⟩ <;> decide +kernel
  obtain ⟨hcreate, htwo⟩ := hcreate
  obtain ⟨⟨s, trust⟩, hs, hone⟩ := eq_ok_of_toOption hcreate
  refine ⟨s, trust, hs, fun h => ?_, fun h => ?_⟩
  · have hnil : growingLog.compression = [] :=
      appended_eq_nil.mp (List.append_right_eq_self.mp h)
    exact absurd hnil (List.cons_ne_nil _ _)
  · have hcount := h.eventCount
    rw [of_decide_eq_true hone, htwo] at hcount
    cases hcount

end Archive

end IcsDeception
