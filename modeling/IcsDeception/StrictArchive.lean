import IcsDeception.ArchiveRoundTrip

/-!
# Strict creation is followed by full verification

Strict creation looks at the failures of the collector, while the verification of an
archive reads flags off the counted alerts and compares a second scan with the manifest.
A record that counts as verified has no alert, so evidence without failures clears every
flag, and the scan of the sealed content is the scan that filled the manifest.
-/

namespace IcsDeception

open Text Json Models EventChain EvidenceVerifier EvidenceCollector

namespace Archive

/-! ## Records that count as verified -/

/-- A valid result has no alerts. -/
def Honest (r : VerificationResult) : Prop := r.valid = true → r.errors = []

theorem honest_addError (r : VerificationResult) (a : Alert) : Honest (r.addError a) := by
  intro h
  rw [addError_valid] at h
  cases h

/-- A line that counts as verified has no alerts. -/
theorem judge_honest {py : Interp} {c : EvidenceCollector} {t t' : Option NodeTracker} {line : Line}
    {v : IcsDeception.Verdict} (h : judge py c t line = .ok (t', v)) (hv : v.accepted = true) :
    v.result.errors = [] := by
  obtain ⟨hparsed, hvalid⟩ := Bool.and_eq_true_iff.mp hv
  unfold judge at h
  split_ifs at h
  · obtain ⟨-, rfl⟩ := Prod.mk.inj (Except.ok.inj h)
    cases hparsed
  · obtain ⟨⟨r, event⟩, hline, h⟩ := bind_eq_ok.mp h
    cases event with
    | none =>
        obtain ⟨-, rfl⟩ := Prod.mk.inj (Except.ok.inj h)
        cases hparsed
    | some e =>
        obtain ⟨⟨tracker, r'⟩, htrack, h⟩ := bind_eq_ok.mp h
        obtain ⟨-, rfl⟩ := Prod.mk.inj (Except.ok.inj h)
        obtain ⟨r₁, hchain, htrack⟩ := bind_eq_ok.mp htrack
        have hr : Honest r' := by
          have hevent := verifyEvent_rule honest_addError (fun _ => rfl) (verifyLine_some hline).2
          have hown := checkChain_rule honest_addError hevent hchain
          dsimp only at htrack
          split_ifs at htrack
          · obtain ⟨hash, -, htrack⟩ := bind_eq_ok.mp htrack
            rw [← (Prod.mk.inj (Except.ok.inj htrack)).2]
            exact foldl_addError_rule honest_addError hown _
          · rw [← (Prod.mk.inj (Except.ok.inj htrack)).2]
            exact foldl_addError_rule honest_addError hown _
        exact hr hvalid

/-- A report without failures is valid and has counted no alert. -/
theorem clear_of_unfailed {py : Interp} {c : EvidenceCollector} {lines : List Line}
    {report : StreamReport} (h : verifyStream py c lines = .ok report)
    (hfailed : report.failed = 0) :
    report.valid = true ∧ ∀ alerts, clearOf alerts report = true := by
  obtain ⟨s, vs, hrun, hsum, -⟩ := run_of_verifyStream h
  have haccepted : ∀ v ∈ vs, v.2.accepted = true := by
    intro v hv
    have hzero : vs.countP (fun v => !v.2.accepted) = 0 := hsum.failed ▸ hfailed
    simpa using List.countP_eq_zero.mp hzero v hv
  refine ⟨hsum.valid.trans (List.all_eq_true.mpr haccepted), fun alerts => ?_⟩
  refine List.all_eq_true.mpr fun a _ => ?_
  have hnone : a ∉ vs.flatMap fun v => v.2.result.errors := by
    intro hmem
    obtain ⟨v, hv, ha⟩ := List.mem_flatMap.mp hmem
    obtain ⟨t, t', hjudge⟩ := Keyed.step_of_mem_run hrun v hv
    rw [judge_honest hjudge (haccepted v hv)] at ha
    cases ha
  rw [hsum.alertCounts a, alertTotal, List.count_eq_zero.mpr hnone]
  rfl

/-! ## The two summaries of one file -/

theorem failIf_failed (t : ArchiveTrust) (c : Bool) : (t.failIf c).failed = (t.failed || c) := by
  cases c <;> simp [ArchiveTrust.failIf, ArchiveTrust.fail]

/-- Evidence that passes strict mode. -/
theorem accepted_of_trustOf {s : Scan} {report : StreamReport}
    (h : (trustOf true s report).failed = false) :
    s.failed = false ∧ 0 < report.total ∧ report.malformed = 0 ∧ report.failed = 0 ∧
      s.nodes.length ≤ 1 := by
  simp only [trustOf, failIf_failed, Bool.true_and, Bool.or_eq_false_iff, decide_eq_false_iff_not,
    ne_eq, not_not, not_lt] at h
  obtain ⟨⟨⟨⟨hscan, htotal⟩, hmalformed⟩, hfailed⟩, hnodes⟩ := h
  exact ⟨hscan, Nat.pos_of_ne_zero htotal, hmalformed, hfailed, hnodes⟩

theorem note_failed (s : Scan) (record : List (Key × Value)) (b : Bool) :
    Scan.note { s with failed := b } record = { s.note record with failed := b } := by
  unfold Scan.note
  dsimp only
  split <;> split <;> split <;> split <;> rfl

theorem scanStep_lenient {py : Interp} {s s' : Scan} {text : Str}
    (h : scanStep py true s text = .ok s') :
    scanStep py false { s with failed := false } text = .ok { s' with failed := false } := by
  unfold scanStep at h ⊢
  dsimp only at h ⊢
  split at h
  · cases h
  · obtain rfl := Except.ok.inj h
    rfl
  · obtain rfl := Except.ok.inj h
    exact congrArg Except.ok (note_failed { s with count := s.count + 1 } _ false)
  · obtain rfl := Except.ok.inj h
    rfl

/-- The lenient scan of a file finds what the strict scan has found. -/
theorem scan_lenient {py : Interp} {lines : List Str} {s s' : Scan}
    (h : lines.foldlM (scanStep py true) s = .ok s') :
    lines.foldlM (scanStep py false) { s with failed := false } =
      .ok { s' with failed := false } := by
  induction lines generalizing s with
  | nil =>
      obtain rfl := Except.ok.inj h
      rfl
  | cons text rest ih =>
      obtain ⟨s₁, hstep, hrest⟩ := bind_eq_ok.mp h
      exact bind_eq_ok.mpr ⟨_, scanStep_lenient hstep, ih hrest⟩

/-- What strict mode finds in a file that it accepts: the records of one node, numbered from
one, and the report and the scan that the verification will find. -/
structure Accepted (py : Interp) (backend : Backend) (registry : KeyRegistry) (content : Bytes)
    (s : Scan) (report : StreamReport) (rs : List SignedEvent) : Prop where
  verifies : verifyStream py (collectorOf registry backend) ((evidenceLines content).map .text) =
    .ok report
  total : 0 < report.total
  malformed : report.malformed = 0
  clear : ∀ alerts, clearOf alerts report = true
  scan : scanEvidence py false content = .ok s
  single : ∃ node, s.nodes = [node]
  range : s.first = some 1 ∧ s.last = some (rs.length : Int)

/-- A file with a report has records if it has lines. -/
theorem records_ne_nil {py : Interp} {c : EvidenceCollector} {lines : List Line}
    {report : StreamReport} {rs : List SignedEvent} (h : verifyStream py c lines = .ok report)
    (hrs : Genuine py c.verifier lines rs) (htotal : 0 < report.total) : rs ≠ [] := by
  rintro rfl
  have hlines : nonBlank lines = [] := List.map_eq_nil_iff.mp hrs.parses
  obtain ⟨s, vs, hrun, hsum, -⟩ := run_of_verifyStream h
  rw [hlines] at hrun
  obtain ⟨-, rfl⟩ := Prod.mk.inj (Except.ok.inj hrun)
  rw [hsum.total] at htotal
  cases htotal

theorem single_node {rs : List SignedEvent} (hne : rs ≠ [])
    (h : (rs.foldl Scan.add .start).nodes.length ≤ 1) :
    ∃ node, (rs.foldl Scan.add .start).nodes = [node] ∧ ∀ e ∈ rs, e.nodeId = node := by
  have hs := scans_foldl rs
  generalize rs.foldl Scan.add .start = s at hs h
  obtain ⟨e, rest, rfl⟩ := List.exists_cons_of_ne_nil hne
  have hmem := (hs.nodes e.nodeId).mpr ⟨e, List.mem_cons_self, rfl⟩
  have hlength : s.nodes.length = 1 := le_antisymm h (List.length_pos_of_mem hmem)
  obtain ⟨node, hnode⟩ := List.length_eq_one_iff.mp hlength
  refine ⟨node, hnode, fun x hx => ?_⟩
  have hx' := (hs.nodes x.nodeId).mpr ⟨x, hx, rfl⟩
  rwa [hnode, List.mem_singleton] at hx'

/-- A summary without failures in strict mode. -/
theorem accepted_of_strict {py : Interp} {backend : Backend} {registry : Option KeyRegistry}
    {content : Bytes} {summary : EvidenceSummary} {trust : ArchiveTrust}
    (h : summariseEvidence py backend registry true content content = .ok (summary, trust))
    (hfailed : trust.failed = false) :
    ∃ reg s report rs, registry = some reg ∧ summary = s.summary ∧
      Accepted py backend reg content s report rs := by
  obtain ⟨⟨⟩, hregistry, h⟩ := bind_eq_ok.mp h
  obtain ⟨s, hscan, h⟩ := bind_eq_ok.mp h
  cases registry with
  | none => cases hregistry
  | some reg =>
      obtain ⟨report, hreport, h⟩ := bind_eq_ok.mp h
      obtain ⟨rfl, rfl⟩ := Prod.mk.inj (Except.ok.inj h)
      have hreport := lift_eq_ok.mp hreport
      obtain ⟨hfine, htotal, hmalformed, hnone, hnodes⟩ := accepted_of_trustOf hfailed
      obtain ⟨hvalid, hclear⟩ := clear_of_unfailed hreport hnone
      obtain ⟨rs, hrs⟩ := genuine_of_valid hreport hvalid
      have hne := records_ne_nil hreport hrs htotal
      have hself : ({ s with failed := false } : Scan) = s := by rw [← hfine]
      have hlenient : scanEvidence py false content = .ok s := by
        have hlenient := scan_lenient hscan
        rw [hself] at hlenient
        exact hlenient
      have hparses := hrs.parses
      rw [nonBlank_evidenceLines, List.map_map] at hparses
      obtain rfl : rs.foldl Scan.add .start = s :=
        Except.ok.inj ((scan_of_parses hparses .start).symm.trans hlenient)
      obtain ⟨node, hnode, hof⟩ := single_node hne hnodes
      have hchain : Chain py node rs := by
        have hself : ofNode node rs = rs :=
          List.filter_eq_self.mpr fun x hx => decide_eq_true (hof x hx)
        exact hself ▸ hrs.chain node
      exact ⟨reg, _, report, rs, rfl, rfl, hreport, htotal, hmalformed, hclear, hlenient,
        ⟨node, hnode⟩, range_foldl hchain hne⟩

/-! ## Verification of the archive -/

/-- The trust in an archive after its decryption. -/
def decryptedTrust : ArchiveTrust :=
  { ArchiveTrust.start with containerAuthenticated := true, plaintextHashVerified := true }

/-- The manifest of an accepted file describes it. -/
theorem Accepted.inspectTrust {py : Interp} {backend : Backend} {registry : KeyRegistry}
    {content : Bytes} {s : Scan} {report : StreamReport} {rs : List SignedEvent}
    (h : Accepted py backend registry content s report rs) {m : ArchiveManifest} {nodeId : Str}
    (hnode : m.nodeId = .str nodeId) (hnodes : s.summary.nodes.head?.all (· = nodeId) = true)
    (hcount : m.eventCount = s.summary.eventCount)
    (hfirst : m.firstSequence = s.summary.firstSequence)
    (hlast : m.lastSequence = s.summary.lastSequence)
    (hfinal : m.chainFinalHash = .str s.summary.chainFinalHash) :
    (Archive.inspectTrust m s.summary (trustOf false s report) decryptedTrust).fullyVerified =
      true := by
  obtain ⟨node, hsingle⟩ := h.single
  have hsorted : s.summary.nodes = [node] := by
    rw [Scan.summary, hsingle]
    rfl
  rw [hsorted] at hnodes
  obtain rfl : node = nodeId := of_decide_eq_true hnodes
  have hdescribes : describes m s.summary = true := by
    simp [describes, hsorted, hnode, hcount, hfirst, hlast, hfinal, isText]
  have hformat : (trustOf false s report).evidenceFormatValid = true := by
    change (decide (report.malformed = 0) && decide (0 < report.total)) = true
    rw [decide_eq_true h.malformed, decide_eq_true h.total, Bool.and_self]
  have hsignatures : (trustOf false s report).evidenceSignaturesVerified = true :=
    h.clear signatureAlerts
  have hchain : (trustOf false s report).evidenceChainVerified = true := h.clear chainAlerts
  simp [Archive.inspectTrust, hdescribes, ArchiveTrust.fullyVerified, decryptedTrust, hformat,
    hsignatures, hchain, hsorted, hnode, isText]

/-- An archive that was created in strict mode, from a file that did not change, is fully
verified. -/
theorem verifyArchive_of_strict {py : Interp} {crypto : ArchiveCrypto} {backend : Backend}
    {registry : Option KeyRegistry} {draws : Draws} {request : Request} {content : Bytes}
    {s : Sealed} {trust : ArchiveTrust} (hstrict : request.requireValidEvidence = true)
    (hcreate : createArchive py crypto backend registry draws request (steadyFile content) =
      .ok (s, trust))
    (hfits : ∀ raw, manifestBytes py s.manifest = .ok raw → raw.length ≤ maxManifestBytes)
    {privateKey : Bytes} (hinv : Inverts crypto draws privateKey) {archive : ArchiveFile}
    (hstores : Stores archive s) {maxArchiveBytes maxPlaintextBytes : Int}
    (harchive : (archive.size : Int) ≤ maxArchiveBytes)
    (hplaintext : (content.length : Int) ≤ maxPlaintextBytes) (hpos : 0 < maxPlaintextBytes) :
    ∃ report, verifyArchive py crypto backend registry archive (some privateKey) maxArchiveBytes
        maxPlaintextBytes = .ok report ∧
      report.structureValid = true ∧ report.trust.fullyVerified = true := by
  obtain ⟨summary, hsummary, haccepted, hnode, hseal⟩ := createArchive_eq_ok hcreate
  rw [hstrict] at hsummary haccepted hnode
  have hfailed : trust.failed = false := by simpa using haccepted
  obtain ⟨reg, scan, report, rs, rfl, rfl, hrs⟩ := accepted_of_strict hsummary hfailed
  obtain ⟨raw, hraw, hdecrypt⟩ :=
    decryptArchive_sealed hseal hinv hstores harchive hplaintext hpos
  obtain ⟨secret, encapsulated, -, hkem, -, hmanifest, -, -, -⟩ := sealEvidence_eq_ok hseal
  have hsequences : ¬(s.manifest.firstSequence < 0 ∨ s.manifest.lastSequence < 0) := by
    have hfirst : s.manifest.firstSequence = 1 := by
      rw [hmanifest, manifestOf, Scan.summary, hrs.range.1]
      rfl
    have hlast : s.manifest.lastSequence = rs.length := by
      rw [hmanifest, manifestOf, Scan.summary, hrs.range.2]
      rfl
    omega
  rw [if_neg (Nat.not_lt.mpr (hfits raw hraw)), if_neg hsequences] at hdecrypt
  obtain ⟨info, hread⟩ := decryptArchive_manifest hdecrypt
  have hevidence : summariseEvidence py backend (some reg) false content content =
      .ok (scan.summary, trustOf false scan report) := by
    refine bind_eq_ok.mpr ⟨(), rfl, bind_eq_ok.mpr ⟨scan, hrs.scan, ?_⟩⟩
    exact bind_eq_ok.mpr ⟨report, lift_eq_ok.mpr hrs.verifies, rfl⟩
  have hback : s.manifest.readBack.nodeId = .str request.nodeId := by
    rw [hmanifest]
    rfl
  have hverified := hrs.inspectTrust hback (by simpa using hnode) (by rw [hmanifest]; rfl)
    (by rw [hmanifest]; rfl) (by rw [hmanifest]; rfl) (by rw [hmanifest]; rfl)
  have hinspect : inspectArchive py crypto backend (some reg) archive privateKey maxArchiveBytes
      maxPlaintextBytes = .ok (inspectTrust s.manifest.readBack scan.summary
        (trustOf false scan report) decryptedTrust) := by
    have hsealed : (steadyFile content).sealed = content := rfl
    simp only [inspectArchive, hdecrypt, hsealed, hevidence]
    rfl
  refine ⟨⟨true, some s.manifest.readBack, _⟩, ?_, rfl, hverified⟩
  rw [verifyArchive, hread]
  exact bind_eq_ok.mpr ⟨_, hinspect, rfl⟩

/-- A strict request for the node of the sample log. -/
def strictRequest : Request := { plainRequest with nodeId := lit "n", requireValidEvidence := true }

set_option maxRecDepth 100000 in
theorem createArchive_strictRequest :
    (createArchive .unrolled keyedCrypto keyBackend (some sampleRegistry) sampleDraws strictRequest
      (steadyFile sampleLog)).toOption.map (fun p => (p.1.manifest.eventCount, within 2000 p.1 &&
        match manifestBytes .unrolled p.1.manifest with
        | .ok raw => raw.length ≤ maxManifestBytes
        | .error _ => true)) = some (2, true) := by
  decide +kernel

/-- The sample log is sealed in strict mode, and its archive is fully verified. -/
theorem verifyArchive_of_strict_log :
    ∃ s trust report, createArchive .unrolled keyedCrypto keyBackend (some sampleRegistry)
        sampleDraws strictRequest (steadyFile sampleLog) = .ok (s, trust) ∧
      verifyArchive .unrolled keyedCrypto keyBackend (some sampleRegistry)
        ⟨2000, some s.entries⟩ (some [9]) 5000 5000 = .ok report ∧
      report.structureValid = true ∧ report.trust.fullyVerified = true := by
  obtain ⟨⟨s, trust⟩, hs, hcheck⟩ := eq_ok_of_toOption createArchive_strictRequest
  obtain ⟨hwithin, hmanifest⟩ := Bool.and_eq_true_iff.mp (Prod.mk.inj hcheck).2
  have hfits : ∀ raw, manifestBytes .unrolled s.manifest = .ok raw →
      raw.length ≤ maxManifestBytes := by
    intro raw hraw
    rw [hraw] at hmanifest
    exact of_decide_eq_true hmanifest
  have harchive : ((2000 : Nat) : Int) ≤ 5000 := by decide
  have hplaintext : (sampleLog.length : Int) ≤ 5000 := by decide +kernel
  obtain ⟨report, hreport, hverified⟩ := verifyArchive_of_strict rfl hs hfits inverts_keyedCrypto
    (stores_of_within hwithin) harchive hplaintext (by decide)
  exact ⟨s, trust, report, hs, hreport, hverified⟩

end Archive

end IcsDeception
