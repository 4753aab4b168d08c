import IcsDeception.ManifestBinding
import IcsDeception.Verdicts

/-!
# Soundness of a fully verified archive

The report on an archive is made of flags: three of them are read off the alerts that the
collector has counted, and one compares a separate, lenient scan of the file with the
manifest. When all of them are set, every line is a record with a usable key and a valid
signature, the records are one chain, and the manifest describes them.
-/

namespace IcsDeception

open Text Json Models EventChain EvidenceVerifier EvidenceCollector

namespace Archive

/-! ## Alerts of a record -/

section Results

variable {P : VerificationResult → Prop}
  (hadd : ∀ (r : VerificationResult) (a : Alert), P (r.addError a))
include hadd

theorem addErrorIf_rule {r : VerificationResult} (h : P r) (c : Bool) (a : Alert) :
    P (r.addErrorIf c a) := by
  cases c with
  | false => exact h
  | true => exact hadd r a

theorem foldl_addError_rule {r : VerificationResult} (h : P r) (as : List Alert) :
    P (as.foldl VerificationResult.addError r) := by
  induction as generalizing r with
  | nil => exact h
  | cons a rest ih => exact ih (hadd r a)

/-- What holds of a fresh result, and of every result with an added alert, holds after the
checks of a record. -/
theorem verifyEvent_rule {py : Interp} {verifier : EvidenceVerifier} {e : SignedEvent}
    {r : VerificationResult}
    (hfresh : P ⟨true, e.nodeId, e.sequence, e.eventHash, [], e.keyId⟩)
    (h : verifyEvent py verifier e = .ok r) : P r := by
  unfold verifyEvent at h
  obtain ⟨r₁, h₁, h⟩ := bind_eq_ok.mp h
  obtain ⟨r₂, h₂, h₃⟩ := bind_eq_ok.mp h
  obtain ⟨hash, -, rfl⟩ := checkEventHash_eq_ok.mp h₁
  have hhash := addErrorIf_rule hadd hfresh (hash ≠ e.eventHash) .eventHashMismatch
  have hkey : P r₂ := by
    obtain ⟨u, -, h₂⟩ := bind_eq_ok.mp h₂
    split_ifs at h₂
    · exact Except.ok.inj h₂ ▸ hhash
    · exact Except.ok.inj h₂ ▸ foldl_addError_rule hadd hhash _
  unfold checkSignature at h₃
  split at h₃
  · exact Except.ok.inj h₃ ▸ hadd _ _
  · split at h₃
    · exact Except.ok.inj h₃ ▸ hadd _ _
    · obtain ⟨payload, -, h₃⟩ := bind_eq_ok.mp h₃
      split at h₃
      · cases h₃
      · exact Except.ok.inj h₃ ▸ addErrorIf_rule hadd hkey _ _

/-- The same for the checks of the chain. -/
theorem checkChain_rule {py : Interp} {e : SignedEvent} {position : ChainPosition}
    {r r' : VerificationResult} (hr : P r) (h : checkChain py e position r = .ok r') : P r' := by
  have hbefore : P (if e.sequence < position.nextSequence then
      r.addErrorIf (e.sequence ≤ position.lastSequence) .duplicateSequence
    else r.addErrorIf (position.nextSequence < e.sequence) .sequenceGap) := by
    split_ifs
    · exact addErrorIf_rule hadd hr _ _
    · exact addErrorIf_rule hadd hr _ _
  unfold checkChain checkLink at h
  dsimp only at h
  split at h
  · obtain ⟨g, -, h⟩ := bind_eq_ok.mp h
    exact Except.ok.inj h ▸ addErrorIf_rule hadd (addErrorIf_rule hadd hbefore _ _) _ _
  · split at h
    · exact Except.ok.inj h ▸ hbefore
    · exact Except.ok.inj h ▸ addErrorIf_rule hadd hbefore _ _

end Results

/-- A result without alerts is valid. -/
def Truthful (r : VerificationResult) : Prop := r.errors = [] → r.valid = true

theorem truthful_addError (r : VerificationResult) (a : Alert) : Truthful (r.addError a) := by
  intro h
  have : a ∈ (r.addError a).errors := mem_addError.mpr (.inr rfl)
  rw [h] at this
  cases this

theorem truthful_verifyEvent {py : Interp} {verifier : EvidenceVerifier} {e : SignedEvent}
    {r : VerificationResult} (h : verifyEvent py verifier e = .ok r) : Truthful r :=
  verifyEvent_rule truthful_addError (fun _ => rfl) h

/-- The problems of a key do not include unreadable dates when the dates can be read. -/
theorem checkUsable_dates {py : Interp} {reg : KeyRegistry} (hreg : reg.DatesRead py) {k n t t' : Str}
    {a : SignatureAlgorithm} {u : KeyUsability}
    (ht : Canonicalizer.normalizeTimestamp py (.str t) = .ok t')
    (h : reg.checkUsable py k n t a = .ok u) : .malformedEvidence ∉ u.problems := by
  unfold KeyRegistry.checkUsable at h
  cases hg : reg.get k with
  | none =>
      rw [hg] at h
      obtain rfl := Except.ok.inj h
      simp [mem_alertIf]
  | some r =>
      rw [hg] at h
      obtain ⟨problems, hw, h⟩ := bind_eq_ok.mp h
      obtain rfl := Except.ok.inj h
      have hstanding : Alert.malformedEvidence ∉ KeyRegistry.standingProblems r n a := by
        simp [KeyRegistry.standingProblems, mem_alertIf]
      obtain ⟨⟨activated, hact⟩, hexp⟩ := hreg r (List.mem_of_find?_eq_some hg)
      unfold KeyRegistry.windowProblems at hw
      cases hp : KeyRegistry.parseTime py t with
      | error e =>
          rw [hp] at hw
          unfold KeyRegistry.parseTime at hp
          rw [ht] at hp
          dsimp only at hp
          split at hp
          · cases hp
            cases hw
          · cases hp
      | ok now =>
          simp only [hp, hact] at hw
          cases he : r.expiresAt with
          | none =>
              simp only [KeyRegistry.expiryProblems, he] at hw
              obtain rfl := Except.ok.inj hw
              simp [mem_alertIf, hstanding]
          | some x =>
              obtain ⟨expires, hx⟩ := hexp x he
              simp only [KeyRegistry.expiryProblems, he, hx] at hw
              obtain rfl := Except.ok.inj hw
              simp [mem_alertIf, hstanding]

/-- A record is sound when its own checks raise none of the alerts that the report reads. -/
theorem sound_of_clear {py : Interp} {verifier : EvidenceVerifier}
    (hreg : verifier.registry.DatesRead py) {line : Line} {e : SignedEvent}
    {r : VerificationResult}
    (hparse : parseSignedEventJson py verifier.maxRecordBytes true line = .ok e)
    (h : verifyEvent py verifier e = .ok r)
    (hclear : ∀ a ∈ r.errors, a ∉ signatureAlerts ∧ a ∉ chainAlerts) : Sound py verifier e := by
  obtain ⟨raw, text, data, -, -, -, -, -, hc⟩ := parseSignedEventJson_eq_ok.mp hparse
  obtain ⟨u, hu, herrors⟩ := verifyEvent_problems h
  refine (verifyEvent_valid h).mp (truthful_verifyEvent h ?_)
  rw [List.eq_nil_iff_forall_not_mem]
  intro a ha
  obtain ⟨hsig, hchain⟩ := hclear a ha
  rcases herrors a ha with rfl | hp | rfl
  · exact hchain (by decide)
  · have hmalformed := checkUsable_dates hreg hc.timestamp hu
    have hkey := checkUsable_subset hu a hp
    have hne : a ≠ .malformedEvidence := fun hm => hmalformed (hm ▸ hp)
    revert hkey hne hsig
    cases a <;> decide
  · exact hsig (by decide)

theorem checkLink_clear {py : Interp} {e : SignedEvent} {position : ChainPosition}
    {r r' : VerificationResult} (h : checkLink py e position r = .ok r')
    (hclear : ∀ a ∈ r'.errors, a ∉ chainAlerts) :
    (∀ a ∈ r.errors, a ∉ chainAlerts) ∧
      (e.sequence = firstSequence → position.lastSequence ≤ 0 ∧
        genesisPreviousHash py e.nodeId = .ok e.previousEventHash) ∧
      (e.sequence ≠ firstSequence → ∀ h, position.lastEventHash = some h →
        e.previousEventHash = h) := by
  unfold checkLink at h
  split_ifs at h with hfirst
  · obtain ⟨g, hg, h⟩ := bind_eq_ok.mp h
    obtain rfl := Except.ok.inj h
    refine ⟨fun a ha => ?_, fun _ => ⟨?_, ?_⟩, fun hne => absurd hfirst hne⟩
    · exact hclear a (mem_addErrorIf.mpr (.inl (mem_addErrorIf.mpr (.inl ha))))
    · by_contra hpos
      refine hclear .chainReset (mem_addErrorIf.mpr (.inl (mem_addErrorIf.mpr (.inr ⟨?_, rfl⟩))))
        (by decide)
      exact decide_eq_true (Int.not_le.mp hpos)
    · by_contra hne
      refine hclear .previousHashMismatch (mem_addErrorIf.mpr (.inr ⟨?_, rfl⟩)) (by decide)
      refine decide_eq_true fun heq => hne ?_
      rw [hg, heq]
  · cases hl : position.lastEventHash with
    | none =>
        rw [hl] at h
        obtain rfl := Except.ok.inj h
        exact ⟨hclear, fun hf => absurd hf hfirst, fun _ _ hx => by cases hx⟩
    | some last =>
        rw [hl] at h
        obtain rfl := Except.ok.inj h
        refine ⟨fun a ha => hclear a (mem_addErrorIf.mpr (.inl ha)),
          fun hf => absurd hf hfirst, fun _ x hx => ?_⟩
        obtain rfl := Option.some.inj hx
        by_contra hne
        exact hclear .previousHashMismatch (mem_addErrorIf.mpr (.inr ⟨decide_eq_true hne, rfl⟩))
          (by decide)

/-- A record continues its chain when the cursor raises none of the alerts of the chain. -/
theorem continues_of_clear {py : Interp} {e : SignedEvent} {position : ChainPosition}
    {r r' : VerificationResult} (h : checkChain py e position r = .ok r')
    (hclear : ∀ a ∈ r'.errors, a ∉ chainAlerts) :
    (∀ a ∈ r.errors, a ∉ chainAlerts) ∧ Continues py position e := by
  unfold checkChain at h
  obtain ⟨hbefore, hfirst, hlater⟩ := checkLink_clear h hclear
  split_ifs at hbefore with hlt
  · have hle : e.sequence ≤ position.lastSequence := Int.lt_add_one_iff.mp hlt
    exact absurd (by decide) (hbefore .duplicateSequence
      (mem_addErrorIf.mpr (.inr ⟨decide_eq_true hle, rfl⟩)))
  · refine ⟨fun a ha => hbefore a (mem_addErrorIf.mpr (.inl ha)), ?_, hfirst, hlater⟩
    by_contra hne
    have hgap : position.nextSequence < e.sequence := by omega
    exact absurd (by decide) (hbefore .sequenceGap
      (mem_addErrorIf.mpr (.inr ⟨decide_eq_true hgap, rfl⟩)))

theorem checkChain_mono {py : Interp} {e : SignedEvent} {position : ChainPosition}
    {r r' : VerificationResult} (h : checkChain py e position r = .ok r') :
    ∀ a ∈ r.errors, a ∈ r'.errors := by
  intro a ha
  have hbefore : a ∈ (if e.sequence < position.nextSequence then
      r.addErrorIf (e.sequence ≤ position.lastSequence) .duplicateSequence
    else r.addErrorIf (position.nextSequence < e.sequence) .sequenceGap).errors := by
    split_ifs
    · exact mem_addErrorIf.mpr (.inl ha)
    · exact mem_addErrorIf.mpr (.inl ha)
  unfold checkChain checkLink at h
  dsimp only at h
  split at h
  · obtain ⟨g, -, h⟩ := bind_eq_ok.mp h
    obtain rfl := Except.ok.inj h
    exact mem_addErrorIf.mpr (.inl (mem_addErrorIf.mpr (.inl hbefore)))
  · split at h
    · exact Except.ok.inj h ▸ hbefore
    · obtain rfl := Except.ok.inj h
      exact mem_addErrorIf.mpr (.inl hbefore)

/-! ## The run of the collector -/

/-- A verdict on a record that raises none of the alerts that the report reads. -/
structure Clear (v : Verdict) : Prop where
  parsed : v.malformed = false
  alerts : ∀ a ∈ v.result.errors, a ∉ signatureAlerts ∧ a ∉ chainAlerts

/-- A line with a clear verdict holds a sound record that continues the chain of its node. -/
theorem judge_clear {py : Interp} {c : EvidenceCollector} (hreg : c.verifier.registry.DatesRead py)
    {t t' : Option NodeTracker} {line : Line} {v : Verdict}
    (h : judge py c t line = .ok (t', v)) (hv : Clear v) :
    ∃ e, parseSignedEventJson py c.verifier.maxRecordBytes true line = .ok e ∧
      Sound py c.verifier e ∧ Continues py (t.getD .start).position e ∧
      t' = some (acceptRecord (t.getD .start) e) := by
  cases hparse : parseSignedEventJson py c.verifier.maxRecordBytes true line with
  | error x =>
      -- a line that is not parsed is either too long or reported as malformed
      have hmalformed : v.malformed = true := by
        unfold judge at h
        split_ifs at h
        · obtain ⟨-, rfl⟩ := Prod.mk.inj (Except.ok.inj h)
          rfl
        · obtain ⟨⟨r, event⟩, hline, h⟩ := bind_eq_ok.mp h
          cases event with
          | none =>
              obtain ⟨-, rfl⟩ := Prod.mk.inj (Except.ok.inj h)
              rfl
          | some e =>
              rw [(verifyLine_some hline).1] at hparse
              cases hparse
      rw [hv.parsed] at hmalformed
      cases hmalformed
  | ok e =>
      rw [judge_record hparse] at h
      obtain ⟨r, hr, h⟩ := bind_eq_ok.mp h
      obtain ⟨⟨tracker, r'⟩, htrack, h⟩ := bind_eq_ok.mp h
      obtain ⟨rfl, rfl⟩ := Prod.mk.inj (Except.ok.inj h)
      obtain ⟨r₁, hchain, htrack⟩ := bind_eq_ok.mp htrack
      dsimp only at htrack
      have herrors : r'.errors = (((t.getD .start).note e).1.foldl
          VerificationResult.addError r₁).errors := by
        split_ifs at htrack
        · obtain ⟨hash, -, htrack⟩ := bind_eq_ok.mp htrack
          rw [← (Prod.mk.inj (Except.ok.inj htrack)).2]
        · rw [← (Prod.mk.inj (Except.ok.inj htrack)).2]
      have hclear : ∀ a ∈ r₁.errors, a ∉ signatureAlerts ∧ a ∉ chainAlerts := by
        intro a ha
        refine hv.alerts a ?_
        rw [herrors]
        exact mem_foldl_addError.mpr (.inl ha)
      obtain ⟨hown, hcontinues⟩ := continues_of_clear hchain fun a ha => (hclear a ha).2
      have hmono : ∀ a ∈ r.errors, a ∈ r₁.errors := checkChain_mono hchain
      have hsound := sound_of_clear hreg hparse hr fun a ha => hclear a (hmono a ha)
      refine ⟨e, rfl, hsound, hcontinues, congrArg some ?_⟩
      rw [if_pos (by rw [note_position]; exact hcontinues.sequence)] at htrack
      obtain ⟨hash, hhash, htrack⟩ := bind_eq_ok.mp htrack
      obtain rfl := Except.ok.inj (hsound.hash.symm.trans hhash)
      exact (Prod.mk.inj (Except.ok.inj htrack)).1.symm

/-- The trackers of a run, after the given records. -/
def TracksRun (py : Interp) (s : Option Str → Option NodeTracker) (rs : List SignedEvent) : Prop :=
  ∀ node, Tracks py ((s (some node)).getD .start) (ofNode node rs)

theorem TracksRun.accept {py : Interp} {s : Option Str → Option NodeTracker}
    {rs : List SignedEvent} {e : SignedEvent} (h : TracksRun py s rs)
    (hc : Continues py ((s (some e.nodeId)).getD .start).position e) :
    TracksRun py (Function.update s (some e.nodeId)
      (some (acceptRecord ((s (some e.nodeId)).getD .start) e))) (rs ++ [e]) := by
  intro node
  by_cases hn : e.nodeId = node
  · subst hn
    rw [Function.update_self, ofNode_append_self]
    exact (h e.nodeId).accept hc.sequence
  · have hne : some node ≠ some e.nodeId := fun heq => hn (Option.some.inj heq).symm
    rw [Function.update_of_ne hne, ofNode_append_ne hn]
    exact h node

theorem chain_extend {py : Interp} {verifier : EvidenceVerifier}
    {s : Option Str → Option NodeTracker} {rs : List SignedEvent} {e : SignedEvent}
    (ht : TracksRun py s rs) (hs : ∀ x ∈ rs, Sound py verifier x)
    (hc : ∀ node, Chain py node (ofNode node rs))
    (he : Continues py ((s (some e.nodeId)).getD .start).position e) (node : Str) :
    Chain py node (ofNode node (rs ++ [e])) := by
  by_cases hn : e.nodeId = node
  · subst hn
    rw [ofNode_append_self]
    exact (chain_append (hc e.nodeId) (ht e.nodeId)
      (fun x hx => (hs x (mem_of_mem_ofNode hx).1).hash) rfl).mpr he
  · rw [ofNode_append_ne hn]
    exact hc node

/-- A run with clear verdicts reads sound records that are chained for every node. -/
theorem run_clear {py : Interp} {c : EvidenceCollector} (hreg : c.verifier.registry.DatesRead py)
    {lines : List Line} {s s' : Option Str → Option NodeTracker} {vs : List (Line × Verdict)}
    {rs : List SignedEvent} (h : (stream py c).run s lines = .ok (s', vs))
    (hclear : ∀ v ∈ vs, Clear v.2) (ht : TracksRun py s rs)
    (hs : ∀ x ∈ rs, Sound py c.verifier x) (hc : ∀ node, Chain py node (ofNode node rs)) :
    ∃ new, lines.map (parseSignedEventJson py c.verifier.maxRecordBytes true) = new.map .ok ∧
      (∀ x ∈ rs ++ new, Sound py c.verifier x) ∧
      ∀ node, Chain py node (ofNode node (rs ++ new)) := by
  induction lines generalizing s vs rs with
  | nil => exact ⟨[], rfl, by simpa using hs, by simpa using hc⟩
  | cons line rest ih =>
      obtain ⟨t, v, more, hstep, hrun, rfl⟩ := Keyed.run_cons_eq_ok.mp h
      obtain ⟨hv, hmore⟩ := List.forall_mem_cons.mp hclear
      obtain ⟨e, hparse, hsound, hcont, rfl⟩ := judge_clear hreg hstep hv
      have hkey : (stream py c).key line = some e.nodeId := nodeOf_eq_some hparse
      rw [hkey] at hrun hcont
      have hs' : ∀ x ∈ rs ++ [e], Sound py c.verifier x := by
        intro x hx
        rcases List.mem_append.mp hx with hx | hx
        · exact hs x hx
        · exact List.mem_singleton.mp hx ▸ hsound
      obtain ⟨new, hnew, hsnew, hcnew⟩ :=
        ih hrun hmore (ht.accept hcont) hs' (chain_extend ht hs hc hcont)
      rw [List.append_assoc, List.singleton_append] at hsnew
      simp only [List.append_assoc, List.singleton_append] at hcnew
      exact ⟨e :: new, by rw [List.map_cons, List.map_cons, hparse, hnew], hsnew, hcnew⟩

/-- A report that clears the flags of the format, the signatures and the chain. -/
theorem records_of_report {py : Interp} {c : EvidenceCollector}
    (hreg : c.verifier.registry.DatesRead py) {lines : List Line} {report : StreamReport}
    (h : verifyStream py c lines = .ok report) (hformat : report.malformed = 0)
    (hsignatures : clearOf signatureAlerts report = true)
    (hchain : clearOf chainAlerts report = true) :
    ∃ rs, (nonBlank lines).map (parseSignedEventJson py c.verifier.maxRecordBytes true) =
        rs.map .ok ∧
      (∀ e ∈ rs, Sound py c.verifier e) ∧ ∀ node, Chain py node (ofNode node rs) := by
  obtain ⟨s, vs, hrun, hsum, -⟩ := run_of_verifyStream h
  have hcounted : ∀ (alerts : List Alert), clearOf alerts report = true →
      ∀ v ∈ vs, ∀ a ∈ v.2.result.errors, a ∉ alerts := by
    intro alerts hclear v hv a ha hmem
    have hnone : report.alertCounts.lookup a = none :=
      Option.isNone_iff_eq_none.mp (List.all_eq_true.mp hclear a hmem)
    rw [hsum.alertCounts a] at hnone
    have hzero : alertTotal a vs = 0 := by
      by_contra hne
      simp [counter, hne] at hnone
    exact List.count_eq_zero.mp hzero (List.mem_flatMap.mpr ⟨v, hv, ha⟩)
  have hclear : ∀ v ∈ vs, Clear v.2 := by
    intro v hv
    refine ⟨?_, fun a ha => ⟨hcounted _ hsignatures v hv a ha, hcounted _ hchain v hv a ha⟩⟩
    have hzero : vs.countP (fun v => v.2.malformed) = 0 := hsum.malformed ▸ hformat
    simpa using List.countP_eq_zero.mp hzero v hv
  have htracks : TracksRun py (fun _ => none) [] := fun _ => tracks_start py
  obtain ⟨rs, hparse, hsound, hchains⟩ := run_clear hreg hrun hclear htracks (by simp)
    (fun node => chain_nil py node)
  exact ⟨rs, hparse, hsound, hchains⟩

/-! ## The lenient scan -/

theorem strictHooks_refines : strictHooks.Refines Hooks.default where
  constant _ _ h := by simp [strictHooks] at h
  objectPairs pairs v h := by
    simp only [strictHooks] at h
    split_ifs at h
    exact h

/-- The plain reader finds the fields of a record that the strict parser accepts. -/
theorem loads_of_parse {py : Interp} {maxBytes : Nat} {text : Str} {e : SignedEvent}
    (h : parseSignedEventJson py maxBytes true (.text text) = .ok e) :
    ∃ data, loads py.jsonLimit text = .ok (.dict data) ∧ Holds data e := by
  obtain ⟨raw, text', data, hraw, -, htext, hload, hholds, -⟩ := parseSignedEventJson_eq_ok.mp h
  obtain ⟨hscalar, rfl⟩ := Utf8.encode_eq_some.mp hraw
  rw [Utf8.decodeStrict_encodeAll hscalar] at htext
  obtain rfl := Option.some.inj htext
  exact ⟨data, strictHooks_refines.loadsWith hload, hholds⟩

/-- The scan after one more record. -/
def Scan.add (s : Scan) (e : SignedEvent) : Scan :=
  { s with
      first := some (s.first.elim e.sequence fun first => min first e.sequence)
      last := some (s.last.elim e.sequence fun last => max last e.sequence)
      finalHash := e.eventHash
      count := s.count + 1
      nodes := s.nodes.insert e.nodeId
      keys := s.keys.insert e.keyId }

theorem scanStep_of_parse {py : Interp} {maxBytes : Nat} {text : Str} {e : SignedEvent}
    (h : parseSignedEventJson py maxBytes true (.text text) = .ok e) (s : Scan) :
    scanStep py false s text = .ok (s.add e) := by
  obtain ⟨data, hload, hholds⟩ := loads_of_parse h
  have hfield : ∀ p ∈ e.toDict, data.lookup (.str p.1) = some p.2 := hholds.lookup
  have hseq := hfield (lit "sequence", .int e.sequence) (by simp [SignedEvent.toDict])
  have hhash := hfield (lit "event_hash", .str e.eventHash) (by simp [SignedEvent.toDict])
  have hnode := hfield (lit "node_id", .str e.nodeId) (by simp [SignedEvent.toDict])
  have hkey := hfield (lit "key_id", .str e.keyId) (by simp [SignedEvent.toDict])
  unfold scanStep
  simp only [hload, Scan.note, hseq, hhash, hnode, hkey]
  rfl

theorem scan_of_parses {py : Interp} {maxBytes : Nat} {texts : List Str} {rs : List SignedEvent}
    (h : texts.map (fun t => parseSignedEventJson py maxBytes true (.text t)) = rs.map .ok)
    (s : Scan) : texts.foldlM (scanStep py false) s = .ok (rs.foldl Scan.add s) := by
  induction texts generalizing rs s with
  | nil =>
      obtain rfl : rs = [] := by simpa using h.symm
      rfl
  | cons t rest ih =>
      cases rs with
      | nil => simp at h
      | cons e more =>
          obtain ⟨hhead, htail⟩ := List.cons.inj h
          rw [List.foldlM_cons, scanStep_of_parse hhead]
          exact ih htail (s.add e)

/-- What the scan has seen after records that are numbered from one. -/
structure Scans (s : Scan) (rs : List SignedEvent) : Prop where
  count : s.count = rs.length
  nodes : ∀ n, n ∈ s.nodes ↔ ∃ e ∈ rs, e.nodeId = n
  finalHash : ∀ e, rs.getLast? = some e → s.finalHash = e.eventHash

theorem scans_foldl (rs : List SignedEvent) : Scans (rs.foldl Scan.add .start) rs := by
  induction rs using List.reverseRecOn with
  | nil => exact ⟨rfl, by simp [Scan.start], by simp⟩
  | append_singleton rs e ih =>
      rw [List.foldl_append]
      refine ⟨?_, fun n => ?_, fun x hx => ?_⟩
      · simp [Scan.add, ih.count]
      · simp only [List.foldl_cons, List.foldl_nil, Scan.add, List.mem_insert_iff, ih.nodes,
          List.mem_append, List.mem_singleton]
        constructor
        · rintro (rfl | ⟨x, hx, rfl⟩)
          · exact ⟨e, .inr rfl, rfl⟩
          · exact ⟨x, .inl hx, rfl⟩
        · rintro ⟨x, hx | rfl, rfl⟩
          · exact .inr ⟨x, hx, rfl⟩
          · exact .inl rfl
      · rw [List.getLast?_concat] at hx
        obtain rfl := Option.some.inj hx
        rfl

theorem range_foldl {py : Interp} {node : Str} {rs : List SignedEvent} (h : Chain py node rs)
    (hne : rs ≠ []) : (rs.foldl Scan.add .start).first = some 1 ∧
      (rs.foldl Scan.add .start).last = some (rs.length : Int) := by
  induction rs using List.reverseRecOn with
  | nil => exact absurd rfl hne
  | append_singleton rs e ih =>
      have hseq : e.sequence = (rs.length : Int) + 1 := by
        have := h.sequence rs.length (by simp)
        simpa using this
      rw [List.foldl_append]
      cases rs with
      | nil =>
          have hone : e.sequence = 1 := by simpa using hseq
          simp [Scan.add, Scan.start, hone]
      | cons x rest =>
          obtain ⟨hfirst, hlast⟩ := ih (chain_of_append h) (by simp)
          have hlength : ((x :: rest ++ [e]).length : Int) = e.sequence := by
            rw [hseq, List.length_append, List.length_singleton]
            rfl
          have hle : (1 : Int) ≤ e.sequence ∧ ((x :: rest).length : Int) ≤ e.sequence := by omega
          rw [hlength]
          generalize (x :: rest).foldl Scan.add .start = s at hfirst hlast ⊢
          simp only [List.foldl_cons, List.foldl_nil, Scan.add, hfirst, hlast, Option.elim_some,
            min_eq_left hle.1, max_eq_right hle.2, and_self]

/-! ## Archives -/

theorem nonBlank_evidenceLines (content : Bytes) :
    nonBlank ((evidenceLines content).map .text) = (evidenceLines content).map .text := by
  have hstripped : ∀ t ∈ evidenceLines content, strip t = t ∧ t ≠ [] := by
    intro t ht
    obtain ⟨hmem, hne⟩ := List.mem_filter.mp ht
    obtain ⟨raw, -, rfl⟩ := List.mem_map.mp hmem
    exact ⟨strip_strip raw, of_decide_eq_true hne⟩
  unfold nonBlank
  rw [List.map_map, List.filter_map, List.filter_eq_self.mpr]
  · exact List.map_congr_left fun t ht => congrArg Line.text (hstripped t ht).1
  · intro t ht
    simp [stripLine, lineLength, (hstripped t ht).1, (hstripped t ht).2]

/-- What a fully verified archive is. -/
structure FullyVerified (py : Interp) (verifier : EvidenceVerifier) (m : ArchiveManifest)
    (plaintext : Bytes) (rs : List SignedEvent) : Prop where
  nonempty : rs ≠ []
  parses : (evidenceLines plaintext).map
    (fun line => parseSignedEventJson py maxEvidenceBytes true (.text line)) = rs.map .ok
  sound : ∀ e ∈ rs, Sound py verifier e
  chain : ∃ node, m.nodeId = .str node ∧ (∀ e ∈ rs, e.nodeId = node) ∧ Chain py node rs
  eventCount : m.eventCount = rs.length
  firstSequence : m.firstSequence = 1
  lastSequence : m.lastSequence = rs.length
  chainFinalHash : ∀ e, rs.getLast? = some e → m.chainFinalHash = .str e.eventHash

theorem isText_iff {v : Value} {text : Str} : isText v text = true ↔ v = .str text := by
  cases v <;> simp [isText]

theorem sorted_eq_singleton {texts : List Str} {t : Str} (h : sorted texts = [t]) : texts = [t] := by
  have hperm : [t].Perm texts := h ▸ List.perm_insertionSort _ texts
  exact List.perm_singleton.mp hperm.symm

/-- What the flags of a fully verified archive say of the report and the summary. -/
theorem flags_of_fullyVerified {m : ArchiveManifest} {s : Scan} {report : StreamReport}
    {trust : ArchiveTrust}
    (h : (inspectTrust m s.summary (trustOf false s report) trust).fullyVerified = true) :
    ((s.summary.eventCount : Int) = m.eventCount ∧ s.summary.firstSequence = m.firstSequence ∧
        s.summary.lastSequence = m.lastSequence ∧
        m.chainFinalHash = .str s.summary.chainFinalHash) ∧
      (report.malformed = 0 ∧ 0 < report.total) ∧ clearOf signatureAlerts report = true ∧
      clearOf chainAlerts report = true ∧ s.summary.nodes.length = 1 ∧
      s.summary.nodes.all (isText m.nodeId) = true := by
  unfold inspectTrust at h
  dsimp only at h
  split_ifs at h with hd
  · have hflags : (trustOf false s report).evidenceFormatValid =
          (decide (report.malformed = 0) && decide (0 < report.total)) ∧
        (trustOf false s report).evidenceSignaturesVerified = clearOf signatureAlerts report ∧
        (trustOf false s report).evidenceChainVerified = clearOf chainAlerts report :=
      ⟨rfl, rfl, rfl⟩
    simp only [ArchiveTrust.fullyVerified, hflags, Bool.and_eq_true, decide_eq_true_eq] at h
    obtain ⟨⟨⟨⟨-, hformat⟩, hsignatures⟩, hchains⟩, hnodes⟩ := h
    simp only [describes, Bool.and_eq_true, decide_eq_true_eq, isText_iff] at hd
    exact ⟨⟨hd.1.1.1.2, hd.1.1.2, hd.1.2, hd.2⟩, hformat, hsignatures, hchains, hnodes⟩
  · simp [ArchiveTrust.fullyVerified] at h

/-- The flags of the evidence, with a manifest that describes it. -/
theorem fullyVerified_of_flags {py : Interp} {backend : Backend} {registry : KeyRegistry}
    (hreg : registry.DatesRead py) {m : ArchiveManifest} {plaintext : Bytes}
    {summary : EvidenceSummary} {found trust : ArchiveTrust}
    (h : summariseEvidence py backend (some registry) false plaintext plaintext =
      .ok (summary, found))
    (hv : (inspectTrust m summary found trust).fullyVerified = true) :
    ∃ rs, FullyVerified py (collectorOf registry backend).verifier m plaintext rs := by
  obtain ⟨⟨⟩, -, h⟩ := bind_eq_ok.mp h
  obtain ⟨s, hscan, h⟩ := bind_eq_ok.mp h
  obtain ⟨report, hreport, h⟩ := bind_eq_ok.mp h
  obtain ⟨rfl, rfl⟩ := Prod.mk.inj (Except.ok.inj h)
  obtain ⟨hdescribes, ⟨hmalformed, -⟩, hsignatures, hchains, hone, hall⟩ := flags_of_fullyVerified hv
  obtain ⟨rs, hparse, hsound, hchain⟩ :=
    records_of_report (c := collectorOf registry backend) hreg (lift_eq_ok.mp hreport) hmalformed hsignatures hchains
  rw [nonBlank_evidenceLines, List.map_map] at hparse
  obtain rfl : rs.foldl Scan.add .start = s :=
    Except.ok.inj ((scan_of_parses hparse .start).symm.trans hscan)
  have hs := scans_foldl rs
  generalize hscanned : rs.foldl Scan.add .start = s at hdescribes hone hall hs
  -- the scan has seen one node, which is the node of the manifest
  obtain ⟨node, hnode⟩ := List.length_eq_one_iff.mp hone
  have hnodes : s.nodes = [node] := sorted_eq_singleton hnode
  have hmanifest : m.nodeId = .str node :=
    isText_iff.mp (List.all_eq_true.mp hall node (by rw [hnode]; exact List.mem_singleton_self node))
  have hof : ∀ e ∈ rs, e.nodeId = node := by
    intro e he
    have hmem := (hs.nodes e.nodeId).mpr ⟨e, he, rfl⟩
    rwa [hnodes, List.mem_singleton] at hmem
  obtain ⟨e, he, -⟩ := (hs.nodes node).mp (by rw [hnodes]; exact List.mem_singleton_self node)
  have hne : rs ≠ [] := List.ne_nil_of_mem he
  have hchain' : Chain py node rs := by
    have hself : ofNode node rs = rs :=
      List.filter_eq_self.mpr fun x hx => decide_eq_true (hof x hx)
    exact hself ▸ hchain node
  obtain ⟨hfirst, hlast⟩ := range_foldl hchain' hne
  rw [hscanned] at hfirst hlast
  obtain ⟨hcount, hlow, hhigh, hfinal⟩ := hdescribes
  refine ⟨rs, {
    nonempty := hne
    parses := hparse
    sound := hsound
    chain := ⟨node, hmanifest, hof, hchain'⟩
    eventCount := by rw [← hcount, Scan.summary, hs.count]
    firstSequence := by rw [← hlow, Scan.summary, hfirst]; rfl
    lastSequence := by rw [← hhigh, Scan.summary, hlast]; rfl
    chainFinalHash := fun x hx => by rw [hfinal, Scan.summary, hs.finalHash x hx] }⟩

/-- An archive is decrypted under the manifest that its structure was checked with. -/
theorem decryptArchive_manifest {py : Interp} {crypto : ArchiveCrypto} {file : ArchiveFile}
    {privateKey plaintext : Bytes} {a p : Int} {m : ArchiveManifest}
    (h : decryptArchive py crypto file privateKey a p = .ok (m, plaintext)) :
    ∃ info, file.open.bind (readManifestAndOpenCiphertext py · a) = .ok (m, info) := by
  unfold decryptArchive at h
  split at h
  · cases h
  · obtain ⟨⟨m', compressed⟩, hopen, h⟩ := bind_eq_ok.mp h
    obtain ⟨plaintext', -, h⟩ := bind_eq_ok.mp h
    obtain ⟨⟨⟩, -, h⟩ := bind_eq_ok.mp h
    obtain ⟨rfl, -⟩ := Prod.mk.inj (Except.ok.inj h)
    obtain ⟨⟨⟩, -, hopen⟩ := bind_eq_ok.mp hopen
    obtain ⟨⟨⟩, -, hopen⟩ := bind_eq_ok.mp hopen
    obtain ⟨⟨⟩, -, hopen⟩ := bind_eq_ok.mp hopen
    obtain ⟨entries, hentries, hopen⟩ := bind_eq_ok.mp hopen
    obtain ⟨⟨m'', info⟩, hread, hopen⟩ := bind_eq_ok.mp hopen
    obtain ⟨⟨aesKey, nonce⟩, -, hopen⟩ := bind_eq_ok.mp hopen
    obtain ⟨compressed', -, hopen⟩ := bind_eq_ok.mp hopen
    obtain ⟨rfl, -⟩ := Prod.mk.inj (Except.ok.inj hopen)
    exact ⟨info, bind_eq_ok.mpr ⟨entries, hentries, hread⟩⟩

/-- A report that is fully verified comes from a decrypted file. -/
theorem inspectArchive_verified {py : Interp} {crypto : ArchiveCrypto} {backend : Backend}
    {registry : KeyRegistry} {file : ArchiveFile} {privateKey : Bytes} {a p : Int}
    {trust : ArchiveTrust}
    (h : inspectArchive py crypto backend (some registry) file privateKey a p = .ok trust)
    (hv : trust.fullyVerified = true) :
    ∃ m plaintext summary found start,
      decryptArchive py crypto file privateKey a p = .ok (m, plaintext) ∧
      summariseEvidence py backend (some registry) false plaintext plaintext =
        .ok (summary, found) ∧
      trust = inspectTrust m summary found start := by
  unfold inspectArchive at h
  split at h
  · obtain rfl := Except.ok.inj h
    cases hv
  · cases h
  · next m plaintext hdec =>
      dsimp only at h
      split at h
      · obtain rfl := Except.ok.inj h
        cases hv
      · cases h
      · next summary found hsum =>
          exact ⟨m, plaintext, summary, found, _, hdec, hsum, (Except.ok.inj h).symm⟩

/-- A fully verified archive holds nothing but a chain of sound records of the manifest's
node, as the manifest describes it. -/
theorem verifyArchive_sound {py : Interp} {crypto : ArchiveCrypto} {backend : Backend}
    {registry : KeyRegistry} (hreg : KeyRegistry.Built py registry) {file : ArchiveFile}
    {privateKey : Bytes} {maxArchiveBytes maxPlaintextBytes : Int} {report : ArchiveReport}
    (h : verifyArchive py crypto backend (some registry) file (some privateKey) maxArchiveBytes
      maxPlaintextBytes = .ok report)
    (hv : report.trust.fullyVerified = true) :
    ∃ m plaintext rs, report.manifest = some m ∧
      decryptArchive py crypto file privateKey maxArchiveBytes maxPlaintextBytes =
        .ok (m, plaintext) ∧
      FullyVerified py (collectorOf registry backend).verifier m plaintext rs := by
  unfold verifyArchive at h
  split at h
  · obtain rfl := Except.ok.inj h
    cases hv
  · obtain rfl := Except.ok.inj h
    cases hv
  · obtain rfl := Except.ok.inj h
    cases hv
  · cases h
  · next m₀ info₀ hread =>
      obtain ⟨trust, htrust, h⟩ := bind_eq_ok.mp h
      obtain rfl := Except.ok.inj h
      obtain ⟨m, plaintext, summary, found, start, hdec, hsum, rfl⟩ :=
        inspectArchive_verified htrust hv
      obtain ⟨info, hmanifest⟩ := decryptArchive_manifest hdec
      obtain ⟨rfl, -⟩ := Prod.mk.inj (Except.ok.inj (hread.symm.trans hmanifest))
      obtain ⟨rs, hrs⟩ := fullyVerified_of_flags hreg.datesRead hsum hv
      exact ⟨m₀, plaintext, rs, rfl, hdec, hrs⟩

/-! ## A verified archive -/

/-- The tag of the sample cipher: what the key begins with. -/
def keyTag (key : Bytes) : Bytes := (key ++ List.replicate gcmTagBytes 0).take gcmTagBytes

/-- A cipher that opens what was sealed under the same key. -/
def keyedCrypto : ArchiveCrypto :=
  { sampleCipher with
    encrypt := fun key _ _ data => (data, keyTag key)
    decrypt := fun key _ _ body tag => if tag = keyTag key then some body else none }

/-- A backend for which the signature of a key is the key itself. -/
def keyBackend : Backend := ⟨fun key _ signature _ => .ok (signature == key)⟩

/-- The registry of the sample key. -/
def sampleRegistry : KeyRegistry :=
  (KeyRegistry.empty.register .unrolled .first (lit "k") (lit "n")
    (Utf8.encodeAll (lit "pk")) (lit "ML-DSA-65") (some keyTime) none
    true).2

/-- The first record of the chain of node `n`. -/
def firstText : Str :=
  recordText (lit "k") (lit "n") (lit "cGs=") (lit "1") chainTime (chainHash 0) chainGenesis

/-- The second record of the chain of node `n`. -/
def secondText : Str :=
  recordText (lit "k") (lit "n") (lit "cGs=") (lit "2") chainTime (chainHash 1) (chainHash 0)

/-- The line of the first record. -/
def firstLine : Bytes := Utf8.encodeAll (firstText ++ [lf])

/-- A log of the two records. -/
def sampleLog : Bytes := firstLine ++ Utf8.encodeAll (secondText ++ [lf])

/-- An archive of the log under the node and the key of its records. -/
def sampleLogArchive : ArchiveFile :=
  let sealing := createArchive .unrolled keyedCrypto keyBackend none sampleDraws
    { sampleRequest with nodeId := lit "n", keyId := lit "k" }
    ⟨sampleLog.length, sampleLog, sampleLog, sampleLog⟩
  ⟨2000, sealing.toOption.map fun p => p.1.entries⟩

/-- What the log says of itself. -/
def sampleSummary : EvidenceSummary := ⟨1, 2, 2, chainHash 1, [lit "n"], [lit "k"]⟩

set_option maxRecDepth 100000 in
theorem summariseEvidence_sampleLog :
    (summariseEvidence .unrolled keyBackend (some sampleRegistry) false sampleLog
      sampleLog).toOption.map id =
        some (sampleSummary, ⟨false, false, true, true, true, true, false⟩) := by
  decide +kernel

set_option maxRecDepth 100000 in
theorem decryptArchive_sampleLog :
    (decryptArchive .unrolled keyedCrypto sampleLogArchive [9] 5000 5000).toOption.map (fun p =>
      (p.2, isText p.1.keyId (lit "k"), isText p.1.nodeId (lit "n"), p.1.eventCount,
        describes p.1 sampleSummary)) = some (sampleLog, true, true, 2, true) := by
  decide +kernel

theorem verifyArchive_sampleLog :
    (verifyArchive .unrolled keyedCrypto keyBackend (some sampleRegistry) sampleLogArchive
      (some [9]) 5000 5000).toOption.map (fun r =>
        (r.trust.fullyVerified && r.trust.nodeIdentityVerified,
          r.manifest.map ArchiveManifest.eventCount)) = some (true, some 2) ∧
    (decryptArchive .unrolled keyedCrypto sampleLogArchive [9] 5000 5000).toOption.map
      (fun p => (isText p.1.keyId (lit "k"), decide (p.2 = sampleLog))) = some (true, true) := by
  obtain ⟨⟨m, plaintext⟩, hdec, hm⟩ := eq_ok_of_toOption decryptArchive_sampleLog
  simp only [Prod.mk.injEq] at hm
  obtain ⟨rfl, hkey, hnode, hcount, hdescribes⟩ := hm
  obtain ⟨info, hread⟩ := decryptArchive_manifest hdec
  obtain ⟨_, hsum, rfl⟩ := eq_ok_of_toOption summariseEvidence_sampleLog
  have hnames : sampleSummary.nodes = [lit "n"] := rfl
  have hinspect : inspectArchive .unrolled keyedCrypto keyBackend (some sampleRegistry)
      sampleLogArchive [9] 5000 5000 = .ok ⟨true, true, true, true, true, true, false⟩ := by
    simp [inspectArchive, hdec, hsum, inspectTrust, hdescribes, hnames, hnode,
      ArchiveTrust.start, pure, Except.pure]
  have hverify : verifyArchive .unrolled keyedCrypto keyBackend (some sampleRegistry)
      sampleLogArchive (some [9]) 5000 5000 =
        .ok ⟨true, some m, ⟨true, true, true, true, true, true, false⟩⟩ := by
    rw [verifyArchive, hread]
    exact bind_eq_ok.mpr ⟨_, hinspect, rfl⟩
  rw [hverify, hdec]
  exact ⟨congrArg (fun n => some (true, some n)) hcount, by simp [Except.toOption, hkey]⟩

/-- The archive of the log is fully verified, with both of its records. -/
theorem verifyArchive_sound_sample :
    KeyRegistry.Built .unrolled sampleRegistry ∧
      ∃ report m plaintext rs, verifyArchive .unrolled keyedCrypto keyBackend
          (some sampleRegistry) sampleLogArchive (some [9]) 5000 5000 = .ok report ∧
        report.manifest = some m ∧
        decryptArchive .unrolled keyedCrypto sampleLogArchive [9] 5000 5000 =
          .ok (m, plaintext) ∧ rs.length = 2 ∧
        FullyVerified .unrolled (collectorOf sampleRegistry keyBackend).verifier m plaintext
          rs := by
  have hbuilt : KeyRegistry.Built .unrolled sampleRegistry :=
    .register _ _ _ _ _ _ _ _ .empty
  obtain ⟨report, hreport, hflags⟩ := eq_ok_of_toOption verifyArchive_sampleLog.1
  obtain ⟨hverified, hcount⟩ := Prod.mk.inj hflags
  obtain ⟨m, plaintext, rs, hmanifest, hdec, hrs⟩ :=
    verifyArchive_sound hbuilt hreport (Bool.and_eq_true_iff.mp hverified).1
  have hlength : rs.length = 2 := by
    rw [hmanifest] at hcount
    have := hrs.eventCount.symm.trans (Option.some.inj hcount)
    exact_mod_cast this
  exact ⟨hbuilt, report, m, plaintext, rs, hreport, hmanifest, hdec, hlength, hrs⟩

end Archive

end IcsDeception
