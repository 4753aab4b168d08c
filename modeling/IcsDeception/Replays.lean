import IcsDeception.HostileInput

/-!
# Records that come again

The tables of a node keep the last hash of every number and the set of all hashes. A
record whose hash was seen before is called a replay when its number is new, or when
the last record with its number has the same hash. After a fork, a record with a hash
of the other branch is called a duplicate only.
-/

namespace IcsDeception

open Text EventChain Models EvidenceVerifier EvidenceCollector

/-- The records that lines hold, of one node. -/
def nodeRecords (py : Interp) (verifier : EvidenceVerifier) (node : Str) (lines : List Line) :
    List SignedEvent :=
  ofNode node (lines.filterMap fun line =>
    (parseSignedEventJson py verifier.maxRecordBytes true line).toOption)

/-- The last of the records with a number. -/
def lastNumbered (s : Int) (rs : List SignedEvent) : Option SignedEvent :=
  rs.reverse.find? fun e => e.sequence = s

/-- The tables of a tracker hold the given records of its node. -/
structure Remembers (t : NodeTracker) (rs : List SignedEvent) : Prop where
  sequences : ∀ s, t.seenSequences.lookup s = (lastNumbered s rs).map SignedEvent.eventHash
  hashes : ∀ h, h ∈ t.seenHashes ↔ h ∈ rs.map SignedEvent.eventHash
  count : t.seenHashes.length ≤ rs.length

/-! ## One record -/

theorem remembers_start : Remembers .start [] where
  sequences _ := rfl
  hashes := by simp [NodeTracker.start]
  count := le_rfl

theorem lastNumbered_append (s : Int) (rs : List SignedEvent) (e : SignedEvent) :
    lastNumbered s (rs ++ [e]) = if e.sequence = s then some e else lastNumbered s rs := by
  unfold lastNumbered
  rw [List.reverse_append, List.reverse_singleton, List.singleton_append, List.find?_cons]
  by_cases h : e.sequence = s
  · simp [h]
  · simp [h]

theorem mem_of_lastNumbered {s : Int} {rs : List SignedEvent} {p : SignedEvent}
    (h : lastNumbered s rs = some p) : p ∈ rs ∧ p.sequence = s := by
  refine ⟨List.mem_reverse.mp (List.mem_of_find?_eq_some h), ?_⟩
  simpa using List.find?_some h

/-- A record is stored as long as the tables have room. -/
theorem Remembers.note {t : NodeTracker} {rs : List SignedEvent} (ht : Remembers t rs)
    (hroom : rs.length < maxTrackedHashes) (e : SignedEvent) :
    (t.note e).1 = t.seenAlerts e ∧ Remembers (t.note e).2 (rs ++ [e]) := by
  have hcount := ht.count
  have hnote : t.note e = (t.seenAlerts e,
      { t with seenSequences := t.seenSequences.store e.sequence e.eventHash,
               seenHashes := t.seenHashes.insert e.eventHash }) := by
    unfold NodeTracker.note NodeTracker.noteWithin
    rw [if_pos (by omega)]
  rw [hnote]
  refine ⟨rfl, ?_, ?_, ?_⟩
  · intro s
    rw [lastNumbered_append]
    split_ifs with hs
    · rw [← hs, Dict.lookup_store_self]
      rfl
    · rw [Dict.lookup_store_ne _ (Ne.symm hs), ht.sequences]
  · intro h
    rw [List.mem_insert_iff, ht.hashes]
    simp only [List.map_append, List.mem_append, List.map_cons, List.map_nil,
      List.mem_singleton]
    exact or_comm
  · have := length_insert_le e.eventHash t.seenHashes
    rw [List.length_append, List.length_singleton]
    dsimp only
    omega

/-- A hash that was seen before is called a replay unless the last record with the same
number has another hash. -/
theorem Remembers.replayed_iff {t : NodeTracker} {rs : List SignedEvent} (ht : Remembers t rs)
    {e : SignedEvent} (hseen : ∃ f ∈ rs, f.eventHash = e.eventHash) :
    .replayedEvent ∈ t.seenAlerts e ↔
      ∀ p, lastNumbered e.sequence rs = some p → p.eventHash = e.eventHash := by
  have hmem : e.eventHash ∈ t.seenHashes := by
    rw [ht.hashes]
    obtain ⟨f, hf, hfe⟩ := hseen
    exact hfe ▸ List.mem_map_of_mem hf
  unfold NodeTracker.seenAlerts
  rw [ht.sequences]
  cases hl : lastNumbered e.sequence rs with
  | none => simp [hmem]
  | some p =>
      by_cases hp : p.eventHash = e.eventHash
      · simp [hp]
      · simp [hp]

/-- The alerts about the place of a record in its chain. -/
def chainAlerts : List Alert :=
  [.duplicateSequence, .sequenceGap, .chainReset, .previousHashMismatch]

theorem addErrorIf_chainAlerts {r : VerificationResult} {c : Bool} {a b : Alert}
    (hb : b ∈ chainAlerts) (h : a ∈ (r.addErrorIf c b).errors) :
    a ∈ r.errors ∨ a ∈ chainAlerts := by
  rcases mem_addErrorIf.mp h with h | ⟨-, rfl⟩
  · exact .inl h
  · exact .inr hb

theorem checkLink_errors {py : Interp} {e : SignedEvent} {position : ChainPosition}
    {r r' : VerificationResult} (h : checkLink py e position r = .ok r') :
    ∀ a ∈ r'.errors, a ∈ r.errors ∨ a ∈ chainAlerts := by
  intro a ha
  unfold checkLink at h
  split_ifs at h with hfirst
  · obtain ⟨g, -, h⟩ := Json.bind_eq_ok.mp h
    obtain rfl := Except.ok.inj h
    rcases addErrorIf_chainAlerts (by decide) ha with ha | ha
    · exact addErrorIf_chainAlerts (by decide) ha
    · exact .inr ha
  · split at h
    · obtain rfl := Except.ok.inj h
      exact .inl ha
    · obtain rfl := Except.ok.inj h
      exact addErrorIf_chainAlerts (by decide) ha

/-- The check against the cursor of a node adds alerts about the chain only. -/
theorem checkChain_errors {py : Interp} {e : SignedEvent} {position : ChainPosition}
    {r r' : VerificationResult} (h : checkChain py e position r = .ok r') :
    ∀ a ∈ r'.errors, a ∈ r.errors ∨ a ∈ chainAlerts := by
  intro a ha
  unfold checkChain at h
  rcases checkLink_errors h a ha with ha | ha
  · split_ifs at ha
    · exact addErrorIf_chainAlerts (by decide) ha
    · exact addErrorIf_chainAlerts (by decide) ha
  · exact .inr ha

/-- The verdict on one record, and the tables after it. -/
theorem judge_remembers {py : Interp} {c : EvidenceCollector} {line : Line} {e : SignedEvent}
    {t t' : Option NodeTracker} {v : Verdict} {rs : List SignedEvent}
    (hparse : parseSignedEventJson py c.verifier.maxRecordBytes true line = .ok e)
    (ht : Remembers (t.getD .start) rs) (hroom : rs.length < maxTrackedHashes)
    (h : judge py c t line = .ok (t', v)) :
    Remembers (t'.getD .start) (rs ++ [e]) ∧
      (.replayedEvent ∈ v.result.errors ↔ .replayedEvent ∈ (t.getD .start).seenAlerts e) := by
  rw [judge_record hparse] at h
  obtain ⟨r, hr, h⟩ := Json.bind_eq_ok.mp h
  obtain ⟨⟨u, r'⟩, hu, h⟩ := Json.bind_eq_ok.mp h
  obtain ⟨rfl, rfl⟩ := Prod.mk.inj (Except.ok.inj h)
  obtain ⟨hnote, hrem⟩ := ht.note hroom e
  obtain ⟨r₁, h₁, hu⟩ := Json.bind_eq_ok.mp hu
  have hown : .replayedEvent ∉ r.errors := by
    intro hmem
    rcases verifyEvent_errors hr _ hmem with h | h | h <;> revert h <;> decide
  have hchain : .replayedEvent ∉ r₁.errors := by
    intro hmem
    rcases checkChain_errors h₁ _ hmem with h | h
    · exact hown h
    · revert h
      decide
  have herrors : ∀ r', r' = ((t.getD .start).note e).1.foldl VerificationResult.addError r₁ →
      (.replayedEvent ∈ r'.errors ↔ .replayedEvent ∈ (t.getD .start).seenAlerts e) := by
    rintro _ rfl
    rw [mem_foldl_addError, hnote]
    exact or_iff_right hchain
  dsimp only at hu
  split_ifs at hu with hnext
  · obtain ⟨hash, -, hu⟩ := Json.bind_eq_ok.mp hu
    obtain ⟨rfl, rfl⟩ := Prod.mk.inj (Except.ok.inj hu)
    exact ⟨⟨hrem.sequences, hrem.hashes, hrem.count⟩, herrors _ rfl⟩
  · obtain ⟨rfl, rfl⟩ := Prod.mk.inj (Except.ok.inj hu)
    exact ⟨hrem, herrors _ rfl⟩

/-! ## A stream -/

theorem nodeRecords_cons_self {py : Interp} {verifier : EvidenceVerifier} {line : Line}
    {e : SignedEvent} (h : parseSignedEventJson py verifier.maxRecordBytes true line = .ok e)
    (lines : List Line) :
    nodeRecords py verifier e.nodeId (line :: lines) =
      e :: nodeRecords py verifier e.nodeId lines := by
  simp [nodeRecords, ofNode, h, Except.toOption]

theorem nodeRecords_cons_ne {py : Interp} {verifier : EvidenceVerifier} {line : Line}
    {node : Str} (h : nodeOf py verifier line ≠ some node) (lines : List Line) :
    nodeRecords py verifier node (line :: lines) = nodeRecords py verifier node lines := by
  unfold nodeRecords
  cases hp : parseSignedEventJson py verifier.maxRecordBytes true line with
  | error x => simp [hp, Except.toOption]
  | ok e =>
      rw [nodeOf_eq_some hp] at h
      have hne : e.nodeId ≠ node := fun heq => h (heq ▸ rfl)
      simp [hp, Except.toOption, ofNode, hne]

theorem nodeRecords_append (py : Interp) (verifier : EvidenceVerifier) (node : Str)
    (xs ys : List Line) :
    nodeRecords py verifier node (xs ++ ys) =
      nodeRecords py verifier node xs ++ nodeRecords py verifier node ys := by
  simp [nodeRecords, ofNode]

/-- After a stream that fits into the tables, they hold its records. -/
theorem run_remembers {py : Interp} {c : EvidenceCollector} {lines : List Line}
    {s s' : Option Str → Option NodeTracker} {vs : List (Line × Verdict)}
    {pre : Str → List SignedEvent}
    (hs : ∀ node, Remembers ((s (some node)).getD .start) (pre node))
    (hroom : ∀ node, (pre node).length + (nodeRecords py c.verifier node lines).length ≤
      maxTrackedHashes)
    (h : (stream py c).run s lines = .ok (s', vs)) :
    ∀ node, Remembers ((s' (some node)).getD .start)
      (pre node ++ nodeRecords py c.verifier node lines) := by
  induction lines generalizing s vs pre with
  | nil =>
      obtain ⟨rfl, -⟩ := Prod.mk.inj (Except.ok.inj h)
      intro node
      simpa [nodeRecords, ofNode] using hs node
  | cons line rest ih =>
      obtain ⟨t, v, more, hstep, hrun, -⟩ := Keyed.run_cons_eq_ok.mp h
      have hkey : (stream py c).key line = nodeOf py c.verifier line := rfl
      rw [hkey] at hstep hrun
      cases hp : parseSignedEventJson py c.verifier.maxRecordBytes true line with
      | error x =>
          -- a line without a record changes no table
          have hnone : nodeOf py c.verifier line = none := by simp [nodeOf, hp]
          rw [hnone] at hstep hrun
          have hskip : ∀ node, nodeRecords py c.verifier node (line :: rest) =
              nodeRecords py c.verifier node rest := fun node =>
            nodeRecords_cons_ne (by rw [hnone]; exact fun h => by cases h) rest
          intro node
          rw [hskip]
          refine ih (fun n => ?_) (fun n => hskip n ▸ hroom n) hrun node
          rw [Function.update_of_ne (fun h => by cases h)]
          exact hs n
      | ok e =>
          have hnode := nodeOf_eq_some hp
          rw [hnode] at hstep hrun
          have hself := nodeRecords_cons_self hp rest
          have hfits := hroom e.nodeId
          rw [hself, List.length_cons] at hfits
          obtain ⟨hrem, -⟩ := judge_remembers hp (hs e.nodeId) (by omega) hstep
          have hother : ∀ node, node ≠ e.nodeId → nodeRecords py c.verifier node (line :: rest) =
              nodeRecords py c.verifier node rest := fun node hne =>
            nodeRecords_cons_ne (by rw [hnode]; exact fun heq => hne (Option.some.inj heq).symm) rest
          have hrest := @ih _ more (Function.update pre e.nodeId (pre e.nodeId ++ [e]))
            (fun n => by
              by_cases hn : n = e.nodeId
              · subst hn
                simpa using hrem
              · have : some n ≠ some e.nodeId := fun heq => hn (Option.some.inj heq)
                rw [Function.update_of_ne this, Function.update_of_ne hn]
                exact hs n)
            (fun n => by
              by_cases hn : n = e.nodeId
              · subst hn
                rw [Function.update_self, List.length_append, List.length_singleton]
                omega
              · rw [Function.update_of_ne hn, ← hother n hn]
                exact hroom n) hrun
          intro node
          by_cases hn : node = e.nodeId
          · subst hn
            have := hrest e.nodeId
            rwa [Function.update_self, List.append_assoc, List.singleton_append, ← hself] at this
          · have := hrest node
            rwa [Function.update_of_ne hn, ← hother node hn] at this

/-- The report on a stream names an alert for its line number `i`. -/
def ReportedWith (py : Interp) (c : EvidenceCollector) (lines : List Line) (i : Nat) (a : Alert) :
    Prop :=
  ∃ report vs v, verifyStream py c lines = .ok report ∧ verdicts py c lines = .ok vs ∧
    Summarises c report vs ∧ vs[i]? = some v ∧ a ∈ v.2.result.errors

/-- A record whose hash an earlier record of its node has. -/
structure Replay (py : Interp) (verifier : EvidenceVerifier) (before : List Line) (line : Line)
    (e : SignedEvent) : Prop where
  parses : parseSignedEventJson py verifier.maxRecordBytes true line = .ok e
  seen : ∃ f ∈ nodeRecords py verifier e.nodeId before, f.eventHash = e.eventHash

/-- The last record of the same number, if there is one, has the same hash. -/
def Unforked (rs : List SignedEvent) (e : SignedEvent) : Prop :=
  ∀ p, lastNumbered e.sequence rs = some p → p.eventHash = e.eventHash

/-- At most the tracked number of records for every node. -/
def FitsTracking (py : Interp) (verifier : EvidenceVerifier) (lines : List Line) : Prop :=
  ∀ node, (nodeRecords py verifier node (nonBlank lines)).length ≤ maxTrackedHashes

/-- In a stream that gets verdicts, a replay is named unless the chain forked at its number. -/
theorem replay_in_run {py : Interp} {c : EvidenceCollector} {lines before after : List Line}
    {line : Line} {e : SignedEvent} {s : Option Str → Option NodeTracker}
    {vs : List (Line × Verdict)} (hlines : nonBlank lines = before ++ line :: after)
    (hfits : FitsTracking py c.verifier lines) (hreplay : Replay py c.verifier before line e)
    (h : (stream py c).run (fun _ => none) (nonBlank lines) = .ok (s, vs)) :
    ∃ v, vs[before.length]? = some v ∧ (.replayedEvent ∈ v.2.result.errors ↔
      Unforked (nodeRecords py c.verifier e.nodeId before) e) := by
  rw [hlines] at h
  obtain ⟨mid, os, rest, hbefore, hrest, rfl⟩ := Keyed.run_append_eq_ok.mp h
  obtain ⟨t, v, more, hstep, -, rfl⟩ := Keyed.run_cons_eq_ok.mp hrest
  have hroom : ∀ node, (nodeRecords py c.verifier node before).length +
      (nodeRecords py c.verifier node (line :: after)).length ≤ maxTrackedHashes := by
    intro node
    have := hfits node
    rwa [hlines, nodeRecords_append, List.length_append] at this
  have hfresh : ∀ node : Str, Remembers (((fun _ => none : Option Str → Option NodeTracker)
      (some node)).getD .start) ((fun _ => [] : Str → List SignedEvent) node) :=
    fun _ => remembers_start
  have hrem := run_remembers hfresh (fun node => by
    rw [List.length_nil, Nat.zero_add]
    exact (Nat.le_add_right _ _).trans (hroom node)) hbefore e.nodeId
  rw [List.nil_append] at hrem
  have hone := hroom e.nodeId
  rw [nodeRecords_cons_self hreplay.parses, List.length_cons] at hone
  have hkey : (stream py c).key line = some e.nodeId := nodeOf_eq_some hreplay.parses
  rw [hkey] at hstep
  obtain ⟨-, herrors⟩ := judge_remembers hreplay.parses hrem (by omega) hstep
  have hlen : os.length = before.length := by
    rw [← Keyed.run_inputs hbefore, List.length_map]
  refine ⟨(line, v), ?_, ?_⟩
  · rw [← hlen, List.getElem?_append_right (Nat.le_refl _), Nat.sub_self]
    rfl
  · exact herrors.trans (hrem.replayed_iff hreplay.seen)

theorem unforked_of_reported {py : Interp} {c : EvidenceCollector} {lines before after : List Line}
    {line : Line} {e : SignedEvent} (hlines : nonBlank lines = before ++ line :: after)
    (hfits : FitsTracking py c.verifier lines) (hreplay : Replay py c.verifier before line e)
    (h : ReportedWith py c lines before.length .replayedEvent) :
    Unforked (nodeRecords py c.verifier e.nodeId before) e := by
  obtain ⟨report, vs, v, hreport, hverdicts, -, hv, hmem⟩ := h
  obtain ⟨s, vs', hrun, -, -⟩ := run_of_verifyStream hreport
  obtain rfl : vs' = vs := Except.ok.inj ((verdicts_of_run hrun).symm.trans hverdicts)
  obtain ⟨v', hv', hiff⟩ := replay_in_run hlines hfits hreplay hrun
  obtain rfl : v' = v := Option.some.inj (hv'.symm.trans hv)
  exact hiff.mp hmem

/-- A replay is reported as one exactly when every line of the stream can be judged and the
last record with its number has its hash. -/
theorem replay_reported_iff (py : Interp) (hpy : py.FourDigitYears) (c : EvidenceCollector)
    (hreg : c.verifier.registry.DatesRead py) (hb : c.verifier.backend.Total)
    (lines before after : List Line) (line : Line) (e : SignedEvent)
    (hlines : nonBlank lines = before ++ line :: after)
    (hfits : FitsTracking py c.verifier lines) (hreplay : Replay py c.verifier before line e) :
    ReportedWith py c lines before.length .replayedEvent ↔
      (∀ l ∈ nonBlank lines, ¬ Overflows py c.verifier.maxRecordBytes true l) ∧
        Unforked (nodeRecords py c.verifier e.nodeId before) e := by
  have hok := Keyed.run_ok_iff (m := stream py c) (judge_ok_iff hpy hreg hb) (fun _ => none)
    (nonBlank lines)
  constructor
  · intro hrep
    refine ⟨?_, unforked_of_reported hlines hfits hreplay hrep⟩
    obtain ⟨report, _, _, hreport, -⟩ := hrep
    obtain ⟨s, vs, hrun, -, -⟩ := run_of_verifyStream hreport
    exact hok.mp ⟨_, hrun⟩
  · rintro ⟨hno, hfork⟩
    obtain ⟨⟨s, vs⟩, hrun⟩ := hok.mpr hno
    obtain ⟨report, hreport⟩ := verifyStream_of_run hrun
    obtain ⟨s', vs', hrun', hsum, -⟩ := run_of_verifyStream hreport
    obtain ⟨-, rfl⟩ := Prod.mk.inj (Except.ok.inj (hrun.symm.trans hrun'))
    obtain ⟨v, hv, hiff⟩ := replay_in_run hlines hfits hreplay hrun
    exact ⟨report, vs, v, hreport, verdicts_of_run hrun, hsum, hv, hiff.mpr hfork⟩

/-! ## A fork, and a replay of its first branch -/

/-- A first record of node `n` with a hash. -/
def forkRecord (eventHash : Str) : Line :=
  chainRecord (lit "1") chainTime eventHash zeroHash

/-- The hash of the other branch. -/
def otherHash : Str := List.replicate 64 (cp '1')

set_option maxRecDepth 100000 in
theorem parse_forkRecord {h : Str} (hh : h = zeroHash ∨ h = otherHash) :
    ∃ e, parseSignedEventJson .reference sampleCollector.verifier.maxRecordBytes true
      (forkRecord h) = .ok e ∧ (e.nodeId, e.sequence, e.eventHash) = (lit "n", 1, h) := by
  apply eq_ok_of_toOption
  rcases hh with rfl | rfl
  · decide +kernel
  · decide +kernel

theorem nonBlank_fork (hs : List Str) (hh : ∀ h ∈ hs, h = zeroHash ∨ h = otherHash) :
    nonBlank (hs.map forkRecord) = hs.map forkRecord := by
  have hline : ∀ h, h = zeroHash ∨ h = otherHash → stripLine (forkRecord h) = forkRecord h ∧
      lineLength (forkRecord h) ≠ 0 := by
    rintro h (rfl | rfl)
    · exact ⟨by decide +kernel, by decide +kernel⟩
    · exact ⟨by decide +kernel, by decide +kernel⟩
  induction hs with
  | nil => rfl
  | cons h rest ih =>
      obtain ⟨hstrip, hlen⟩ := hline h (hh h (by simp))
      rw [List.map_cons, nonBlank_cons, hstrip, if_neg hlen, ih fun x hx => hh x (by simp [hx])]

theorem fitsTracking_of_short {py : Interp} {verifier : EvidenceVerifier} {lines : List Line}
    (h : (nonBlank lines).length ≤ maxTrackedHashes) : FitsTracking py verifier lines := by
  intro node
  calc
    (nodeRecords py verifier node (nonBlank lines)).length
        ≤ ((nonBlank lines).filterMap fun line =>
            (parseSignedEventJson py verifier.maxRecordBytes true line).toOption).length :=
      List.length_filter_le _ _
    _ ≤ (nonBlank lines).length := List.length_filterMap_le _ _
    _ ≤ maxTrackedHashes := h

/-- After two records with one number, the first again is not called a replay. -/
theorem forked_replay_not_reported : ∃ e,
    nonBlank ([zeroHash, otherHash, zeroHash].map forkRecord) =
      [forkRecord zeroHash, forkRecord otherHash] ++ forkRecord zeroHash :: [] ∧
    FitsTracking .reference sampleCollector.verifier
      ([zeroHash, otherHash, zeroHash].map forkRecord) ∧
    Replay .reference sampleCollector.verifier [forkRecord zeroHash, forkRecord otherHash]
      (forkRecord zeroHash) e ∧
    ¬ ReportedWith .reference sampleCollector ([zeroHash, otherHash, zeroHash].map forkRecord) 2
      .replayedEvent := by
  obtain ⟨a, ha, hfa⟩ := parse_forkRecord (.inl rfl)
  obtain ⟨b, hb, hfb⟩ := parse_forkRecord (.inr rfl)
  simp only [Prod.mk.injEq] at hfa hfb
  have hnode : b.nodeId = a.nodeId := hfb.1.trans hfa.1.symm
  have hrecords : nodeRecords .reference sampleCollector.verifier a.nodeId
      [forkRecord zeroHash, forkRecord otherHash] = [a, b] := by
    rw [nodeRecords_cons_self ha, ← hnode, nodeRecords_cons_self hb]
    rfl
  have hlines := nonBlank_fork [zeroHash, otherHash, zeroHash] (by simp)
  have hfits := @fitsTracking_of_short .reference sampleCollector.verifier
    ([zeroHash, otherHash, zeroHash].map forkRecord)
    (by rw [hlines, List.length_map]; decide)
  have hreplay : Replay .reference sampleCollector.verifier
      [forkRecord zeroHash, forkRecord otherHash] (forkRecord zeroHash) a :=
    ⟨ha, a, by rw [hrecords]; simp, rfl⟩
  refine ⟨a, hlines, hfits, hreplay, fun hrep => ?_⟩
  have hfork := unforked_of_reported hlines hfits hreplay hrep
  rw [hrecords] at hfork
  have hsame := hfork b (by simp [lastNumbered, hfa.2.1, hfb.2.1])
  rw [hfa.2.2, hfb.2.2] at hsame
  revert hsame
  decide

/-- A record that comes twice in a row is reported as a replay. -/
theorem replay_reported_twice : ∃ e,
    Replay .reference sampleCollector.verifier [forkRecord zeroHash] (forkRecord zeroHash) e ∧
      ReportedWith .reference sampleCollector ([zeroHash, zeroHash].map forkRecord) 1
        .replayedEvent := by
  obtain ⟨a, ha, -⟩ := parse_forkRecord (.inl rfl)
  have hrecords : nodeRecords .reference sampleCollector.verifier a.nodeId
      [forkRecord zeroHash] = [a] := nodeRecords_cons_self ha []
  have hlines := nonBlank_fork [zeroHash, zeroHash] (by simp)
  have hreplay : Replay .reference sampleCollector.verifier [forkRecord zeroHash]
      (forkRecord zeroHash) a := ⟨ha, a, by rw [hrecords]; simp, rfl⟩
  refine ⟨a, hreplay, (replay_reported_iff .reference fourDigitYears_reference sampleCollector
    datesRead_sample (fun _ _ _ _ => ⟨_, rfl⟩) _ [forkRecord zeroHash] [] _ a hlines
    (fitsTracking_of_short (by rw [hlines, List.length_map]; decide)) hreplay).mpr ⟨?_, ?_⟩⟩
  · intro l hl
    rw [hlines] at hl
    obtain rfl : l = forkRecord zeroHash := by simpa using hl
    exact (contained_parse_iff _ _ _ _).mp (ha ▸ contained_ok a)
  · intro p hp
    rw [hrecords] at hp
    rw [List.mem_singleton.mp (mem_of_lastNumbered hp).1]

end IcsDeception
