import IcsDeception.Lib.Keyed
import IcsDeception.StreamSpec

/-!
# The verdict on every line

The loop of the collector as a process with one tracker for every node: what it says
of a line depends on the earlier records of the same node. The report is a summary of
these verdicts.
-/

namespace IcsDeception

open Text EventChain Models EvidenceVerifier EvidenceCollector

/-- What the collector says of a line, and whether the line held a record. -/
structure Verdict where
  result : VerificationResult
  malformed : Bool

/-- A line that counts as verified. -/
def Verdict.accepted (v : Verdict) : Bool := !v.malformed && v.result.valid

/-- The node whose record a line holds. -/
def nodeOf (py : Interp) (verifier : EvidenceVerifier) (line : Line) : Option Str :=
  match parseSignedEventJson py verifier.maxRecordBytes true line with
  | .ok e => some e.nodeId
  | .error _ => none

/-- The tracker of a node after one of its records, and the verdict on the record. -/
def trackOne (py : Interp) (tracker : NodeTracker) (event : SignedEvent)
    (result : VerificationResult) : Except Exn (NodeTracker × VerificationResult) := do
  let result ← checkChain py event tracker.position result
  let alerts := (tracker.note event).1
  let result := alerts.foldl VerificationResult.addError result
  let tracker := (tracker.note event).2
  if event.sequence = tracker.position.nextSequence then
    let hash ← computeEventHash py event
    return ({ tracker with position := ChainPosition.advance event hash }, result)
  else return (tracker, result)

/-- The verdict on a line that is not blank, after the tracker of its node. -/
def judge (py : Interp) (c : EvidenceCollector) (tracker : Option NodeTracker) (line : Line) :
    Except Exn (Option NodeTracker × Verdict) :=
  if c.verifier.maxRecordBytes < lineLength line then
    .ok (tracker, ⟨VerificationResult.unparsed.addError .oversizedEvidence, true⟩)
  else do
    let (result, event) ← verifyLine py c.verifier line
    match event with
    | none => return (tracker, ⟨result, true⟩)
    | some event =>
        let (tracker, result) ← trackOne py (tracker.getD NodeTracker.start) event result
        return (some tracker, ⟨result, false⟩)

/-- The collector as a process of lines keyed by their node. -/
def stream (py : Interp) (c : EvidenceCollector) :
    Keyed (Option Str) Line (Option NodeTracker) Verdict Exn where
  key := nodeOf py c.verifier
  step := judge py c

/-- Every line that is not blank, with the verdict on it. -/
def verdicts (py : Interp) (c : EvidenceCollector) (lines : List Line) :
    Except Exn (List (Line × Verdict)) := do
  let (_, vs) ← (stream py c).run (fun _ => none) (nonBlank lines)
  return vs

/-- The report after one more verdict. -/
def tally (c : EvidenceCollector) (report : StreamReport) (v : Line × Verdict) : StreamReport :=
  let report := { report with total := report.total + 1 }
  if v.2.malformed then countMalformed c report v.2.result else countResult c report v.2.result

/-! ## The loop gives the verdicts -/

theorem trackRecord_eq (py : Interp) (trackers : Dict Str NodeTracker) (e : SignedEvent)
    (r : VerificationResult) :
    trackRecord py trackers e r =
      (trackOne py (trackerOf trackers e.nodeId) e r).map fun p =>
        (trackers.store e.nodeId p.1, p.2) := by
  unfold trackRecord trackRecordWithin trackOne
  simp only [← NodeTracker.noteWithin_max]
  cases checkChain py e (trackerOf trackers e.nodeId).position r with
  | error x => rfl
  | ok r₁ =>
      by_cases hs : e.sequence = ((trackerOf trackers e.nodeId).noteWithin maxTrackedHashes
          e).2.position.nextSequence
      · simp only [bind, Except.bind, hs, if_true]
        cases computeEventHash py e <;> rfl
      · simp only [bind, Except.bind, hs, if_false]
        rfl

/-- The trackers as the states of the process. -/
def states (trackers : Dict Str NodeTracker) : Option Str → Option NodeTracker
  | none => none
  | some node => trackers.lookup node

theorem states_nil : states [] = fun _ => none := by
  funext k
  cases k <;> rfl

theorem states_store (trackers : Dict Str NodeTracker) (node : Str) (t : NodeTracker) :
    states (trackers.store node t) = Function.update (states trackers) (some node) (some t) := by
  funext k
  cases k with
  | none => simp [states]
  | some n =>
      by_cases hn : n = node
      · subst hn
        simp [states, Dict.lookup_store_self]
      · have : some n ≠ some node := fun h => hn (Option.some.inj h)
        rw [Function.update_of_ne this]
        exact Dict.lookup_store_ne trackers hn t

/-- The trackers after the state of a key. -/
def withState (trackers : Dict Str NodeTracker) : Option Str → Option NodeTracker →
    Dict Str NodeTracker
  | some node, some t => trackers.store node t
  | _, _ => trackers

/-- A line that is too long in characters is too long in bytes. -/
theorem nodeOf_of_long {py : Interp} {verifier : EvidenceVerifier} {line : Line}
    (h : verifier.maxRecordBytes < lineLength line) : nodeOf py verifier line = none := by
  unfold nodeOf
  split
  · rename_i e he
    obtain ⟨raw, -, -, hraw, hlen, -⟩ := parseSignedEventJson_eq_ok.mp he
    have := lineLength_le_raw hraw
    omega
  · rfl

theorem nodeOf_eq_some {py : Interp} {verifier : EvidenceVerifier} {line : Line} {e : SignedEvent}
    (h : parseSignedEventJson py verifier.maxRecordBytes true line = .ok e) :
    nodeOf py verifier line = some e.nodeId := by
  simp [nodeOf, h]

theorem nodeOf_of_unparsed {py : Interp} {verifier : EvidenceVerifier} {line : Line}
    {r : VerificationResult} (h : verifyLine py verifier line = .ok (r, none)) :
    nodeOf py verifier line = none := by
  unfold verifyLine at h
  unfold nodeOf
  split at h
  · rename_i reason hp
    rw [hp]
  · cases h
  · obtain ⟨result, -, h⟩ := Json.bind_eq_ok.mp h
    cases h

/-- One line of the loop: nothing for a blank line, else its verdict is counted. -/
theorem verifyStep_eq (py : Interp) (c : EvidenceCollector) (st : StreamState) (raw : Line) :
    verifyStep py c st raw =
      if lineLength (stripLine raw) = 0 then .ok st
      else
        match (stream py c).step (states st.1 ((stream py c).key (stripLine raw)))
            (stripLine raw) with
        | .error x => .error x
        | .ok (t, v) =>
            .ok (withState st.1 (nodeOf py c.verifier (stripLine raw)) t,
              tally c st.2 (stripLine raw, v)) := by
  unfold verifyStep verifyStepWithin
  simp only [trackRecordWithin_max]
  split_ifs with hblank hlong
  · rfl
  · have hnode := @nodeOf_of_long py _ _ hlong
    simp only [stream, judge, if_pos hlong, hnode]
    rfl
  · simp only [stream, judge, if_neg hlong]
    cases hline : verifyLine py c.verifier (stripLine raw) with
    | error x => rfl
    | ok p =>
        obtain ⟨result, event⟩ := p
        cases event with
        | none =>
            rw [nodeOf_of_unparsed hline]
            rfl
        | some e =>
            obtain ⟨hparse, -⟩ := verifyLine_some hline
            have hnode := nodeOf_eq_some hparse
            simp only [bind, Except.bind, trackRecord_eq, hnode, states, trackerOf]
            cases trackOne py ((st.1.lookup e.nodeId).getD NodeTracker.start) e result <;> rfl

theorem judge_none {py : Interp} {c : EvidenceCollector} {line : Line} {t t' : Option NodeTracker}
    {v : Verdict} (hn : nodeOf py c.verifier line = none)
    (h : judge py c t line = .ok (t', v)) : t' = t := by
  unfold judge at h
  split_ifs at h with hlong
  · exact (Prod.mk.inj (Except.ok.inj h)).1.symm
  · obtain ⟨⟨r, event⟩, hline, h⟩ := Json.bind_eq_ok.mp h
    cases event with
    | none => exact (Prod.mk.inj (Except.ok.inj h)).1.symm
    | some e =>
        rw [nodeOf_eq_some (verifyLine_some hline).1] at hn
        cases hn

theorem judge_some {py : Interp} {c : EvidenceCollector} {line : Line} {t t' : Option NodeTracker}
    {v : Verdict} {node : Str} (hn : nodeOf py c.verifier line = some node)
    (h : judge py c t line = .ok (t', v)) : ∃ u, t' = some u := by
  unfold judge at h
  split_ifs at h with hlong
  · rw [nodeOf_of_long hlong] at hn
    cases hn
  · obtain ⟨⟨r, event⟩, hline, h⟩ := Json.bind_eq_ok.mp h
    cases event with
    | none =>
        rw [nodeOf_of_unparsed hline] at hn
        cases hn
    | some e =>
        obtain ⟨⟨u, r'⟩, -, h⟩ := Json.bind_eq_ok.mp h
        exact ⟨u, (Prod.mk.inj (Except.ok.inj h)).1.symm⟩

theorem states_withState {py : Interp} {c : EvidenceCollector} {line : Line}
    {trackers : Dict Str NodeTracker} {t : Option NodeTracker} {v : Verdict}
    (h : (stream py c).step (states trackers ((stream py c).key line)) line = .ok (t, v)) :
    states (withState trackers (nodeOf py c.verifier line) t) =
      Function.update (states trackers) ((stream py c).key line) t := by
  have hkey : (stream py c).key line = nodeOf py c.verifier line := rfl
  rw [hkey] at h ⊢
  cases hn : nodeOf py c.verifier line with
  | none =>
      rw [hn] at h
      rw [judge_none hn h, Function.update_eq_self]
      rfl
  | some node =>
      obtain ⟨u, rfl⟩ := judge_some hn h
      exact states_store trackers node u

/-- A line that holds a record is judged by the record. -/
theorem judge_record {py : Interp} {c : EvidenceCollector} {line : Line} {e : SignedEvent}
    (hparse : parseSignedEventJson py c.verifier.maxRecordBytes true line = .ok e)
    (t : Option NodeTracker) :
    judge py c t line = do
      let result ← verifyEvent py c.verifier e
      let (tracker, result) ← trackOne py (t.getD NodeTracker.start) e result
      return (some tracker, ⟨result, false⟩) := by
  obtain ⟨raw, -, -, hraw, hlen, -⟩ := parseSignedEventJson_eq_ok.mp hparse
  have hshort := lineLength_le_raw hraw
  unfold judge verifyLine
  rw [if_neg (by omega), hparse]
  dsimp only
  cases verifyEvent py c.verifier e <;> rfl

theorem trackOne_ok (py : Interp) (tracker : NodeTracker) {e : SignedEvent} (he : e.WellFormed)
    (r : VerificationResult) : ∃ p, trackOne py tracker e r = .ok p := by
  obtain ⟨r₁, h₁⟩ := checkChain_ok py he tracker.position r
  obtain ⟨payload, hp⟩ := SignedEvent.hashPayload_ok he.encodable
  have hhash : computeEventHash py e = .ok (py.sha3_256 payload) :=
    Json.bind_eq_ok.mpr ⟨payload, hp, rfl⟩
  by_cases hs : e.sequence = (tracker.note e).2.position.nextSequence
  · exact ⟨_, Json.bind_eq_ok.mpr ⟨r₁, h₁,
      (if_pos hs).trans (Json.bind_eq_ok.mpr ⟨_, hhash, rfl⟩)⟩⟩
  · exact ⟨_, Json.bind_eq_ok.mpr ⟨r₁, h₁, if_neg hs⟩⟩

/-- The loop runs the process, and counts its verdicts. -/
theorem verifyLoop_run (py : Interp) (c : EvidenceCollector) (lines : List Line)
    (st : StreamState) :
    match (stream py c).run (states st.1) (nonBlank lines) with
    | .error x => verifyLoop py c lines st = .error x
    | .ok (s, vs) => ∃ trackers, verifyLoop py c lines st = .ok (trackers, vs.foldl (tally c) st.2) ∧
        states trackers = s := by
  induction lines generalizing st with
  | nil => exact ⟨st.1, rfl, rfl⟩
  | cons raw rest ih =>
      have hloop : verifyLoop py c (raw :: rest) st =
          verifyStep py c st raw >>= fun mid => verifyLoop py c rest mid := rfl
      rw [nonBlank_cons, hloop, verifyStep_eq]
      split_ifs with hblank
      · exact ih st
      · rw [Keyed.run]
        cases hstep : (stream py c).step (states st.1 ((stream py c).key (stripLine raw)))
            (stripLine raw) with
        | error x => rfl
        | ok p =>
            obtain ⟨t, v⟩ := p
            dsimp only
            have hstates := states_withState hstep
            have hrest := ih (withState st.1 (nodeOf py c.verifier (stripLine raw)) t,
              tally c st.2 (stripLine raw, v))
            rw [hstates] at hrest
            cases hrun : (stream py c).run (Function.update (states st.1)
                ((stream py c).key (stripLine raw)) t) (nonBlank rest) with
            | error x =>
                rw [hrun] at hrest
                exact hrest
            | ok q =>
                rw [hrun] at hrest
                exact hrest

/-! ## The report summarises the verdicts -/

/-- The entry of a counter: none as long as nothing was counted. -/
def counter (n : Nat) : Option Nat := if n = 0 then none else some n

/-- How often an alert is raised by the verdicts. -/
def alertTotal (a : Alert) (vs : List (Line × Verdict)) : Nat :=
  (vs.flatMap fun v => v.2.result.errors).count a

theorem counter_getD (n : Nat) : (counter n).getD 0 = n := by
  unfold counter
  split_ifs with h <;> simp [h]

theorem count_alerts (errors : List Alert) (counts : Dict Alert Nat) (a : Alert) (n : Nat)
    (h : counts.lookup a = counter n) :
    (errors.foldl (fun counts alert =>
      counts.store alert ((counts.lookup alert).getD 0 + 1)) counts).lookup a =
      counter (n + errors.count a) := by
  induction errors generalizing counts n with
  | nil => simpa using h
  | cons b rest ih =>
      rw [List.foldl_cons]
      by_cases hb : a = b
      · subst hb
        rw [ih _ (n + 1), List.count_cons_self]
        · congr 1
          omega
        · rw [Dict.lookup_store_self, h, counter_getD]
          simp [counter]
      · rw [ih _ n, List.count_cons_of_ne (Ne.symm hb)]
        rw [Dict.lookup_store_ne _ hb, h]

theorem record_alertCounts (c : EvidenceCollector) (report : StreamReport)
    (result : VerificationResult) (a : Alert) (n : Nat)
    (h : report.alertCounts.lookup a = counter n) :
    (record c report result).alertCounts.lookup a = counter (n + result.errors.count a) := by
  unfold record
  dsimp only
  split_ifs <;> exact count_alerts result.errors report.alertCounts a n h

theorem record_results (c : EvidenceCollector) (report : StreamReport)
    (result : VerificationResult) (rs : List VerificationResult)
    (h : report.results = rs.take c.maxResults) :
    (record c report result).results = (rs ++ [result]).take c.maxResults := by
  unfold record
  dsimp only
  split_ifs with hlen
  · have hrs : rs.length < c.maxResults := by
      rw [h, List.length_take] at hlen
      omega
    rw [h, List.take_of_length_le (Nat.le_of_lt hrs), List.take_of_length_le (by simpa using hrs)]
  · have hrs : c.maxResults ≤ rs.length := by
      rw [h, List.length_take] at hlen
      omega
    rw [h, List.take_append_of_le_length hrs]

theorem record_malformed (c : EvidenceCollector) (report : StreamReport)
    (result : VerificationResult) :
    (record c report result).malformed = report.malformed := by
  unfold record
  dsimp only
  split_ifs <;> rfl

/-- What the report holds after the given verdicts. -/
structure Summarises (c : EvidenceCollector) (report : StreamReport)
    (vs : List (Line × Verdict)) : Prop where
  total : report.total = vs.length
  verified : report.verified = vs.countP fun v => v.2.accepted
  failed : report.failed = vs.countP fun v => !v.2.accepted
  malformed : report.malformed = vs.countP fun v => v.2.malformed
  valid : report.valid = vs.all fun v => v.2.accepted
  alertCounts : ∀ a, report.alertCounts.lookup a = counter (alertTotal a vs)
  results : report.results = (vs.map fun v => v.2.result).take c.maxResults

theorem summarises_start (c : EvidenceCollector) : Summarises c .start [] where
  total := rfl
  verified := rfl
  failed := rfl
  malformed := rfl
  valid := rfl
  alertCounts _ := rfl
  results := by simp [StreamReport.start]

/-- Recording a result adds the verdict, when the counters were moved before. -/
theorem Summarises.record {c : EvidenceCollector} {report counted : StreamReport}
    {vs : List (Line × Verdict)} {v : Line × Verdict} (h : Summarises c report vs)
    (hresults : counted.results = report.results)
    (halerts : counted.alertCounts = report.alertCounts)
    (htotal : counted.total = report.total + 1)
    (hverified : counted.verified = report.verified + if v.2.accepted then 1 else 0)
    (hfailed : counted.failed = report.failed + if v.2.accepted then 0 else 1)
    (hmalformed : counted.malformed = report.malformed + if v.2.malformed then 1 else 0)
    (hvalid : counted.valid = (report.valid && v.2.accepted)) :
    Summarises c (EvidenceCollector.record c counted v.2.result) (vs ++ [v]) := by
  obtain ⟨h₁, h₂, h₃, h₄⟩ := record_counts c counted v.2.result
  constructor
  · rw [h₂, htotal, h.total, List.length_append, List.length_singleton]
  · rw [h₃, hverified, h.verified, List.countP_append, List.countP_singleton]
  · rw [h₄, hfailed, h.failed, List.countP_append, List.countP_singleton]
    cases v.2.accepted <;> rfl
  · rw [record_malformed, hmalformed, h.malformed, List.countP_append, List.countP_singleton]
  · rw [h₁, hvalid, h.valid, List.all_append, List.all_cons, List.all_nil, Bool.and_true]
  · intro a
    have htot : alertTotal a (vs ++ [v]) = alertTotal a vs + v.2.result.errors.count a := by
      simp [alertTotal]
    rw [htot]
    exact record_alertCounts c counted v.2.result a _ (halerts ▸ h.alertCounts a)
  · rw [record_results c counted v.2.result _ (hresults.trans h.results), List.map_append]
    rfl

theorem Summarises.tally {c : EvidenceCollector} {report : StreamReport}
    {vs : List (Line × Verdict)} (h : Summarises c report vs) (v : Line × Verdict) :
    Summarises c (tally c report v) (vs ++ [v]) := by
  unfold IcsDeception.tally countMalformed countResult
  dsimp only
  split_ifs with hm hv
  · have hacc : v.2.accepted = false := by simp [Verdict.accepted, hm]
    exact h.record rfl rfl rfl (by simp [hacc]) (by simp [hacc]) (by simp [hm]) (by simp [hacc])
  · have hacc : v.2.accepted = true := by simp [Verdict.accepted, hm, hv]
    exact h.record rfl rfl rfl (by simp [hacc]) (by simp [hacc]) (by simp [hm]) (by simp [hacc])
  · have hacc : v.2.accepted = false := by simp [Verdict.accepted, hv]
    exact h.record rfl rfl rfl (by simp [hacc]) (by simp [hacc]) (by simp [hm]) (by simp [hacc])

theorem Summarises.foldl {c : EvidenceCollector} {report : StreamReport}
    {vs : List (Line × Verdict)} (h : Summarises c report vs) (new : List (Line × Verdict)) :
    Summarises c (new.foldl (IcsDeception.tally c) report) (vs ++ new) := by
  induction new generalizing report vs with
  | nil => simpa using h
  | cons v rest ih =>
      have := ih (h.tally v)
      rwa [List.append_assoc] at this

theorem lookup_map_value {α β : Type} (d : Dict Str α) (f : α → β) (k : Str) :
    (d.map fun p => (p.1, f p.2)).lookup k = (d.lookup k).map f := by
  induction d with
  | nil => rfl
  | cons p rest ih =>
      obtain ⟨key, a⟩ := p
      rw [List.map_cons, List.lookup_cons, List.lookup_cons, ih]
      cases k == key <;> rfl

/-- The report of a stream, from the verdicts on its lines and the states of its nodes. -/
theorem run_of_verifyStream {py : Interp} {c : EvidenceCollector} {lines : List Line}
    {report : StreamReport} (h : verifyStream py c lines = .ok report) : ∃ s vs,
      (stream py c).run (fun _ => none) (nonBlank lines) = .ok (s, vs) ∧
      Summarises c report vs ∧
      ∀ node, report.nodes.lookup node = (s (some node)).map NodeTracker.summary := by
  obtain ⟨⟨trackers, final⟩, hloop, h⟩ := Json.bind_eq_ok.mp h
  obtain rfl := Except.ok.inj h
  have hrun := verifyLoop_run py c lines ([], .start)
  rw [states_nil] at hrun
  cases hr : (stream py c).run (fun _ => none) (nonBlank lines) with
  | error x =>
      rw [hr] at hrun
      rw [hrun] at hloop
      cases hloop
  | ok p =>
      obtain ⟨s, vs⟩ := p
      rw [hr] at hrun
      obtain ⟨trackers', hloop', hs⟩ := hrun
      obtain ⟨rfl, hfinal⟩ := Prod.mk.inj (Except.ok.inj (hloop.symm.trans hloop'))
      refine ⟨s, vs, rfl, ?_, ?_⟩
      · have hsum := (summarises_start c).foldl vs
        rw [List.nil_append, ← hfinal] at hsum
        exact ⟨hsum.total, hsum.verified, hsum.failed, hsum.malformed, hsum.valid,
          hsum.alertCounts, hsum.results⟩
      · intro node
        rw [← hs]
        exact lookup_map_value trackers NodeTracker.summary node

/-- A stream whose lines all get a verdict gets a report. -/
theorem verifyStream_of_run {py : Interp} {c : EvidenceCollector} {lines : List Line}
    {s : Option Str → Option NodeTracker} {vs : List (Line × Verdict)}
    (h : (stream py c).run (fun _ => none) (nonBlank lines) = .ok (s, vs)) :
    ∃ report, verifyStream py c lines = .ok report := by
  have hrun := verifyLoop_run py c lines ([], .start)
  rw [states_nil, h] at hrun
  obtain ⟨trackers, hloop, -⟩ := hrun
  exact ⟨_, Json.bind_eq_ok.mpr ⟨_, hloop, rfl⟩⟩

theorem verdicts_of_run {py : Interp} {c : EvidenceCollector} {lines : List Line}
    {s : Option Str → Option NodeTracker} {vs : List (Line × Verdict)}
    (h : (stream py c).run (fun _ => none) (nonBlank lines) = .ok (s, vs)) :
    verdicts py c lines = .ok vs := by
  rw [verdicts, h]
  rfl

/-! ## The alerts of a result -/

theorem mem_addError {r : VerificationResult} {a b : Alert} :
    a ∈ (r.addError b).errors ↔ a ∈ r.errors ∨ a = b := by
  unfold VerificationResult.addError
  dsimp only
  split_ifs with h
  · refine ⟨.inl, ?_⟩
    rintro (ha | rfl)
    · exact ha
    · exact h
  · simp

theorem mem_addErrorIf {r : VerificationResult} {c : Bool} {a b : Alert} :
    a ∈ (r.addErrorIf c b).errors ↔ a ∈ r.errors ∨ c = true ∧ a = b := by
  unfold VerificationResult.addErrorIf
  split_ifs with h
  · simp [mem_addError, h]
  · simp [h]

theorem mem_foldl_addError {r : VerificationResult} {as : List Alert} {a : Alert} :
    a ∈ (as.foldl VerificationResult.addError r).errors ↔ a ∈ r.errors ∨ a ∈ as := by
  induction as generalizing r with
  | nil => simp
  | cons b rest ih => simp [ih, mem_addError, or_assoc]

/-- The alerts about a key. -/
def keyAlerts : List Alert :=
  [.unknownNode, .unsupportedAlgorithm, .revokedKey, .malformedEvidence, .unknownKey, .expiredKey]

theorem mem_alertIf {c : Bool} {a b : Alert} : a ∈ KeyRegistry.alertIf c b ↔ c = true ∧ a = b := by
  unfold KeyRegistry.alertIf
  split_ifs with h <;> simp [h]

theorem standingProblems_subset (r : KeyRecord) (nodeId : Str) (algorithm : SignatureAlgorithm) :
    ∀ a ∈ KeyRegistry.standingProblems r nodeId algorithm, a ∈ keyAlerts := by
  intro a ha
  simp only [KeyRegistry.standingProblems, List.mem_append, mem_alertIf] at ha
  rcases ha with ⟨-, rfl⟩ | ⟨-, rfl⟩ | ⟨-, rfl⟩ | ⟨-, rfl⟩ <;> decide

theorem expiryProblems_subset {py : Interp} {r : KeyRecord} {t : Calendar.Instant}
    {problems problems' : List Alert} (hp : ∀ a ∈ problems, a ∈ keyAlerts)
    (h : KeyRegistry.expiryProblems py r t problems = .ok problems') :
    ∀ a ∈ problems', a ∈ keyAlerts := by
  have hadd : ∀ (l : List Alert) (c : Bool), (∀ a ∈ l, a ∈ keyAlerts) →
      ∀ a ∈ l ++ KeyRegistry.alertIf c .expiredKey, a ∈ keyAlerts := by
    intro l c hl a ha
    rcases List.mem_append.mp ha with ha | ha
    · exact hl a ha
    · rw [(mem_alertIf.mp ha).2]
      decide
  unfold KeyRegistry.expiryProblems at h
  cases he : r.expiresAt with
  | none =>
      rw [he] at h
      obtain rfl := Except.ok.inj h
      exact hadd _ _ hp
  | some x =>
      rw [he] at h
      obtain ⟨e, -, h⟩ := Json.bind_eq_ok.mp h
      obtain rfl := Except.ok.inj h
      exact hadd _ _ (hadd _ _ hp)

theorem windowProblems_subset {py : Interp} {r : KeyRecord} {t : Str}
    {problems problems' : List Alert} (hp : ∀ a ∈ problems, a ∈ keyAlerts)
    (h : KeyRegistry.windowProblems py r t problems = .ok problems') :
    ∀ a ∈ problems', a ∈ keyAlerts := by
  have hadd : ∀ (l : List Alert) (b : Alert), (∀ a ∈ l, a ∈ keyAlerts) → b ∈ keyAlerts →
      ∀ a ∈ l ++ [b], a ∈ keyAlerts := by
    intro l b hl hb a ha
    rcases List.mem_append.mp ha with ha | ha
    · exact hl a ha
    · rw [List.mem_singleton.mp ha]
      exact hb
  unfold KeyRegistry.windowProblems at h
  split at h
  · obtain rfl := Except.ok.inj h
    exact hadd _ _ hp (by decide)
  · cases h
  · split at h
    · obtain rfl := Except.ok.inj h
      exact hadd _ _ hp (by decide)
    · cases h
    · rename_i eventTime _ _ activated _
      have hp' : ∀ a ∈ problems ++ KeyRegistry.alertIf
          (eventTime.micros < activated.micros) .unknownKey, a ∈ keyAlerts := by
        intro a ha
        rcases List.mem_append.mp ha with ha | ha
        · exact hp a ha
        · rw [(mem_alertIf.mp ha).2]
          decide
      dsimp only at h
      split at h
      · obtain rfl := Except.ok.inj h
        exact hadd _ _ hp' (by decide)
      · exact expiryProblems_subset hp' h

theorem checkUsable_subset {py : Interp} {reg : KeyRegistry} {k n t : Str}
    {a : SignatureAlgorithm} {u : KeyUsability} (h : reg.checkUsable py k n t a = .ok u) :
    ∀ b ∈ u.problems, b ∈ keyAlerts := by
  unfold KeyRegistry.checkUsable at h
  cases hg : reg.get k with
  | none =>
      rw [hg] at h
      obtain rfl := Except.ok.inj h
      intro b hb
      rcases List.mem_append.mp hb with hb | hb
      · rw [(mem_alertIf.mp hb).2]
        decide
      · rw [List.mem_singleton.mp hb]
        decide
  | some r =>
      rw [hg] at h
      obtain ⟨problems, hw, h⟩ := Json.bind_eq_ok.mp h
      obtain rfl := Except.ok.inj h
      exact windowProblems_subset (standingProblems_subset r n a) hw

/-- The alerts of a record on its own: its hash, the problems of its key, its signature. -/
theorem verifyEvent_problems {py : Interp} {verifier : EvidenceVerifier} {e : SignedEvent}
    {r : VerificationResult} (h : verifyEvent py verifier e = .ok r) :
    ∃ u, verifier.registry.checkUsable py e.keyId e.nodeId e.timestamp e.signatureAlgorithm = .ok u ∧
      ∀ a ∈ r.errors, a = .eventHashMismatch ∨ a ∈ u.problems ∨ a = .invalidSignature := by
  unfold verifyEvent at h
  obtain ⟨r₁, h₁, h⟩ := Json.bind_eq_ok.mp h
  obtain ⟨r₂, h₂, h₃⟩ := Json.bind_eq_ok.mp h
  obtain ⟨hash, -, rfl⟩ := checkEventHash_eq_ok.mp h₁
  obtain ⟨u, hu, h₂⟩ := Json.bind_eq_ok.mp h₂
  have hkey : ∀ a ∈ r₂.errors, a = .eventHashMismatch ∨ a ∈ u.problems := by
    intro a ha
    split_ifs at h₂
    · obtain rfl := Except.ok.inj h₂
      rcases mem_addErrorIf.mp ha with ha | ⟨-, rfl⟩
      · simp at ha
      · exact .inl rfl
    · obtain rfl := Except.ok.inj h₂
      rcases mem_foldl_addError.mp ha with ha | ha
      · rcases mem_addErrorIf.mp ha with ha | ⟨-, rfl⟩
        · simp at ha
        · exact .inl rfl
      · exact .inr ha
  have hsig : ∀ a ∈ r.errors, a ∈ r₂.errors ∨ a = .invalidSignature := by
    intro a ha
    unfold checkSignature at h₃
    split at h₃
    · obtain rfl := Except.ok.inj h₃
      exact mem_addError.mp ha
    · split at h₃
      · obtain rfl := Except.ok.inj h₃
        exact mem_addError.mp ha
      · obtain ⟨payload, -, h₃⟩ := Json.bind_eq_ok.mp h₃
        split at h₃
        · cases h₃
        · obtain rfl := Except.ok.inj h₃
          rcases mem_addErrorIf.mp ha with ha | ⟨-, rfl⟩
          · exact .inl ha
          · exact .inr rfl
  refine ⟨u, hu, fun a ha => ?_⟩
  rcases hsig a ha with h | h
  · exact (hkey a h).imp_right .inl
  · exact .inr (.inr h)

theorem verifyEvent_errors {py : Interp} {verifier : EvidenceVerifier} {e : SignedEvent}
    {r : VerificationResult} (h : verifyEvent py verifier e = .ok r) :
    ∀ a ∈ r.errors, a = .eventHashMismatch ∨ a ∈ keyAlerts ∨ a = .invalidSignature := by
  obtain ⟨u, hu, herrors⟩ := verifyEvent_problems h
  intro a ha
  exact (herrors a ha).imp_right (Or.imp_left (checkUsable_subset hu a))

end IcsDeception
