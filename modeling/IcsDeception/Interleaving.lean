import IcsDeception.Verdicts

/-!
# The order of records of different nodes

The collector keeps one tracker for every node and adds up counters, so only the order
of the records within each node matters. A stream of the same lines, with the records
of every node in the same order, gets the same verdicts and the same report.

## Implementation notes

Reports hold dictionaries, which are equal when they hold the same entries, so tables
are compared by lookup.
-/

namespace IcsDeception

open Text EventChain Models EvidenceVerifier EvidenceCollector

/-- Two streams of the same lines, blank ones apart, with the records of every node in the
same order. -/
structure SameLines (py : Interp) (verifier : EvidenceVerifier) (ls ls' : List Line) : Prop where
  lines : (nonBlank ls).Perm (nonBlank ls')
  order : ∀ node, (nonBlank ls).filter (fun line => nodeOf py verifier line = some node) =
    (nonBlank ls').filter fun line => nodeOf py verifier line = some node

/-- The verdicts on two streams: the same for every line, and in the same order for the
records of every node. -/
structure SameVerdicts (py : Interp) (verifier : EvidenceVerifier)
    (vs vs' : List (Line × Verdict)) : Prop where
  lines : vs.Perm vs'
  order : ∀ node, vs.filter (fun v => nodeOf py verifier v.1 = some node) =
    vs'.filter fun v => nodeOf py verifier v.1 = some node

/-- Two reports that agree in everything but the order of the results. -/
structure SameReport (report report' : StreamReport) : Prop where
  valid : report.valid = report'.valid
  total : report.total = report'.total
  verified : report.verified = report'.verified
  failed : report.failed = report'.failed
  malformed : report.malformed = report'.malformed
  alertCounts : ∀ a, report.alertCounts.lookup a = report'.alertCounts.lookup a
  nodes : ∀ node, report.nodes.lookup node = report'.nodes.lookup node

theorem SameLines.symm {py : Interp} {verifier : EvidenceVerifier} {ls ls' : List Line}
    (h : SameLines py verifier ls ls') : SameLines py verifier ls' ls :=
  ⟨h.lines.symm, fun node => (h.order node).symm⟩

/-- A line without a record is judged on its own. -/
theorem stateless_none (py : Interp) (c : EvidenceCollector) : (stream py c).Stateless none := by
  refine ⟨fun line => (judge py c none line).map Prod.snd, fun t line hn => ?_⟩
  have hkey : nodeOf py c.verifier line = none := hn
  simp only [stream, judge]
  split_ifs with hlong
  · rfl
  · cases hline : verifyLine py c.verifier line with
    | error x => rfl
    | ok p =>
        obtain ⟨r, event⟩ := p
        cases event with
        | none => rfl
        | some e =>
            rw [nodeOf_eq_some (verifyLine_some hline).1] at hkey
            cases hkey

theorem SameLines.shuffled {py : Interp} {c : EvidenceCollector} {ls ls' : List Line}
    (h : SameLines py c.verifier ls ls') :
    (stream py c).Shuffled (nonBlank ls) (nonBlank ls') := by
  intro k
  cases k with
  | none => exact .inr ⟨stateless_none py c, h.lines.filter _⟩
  | some node => exact .inl (h.order node)

/-- Verdicts that agree line by line are summarised by the same counters. -/
theorem Summarises.same {c : EvidenceCollector} {report report' : StreamReport}
    {vs vs' : List (Line × Verdict)} (h : Summarises c report vs) (h' : Summarises c report' vs')
    (hp : vs.Perm vs') (hnodes : ∀ node, report.nodes.lookup node = report'.nodes.lookup node) :
    SameReport report report' where
  valid := by rw [h.valid, h'.valid, hp.all_eq]
  total := by rw [h.total, h'.total, hp.length_eq]
  verified := by rw [h.verified, h'.verified, hp.countP_eq]
  failed := by rw [h.failed, h'.failed, hp.countP_eq]
  malformed := by rw [h.malformed, h'.malformed, hp.countP_eq]
  alertCounts a := by
    rw [h.alertCounts, h'.alertCounts, alertTotal, alertTotal, (hp.flatMap_right _).count_eq]
  nodes := hnodes

/-- A stream of the same lines gets a report, with the same verdicts. -/
theorem report_of_sameLines {py : Interp} {c : EvidenceCollector} {ls ls' : List Line}
    (h : SameLines py c.verifier ls ls') {report : StreamReport}
    (hr : verifyStream py c ls = .ok report) :
    ∃ report' vs vs', verifyStream py c ls' = .ok report' ∧
      verdicts py c ls = .ok vs ∧ verdicts py c ls' = .ok vs' ∧
      Summarises c report vs ∧ Summarises c report' vs' ∧
      SameVerdicts py c.verifier vs vs' ∧ SameReport report report' := by
  obtain ⟨s, vs, hrun, hsum, hnodes⟩ := run_of_verifyStream hr
  obtain ⟨vs', hrun', hperm, honly⟩ := Keyed.run_shuffled h.shuffled hrun
  obtain ⟨report', hr'⟩ := verifyStream_of_run hrun'
  obtain ⟨s', ws, hrun'', hsum', hnodes'⟩ := run_of_verifyStream hr'
  obtain ⟨rfl, rfl⟩ := Prod.mk.inj (Except.ok.inj (hrun'.symm.trans hrun''))
  refine ⟨report', vs, vs', hr', verdicts_of_run hrun, verdicts_of_run hrun', hsum, hsum',
    ⟨hperm, fun node => honly (some node) (h.order node)⟩, hsum.same hsum' hperm fun node => ?_⟩
  rw [hnodes, hnodes']

/-- The order of records of different nodes, and of lines without a record, changes neither
whether a stream gets a report, nor a verdict, nor the counters and tables of the report. -/
theorem verifyStream_interleaving (py : Interp) (c : EvidenceCollector) (ls ls' : List Line)
    (h : SameLines py c.verifier ls ls') :
    ((∃ report, verifyStream py c ls = .ok report) ↔
      ∃ report, verifyStream py c ls' = .ok report) ∧
    ∀ report report', verifyStream py c ls = .ok report → verifyStream py c ls' = .ok report' →
      ∃ vs vs', verdicts py c ls = .ok vs ∧ verdicts py c ls' = .ok vs' ∧
        Summarises c report vs ∧ Summarises c report' vs' ∧
        SameVerdicts py c.verifier vs vs' ∧ SameReport report report' := by
  constructor
  · constructor
    · rintro ⟨report, hr⟩
      obtain ⟨report', -, -, hr', -⟩ := report_of_sameLines h hr
      exact ⟨report', hr'⟩
    · rintro ⟨report, hr⟩
      obtain ⟨report', -, -, hr', -⟩ := report_of_sameLines h.symm hr
      exact ⟨report', hr'⟩
  · intro report report' hr hr'
    obtain ⟨final, vs, vs', hfinal, hrest⟩ := report_of_sameLines h hr
    obtain rfl := Except.ok.inj (hfinal.symm.trans hr')
    exact ⟨vs, vs', hrest⟩

theorem mem_nonBlank {line : Line} {lines : List Line} (h : line ∈ nonBlank lines) :
    ∃ raw ∈ lines, line = stripLine raw := by
  obtain ⟨raw, hraw, rfl⟩ := List.mem_map.mp (List.mem_filter.mp h).1
  exact ⟨raw, hraw, rfl⟩

/-- A line may move across lines of other nodes. -/
theorem sameLines_move {py : Interp} {verifier : EvidenceVerifier} {moved : Line}
    {front across : List Line}
    (h : ∀ line ∈ across, nodeOf py verifier (stripLine line) ≠ nodeOf py verifier (stripLine moved)) :
    SameLines py verifier (front ++ moved :: across) (front ++ across ++ [moved]) where
  lines := by
    rw [← List.singleton_append, nonBlank_append, nonBlank_append, nonBlank_append,
      nonBlank_append, List.append_assoc]
    exact List.perm_append_comm.append_left _
  order node := by
    rw [← List.singleton_append, nonBlank_append, nonBlank_append, nonBlank_append,
      nonBlank_append, List.append_assoc, List.filter_append, List.filter_append,
      List.filter_append, List.filter_append]
    -- either the moved line or all the lines that it crosses are of other nodes
    by_cases hnode : nodeOf py verifier (stripLine moved) = some node
    · have hnone : (nonBlank across).filter (fun line => nodeOf py verifier line = some node) = [] := by
        refine List.filter_eq_nil_iff.mpr fun line hline => ?_
        obtain ⟨raw, hraw, rfl⟩ := mem_nonBlank hline
        simpa [← hnode] using h raw hraw
      rw [hnone, List.append_nil, List.nil_append]
    · have hnone : (nonBlank [moved]).filter (fun line => nodeOf py verifier line = some node) = [] := by
        refine List.filter_eq_nil_iff.mpr fun line hline => ?_
        obtain ⟨raw, hraw, rfl⟩ := mem_nonBlank hline
        obtain rfl := List.mem_singleton.mp hraw
        simpa using hnode
      rw [hnone, List.append_nil, List.nil_append]

/-- The record of node `m` may stand behind the first record of node `n` or behind its last. -/
theorem sampleLines_moved : SameLines .reference sampleCollector.verifier sampleLines
    (chainFirst :: chainRest ++ [neighbour]) := by
  have hnode : ∀ line n t h, (parseSignedEventJson .reference
      sampleCollector.verifier.maxRecordBytes true (stripLine line)).toOption.map sampleFields =
        some (n, t, h) → nodeOf .reference sampleCollector.verifier (stripLine line) = some n := by
    intro line n t h hfields
    obtain ⟨e, he, hfields⟩ := eq_ok_of_toOption hfields
    simp only [sampleFields, Prod.mk.injEq] at hfields
    simp only [nodeOf, he, hfields.1]
  obtain ⟨-, -, hfields⟩ := verifyStream_sampleLines
  simp only [sampleLines, chainRest, List.map_cons, List.map_nil, List.cons.injEq] at hfields
  have hm := hnode neighbour _ _ _ hfields.2.1
  have hother : lit "n" ≠ lit "m" := by decide
  refine @sameLines_move _ _ neighbour [chainFirst] chainRest fun line hline => ?_
  rw [hm]
  simp only [chainRest, List.mem_cons, List.not_mem_nil, or_false] at hline
  rcases hline with rfl | rfl
  · rw [hnode _ _ _ _ hfields.2.2.1]
    simpa using hother
  · rw [hnode _ _ _ _ hfields.2.2.2.1]
    simpa using hother

/-- The stream of two nodes is reported alike with the record of node `m` at its end. -/
theorem verifyStream_interleaving_sample :
    SameLines .reference sampleCollector.verifier sampleLines (chainFirst :: chainRest ++ [neighbour]) ∧
      ∃ report report', verifyStream .reference sampleCollector sampleLines = .ok report ∧
        verifyStream .reference sampleCollector (chainFirst :: chainRest ++ [neighbour]) = .ok report' ∧
        report.valid = true ∧ SameReport report report' := by
  obtain ⟨report, hr, hv⟩ := eq_ok_of_toOption verifyStream_sampleLines.1
  obtain ⟨hiff, hall⟩ :=
    verifyStream_interleaving .reference sampleCollector _ _ sampleLines_moved
  obtain ⟨report', hr'⟩ := hiff.mp ⟨report, hr⟩
  obtain ⟨vs, vs', -, -, -, -, -, hsame⟩ := hall report report' hr hr'
  exact ⟨sampleLines_moved, report, report', hr, hr', hv, hsame⟩

end IcsDeception
