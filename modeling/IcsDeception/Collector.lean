import IcsDeception.Verifier
import IcsDeception.Lib.Dict

/-!
# Verification of a stream

The collector verifies a list of lines, with a cursor and two tables of what was seen
for every node.

## Implementation notes

The bound on remembered hashes is the package's constant. A set is a list without
repetitions.
-/

namespace IcsDeception

open Text EventChain Models

/-- `MAX_TRACKED_HASHES`. -/
def maxTrackedHashes : Nat := 1000000

/-- `_NodeTracker`. -/
structure NodeTracker where
  position : ChainPosition
  seenSequences : Dict Int Str
  seenHashes : List Str
  trackingExhausted : Bool

namespace NodeTracker

/-- `_NodeTracker.__init__`. -/
def start : NodeTracker := ⟨.start, [], [], false⟩

/-- The alerts of a record that was seen before. -/
def seenAlerts (t : NodeTracker) (e : SignedEvent) : List Alert :=
  match t.seenSequences.lookup e.sequence with
  | some previous => if previous = e.eventHash then [.replayedEvent] else [.duplicateSequence]
  | none => if e.eventHash ∈ t.seenHashes then [.replayedEvent] else []

/-- `_NodeTracker.note`, under a cap on the remembered hashes. -/
def noteWithin (cap : Nat) (t : NodeTracker) (e : SignedEvent) : List Alert × NodeTracker :=
  if t.seenHashes.length < cap then
    (t.seenAlerts e,
      { t with seenSequences := t.seenSequences.store e.sequence e.eventHash,
               seenHashes := t.seenHashes.insert e.eventHash })
  else if t.trackingExhausted then (t.seenAlerts e, t)
  else (t.seenAlerts e ++ [.malformedEvidence], { t with trackingExhausted := true })

/-- `_NodeTracker.note`. -/
def note (t : NodeTracker) (e : SignedEvent) : List Alert × NodeTracker :=
  t.noteWithin maxTrackedHashes e

theorem noteWithin_max (t : NodeTracker) (e : SignedEvent) :
    t.noteWithin maxTrackedHashes e = t.note e := rfl

/-- `_NodeTracker.summary`: the cursor and the number of sequences seen. -/
def summary (t : NodeTracker) : Int × Option Str × Nat :=
  (t.position.lastSequence, t.position.lastEventHash, t.seenSequences.length)

end NodeTracker

/-- `StreamReport`. -/
structure StreamReport where
  valid : Bool
  total : Nat
  verified : Nat
  failed : Nat
  malformed : Nat
  nodes : Dict Str (Int × Option Str × Nat)
  alertCounts : Dict Alert Nat
  results : List VerificationResult
  truncatedResults : Bool

/-- The report of an empty stream. -/
def StreamReport.start : StreamReport := ⟨true, 0, 0, 0, 0, [], [], [], false⟩

/-- `EvidenceCollector`. -/
structure EvidenceCollector where
  verifier : EvidenceVerifier
  maxResults : Nat
  maxResults_pos : 0 < maxResults

namespace EvidenceCollector

theorem defaultMaxResults_pos : 0 < 10000 := by decide

variable (py : Interp) (collector : EvidenceCollector)

/-- `_record`. -/
def record (report : StreamReport) (result : VerificationResult) : StreamReport :=
  let counts := result.errors.foldl
    (fun counts alert => counts.store alert ((counts.lookup alert).getD 0 + 1)) report.alertCounts
  if report.results.length < collector.maxResults then
    { report with alertCounts := counts, results := report.results ++ [result] }
  else { report with alertCounts := counts, truncatedResults := true }

/-- A line without its surrounding whitespace. -/
def stripLine : Line → Line
  | .text s => .text (strip s)
  | .bytes b => .bytes (stripBytes b)

/-- `len(text)`. -/
def lineLength : Line → Nat
  | .text s => s.length
  | .bytes b => b.length

/-- A record that could not be read at all. -/
def countMalformed (report : StreamReport) (result : VerificationResult) : StreamReport :=
  record collector { report with malformed := report.malformed + 1, failed := report.failed + 1,
                                 valid := false } result

/-- A record that was read, with its verdict. -/
def countResult (report : StreamReport) (result : VerificationResult) : StreamReport :=
  record collector
    (if result.valid then { report with verified := report.verified + 1 }
     else { report with failed := report.failed + 1, valid := false }) result

/-- The trackers by node, and the report so far. -/
abbrev StreamState := Dict Str NodeTracker × StreamReport

/-- The tracker of a node, a fresh one if the node was not seen. -/
def trackerOf (trackers : Dict Str NodeTracker) (node : Str) : NodeTracker :=
  (trackers.lookup node).getD NodeTracker.start

/-- The part of the loop of `verify_stream` that is about the node of a record, under a cap. -/
def trackRecordWithin (cap : Nat) (trackers : Dict Str NodeTracker) (event : SignedEvent)
    (result : VerificationResult) : Except Exn (Dict Str NodeTracker × VerificationResult) := do
  let tracker := trackerOf trackers event.nodeId
  let result ← EvidenceVerifier.checkChain py event tracker.position result
  let (alerts, tracker) := tracker.noteWithin cap event
  let result := alerts.foldl VerificationResult.addError result
  if event.sequence = tracker.position.nextSequence then
    let hash ← computeEventHash py event
    let tracker := { tracker with position := ChainPosition.advance event hash }
    return (trackers.store event.nodeId tracker, result)
  else return (trackers.store event.nodeId tracker, result)

/-- The part of the loop body for a record that was parsed and verified on its own. -/
def trackRecord (trackers : Dict Str NodeTracker) (event : SignedEvent)
    (result : VerificationResult) : Except Exn (Dict Str NodeTracker × VerificationResult) :=
  trackRecordWithin py maxTrackedHashes trackers event result

theorem trackRecordWithin_max (trackers : Dict Str NodeTracker) (event : SignedEvent)
    (result : VerificationResult) : trackRecordWithin py maxTrackedHashes trackers event result =
      trackRecord py trackers event result := rfl

/-- The body of the loop of `verify_stream`, under a cap. -/
def verifyStepWithin (cap : Nat) (st : StreamState) (raw : Line) : Except Exn StreamState := do
  let line := stripLine raw
  if lineLength line = 0 then return st
  else
    let report := { st.2 with total := st.2.total + 1 }
    if collector.verifier.maxRecordBytes < lineLength line then
      return (st.1, countMalformed collector report
        (VerificationResult.unparsed.addError .oversizedEvidence))
    else
      let (result, event) ← EvidenceVerifier.verifyLine py collector.verifier line
      match event with
      | none => return (st.1, countMalformed collector report result)
      | some event =>
          let (trackers, result) ← trackRecordWithin py cap st.1 event result
          return (trackers, countResult collector report result)

/-- The body of the loop of `verify_stream`. -/
def verifyStep (st : StreamState) (raw : Line) : Except Exn StreamState :=
  verifyStepWithin py collector maxTrackedHashes st raw

/-- The loop of `verify_stream`. -/
def verifyLoop (lines : List Line) (st : StreamState) : Except Exn StreamState :=
  lines.foldlM (verifyStep py collector) st

/-- `verify_stream`. -/
def verifyStream (lines : List Line) : Except Exn StreamReport := do
  let (trackers, report) ← verifyLoop py collector lines ([], .start)
  return { report with nodes := trackers.map fun p => (p.1, p.2.summary) }

/-- `verify_file`, on the content of a file that can be read: the file is opened as text,
with lenient decoding and universal newlines. -/
def verifyFile (content : Bytes) : Except Exn StreamReport :=
  verifyStream py collector
    ((splitLines (universalNewlines (Utf8.decodeReplace content))).map .text)

end EvidenceCollector

end IcsDeception
