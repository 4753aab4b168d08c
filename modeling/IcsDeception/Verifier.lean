import IcsDeception.EventChain
import IcsDeception.KeyRegistry

/-!
# Verification of one record

The checks of a record: its hash, its key, its signature, and its place in the chain
of its node. All findings are collected.
-/

namespace IcsDeception

open Text EventChain Models

/-- `VerificationResult`. -/
structure VerificationResult where
  valid : Bool
  nodeId : Str
  sequence : Int
  eventHash : Str
  errors : List Alert
  keyId : Str

namespace VerificationResult

/-- The result of a record that could not be parsed, before its error is added. -/
def unparsed : VerificationResult := ⟨false, [], 0, [], [], []⟩

/-- `VerificationResult.add_error`. -/
def addError (r : VerificationResult) (alert : Alert) : VerificationResult :=
  { r with valid := false, errors := if alert ∈ r.errors then r.errors else r.errors ++ [alert] }

/-- An error added when a condition holds. -/
def addErrorIf (r : VerificationResult) (condition : Bool) (alert : Alert) : VerificationResult :=
  if condition then r.addError alert else r

end VerificationResult

/-- `CryptoBackend.verify`, which may raise `BackendError`. -/
structure Backend where
  verify : Bytes → Bytes → Bytes → SignatureAlgorithm → Except Exn Bool

/-- A backend that answers for every key, message and signature. -/
def Backend.Total (b : Backend) : Prop :=
  ∀ key message signature algorithm, ∃ ok, b.verify key message signature algorithm = .ok ok

/-- `EvidenceVerifier`, with an explicit backend. -/
structure EvidenceVerifier where
  registry : KeyRegistry
  backend : Backend
  maxRecordBytes : Nat
  maxRecordBytes_pos : 0 < maxRecordBytes

namespace EvidenceVerifier

variable (py : Interp) (verifier : EvidenceVerifier)

/-- `_check_event_hash`. -/
def checkEventHash (e : SignedEvent) (r : VerificationResult) :
    Except Exn VerificationResult := do
  let recomputed ← computeEventHash py e
  return r.addErrorIf (recomputed ≠ e.eventHash) .eventHashMismatch

/-- `_check_key`. -/
def checkKey (e : SignedEvent) (r : VerificationResult) : Except Exn VerificationResult := do
  let usability ← verifier.registry.checkUsable py e.keyId e.nodeId e.timestamp
    e.signatureAlgorithm
  if usability.usable then return r
  else return usability.problems.foldl VerificationResult.addError r

/-- `_check_signature`. -/
def checkSignature (e : SignedEvent) (r : VerificationResult) : Except Exn VerificationResult :=
  match verifier.registry.get e.keyId with
  | none => .ok (r.addError .invalidSignature)
  | some record =>
      match record.publicKeyBytes py with
      | .error _ => .ok (r.addError .invalidSignature)
      | .ok publicKey => do
          let payload ← e.signingPayload
          match verifier.backend.verify publicKey payload e.signatureBytes e.signatureAlgorithm with
          | .error _ => .error .verifier
          | .ok ok => return r.addErrorIf (!ok) .invalidSignature

/-- `verify_event` without a cursor. -/
def verifyEvent (e : SignedEvent) : Except Exn VerificationResult := do
  let r ← checkEventHash py e ⟨true, e.nodeId, e.sequence, e.eventHash, [], e.keyId⟩
  let r ← checkKey py verifier e r
  checkSignature py verifier e r

/-- `_REASON_TO_ALERT`. -/
def reasonToAlert : Reason → Alert
  | .malformedEvidence => .malformedEvidence
  | .oversizedEvidence => .oversizedEvidence
  | .unsupportedAlgorithm => .unsupportedAlgorithm
  | .unsupportedFormatVersion => .malformedEvidence

/-- `verify_line`. Only validation errors are reported; any other exception passes. -/
def verifyLine (line : Line) : Except Exn (VerificationResult × Option SignedEvent) :=
  match parseSignedEventJson py verifier.maxRecordBytes true line with
  | .error (.validation reason) =>
      .ok (VerificationResult.unparsed.addError (reasonToAlert reason), none)
  | .error e => .error e
  | .ok event => do
      let result ← verifyEvent py verifier event
      return (result, some event)

/-- The previous-hash half of `_check_chain`. -/
def checkLink (e : SignedEvent) (position : ChainPosition) (r : VerificationResult) :
    Except Exn VerificationResult :=
  if e.sequence = firstSequence then do
    let expectedPrevious ← genesisPreviousHash py e.nodeId
    let r := r.addErrorIf (0 < position.lastSequence) .chainReset
    return r.addErrorIf (e.previousEventHash ≠ expectedPrevious) .previousHashMismatch
  else
    match position.lastEventHash with
    | none => .ok r
    | some h => .ok (r.addErrorIf (e.previousEventHash ≠ h) .previousHashMismatch)

/-- `_check_chain`. -/
def checkChain (e : SignedEvent) (position : ChainPosition) (r : VerificationResult) :
    Except Exn VerificationResult :=
  let expected := position.nextSequence
  let r :=
    if e.sequence < expected then
      r.addErrorIf (e.sequence ≤ position.lastSequence) .duplicateSequence
    else r.addErrorIf (expected < e.sequence) .sequenceGap
  checkLink py e position r

end EvidenceVerifier

end IcsDeception
