import IcsDeception.Models

/-!
# The trusted-key registry

The part of the registry that verification reads: the records, the lookup of a key,
and the decision whether a key could have signed for a node at a moment.

## Implementation notes

The registry's dictionary is keyed by the record's own identifier, so it is a list of
records whose identifiers are distinct.
-/

namespace IcsDeception

open Text Json Calendar Canonicalizer

/-- `KeyState`. -/
inductive KeyState
  | active
  | rotated
  | revoked
  | expired
  | disabled
  deriving DecidableEq

/-- The alert codes of the package. -/
inductive Alert
  | invalidSignature
  | eventHashMismatch
  | previousHashMismatch
  | sequenceGap
  | duplicateSequence
  | replayedEvent
  | unknownNode
  | unknownKey
  | revokedKey
  | expiredKey
  | chainReset
  | unsupportedAlgorithm
  | malformedEvidence
  | oversizedEvidence
  deriving DecidableEq

/-- `KeyRecord`. -/
structure KeyRecord where
  keyId : Str
  nodeId : Str
  algorithm : SignatureAlgorithm
  publicKey : Str
  activatedAt : Str
  expiresAt : Option Str
  state : KeyState

/-- `KeyRecord.public_key_bytes`. -/
def KeyRecord.publicKeyBytes (py : Interp) (r : KeyRecord) : Except Exn Bytes :=
  match py.b64decode r.publicKey with
  | none => .error .keyRegistry
  | some b => .ok b

/-- `KeyUsability`. -/
structure KeyUsability where
  usable : Bool
  problems : List Alert

/-- `KeyRegistry`. -/
structure KeyRegistry where
  records : List KeyRecord
  nodup : (records.map KeyRecord.keyId).Nodup

namespace KeyRegistry

/-- `_parse_time`. Every failure of the normalisation is a registry error; the failure of
`strptime` on an unpadded year is not. -/
def parseTime (py : Interp) (value : Str) : Except Exn Instant :=
  match normalizeTimestamp py (.str value) with
  | .error _ => .error .keyRegistry
  | .ok normalized =>
      match readUtc normalized with
      | none => .error .valueError
      | some i => .ok i

/-- The dates of every record can be read, as `KeyRecord.from_dict` has checked. -/
def DatesRead (py : Interp) (reg : KeyRegistry) : Prop :=
  ∀ r ∈ reg.records, (∃ i, parseTime py r.activatedAt = .ok i) ∧
    ∀ t, r.expiresAt = some t → ∃ i, parseTime py t = .ok i

/-- `KeyRegistry.get`. -/
def get (reg : KeyRegistry) (keyId : Str) : Option KeyRecord :=
  reg.records.find? fun r => r.keyId = keyId

/-- The alert of a condition, if it holds. -/
def alertIf (condition : Bool) (alert : Alert) : List Alert := if condition then [alert] else []

/-- The problems of a key that do not depend on the time. -/
def standingProblems (r : KeyRecord) (nodeId : Str) (algorithm : SignatureAlgorithm) :
    List Alert :=
  alertIf (r.nodeId ≠ nodeId) .unknownNode ++
    (alertIf (r.algorithm ≠ algorithm) .unsupportedAlgorithm ++
      (alertIf (r.state = .revoked) .revokedKey ++ alertIf (r.state = .disabled) .revokedKey))

/-- The expiry half of the `try` block of `check_usable`, after the problems so far. -/
def expiryProblems (py : Interp) (r : KeyRecord) (eventTime : Instant) (problems : List Alert) :
    Except Exn (List Alert) := do
  let problems ← match r.expiresAt with
    | none => pure problems
    | some t => do
        let expires ← parseTime py t
        pure (problems ++ alertIf (expires.micros < eventTime.micros) .expiredKey)
  return problems ++ alertIf (r.state = .expired && .expiredKey ∉ problems) .expiredKey

/-- The `try` block of `check_usable`: the problems of the validity window, after the
problems so far. A registry error leaves the problems found before it. -/
def windowProblems (py : Interp) (r : KeyRecord) (at_ : Str) (problems : List Alert) :
    Except Exn (List Alert) := do
  match parseTime py at_ with
  | .error .keyRegistry => return problems ++ [.malformedEvidence]
  | .error e => .error e
  | .ok eventTime =>
      match parseTime py r.activatedAt with
      | .error .keyRegistry => return problems ++ [.malformedEvidence]
      | .error e => .error e
      | .ok activated =>
          let problems := problems ++ alertIf (eventTime.micros < activated.micros) .unknownKey
          match expiryProblems py r eventTime problems with
          | .error .keyRegistry => return problems ++ [.malformedEvidence]
          | other => other

/-- `KeyRegistry.check_usable`. -/
def checkUsable (py : Interp) (reg : KeyRegistry) (keyId nodeId at_ : Str)
    (algorithm : SignatureAlgorithm) : Except Exn KeyUsability :=
  match reg.get keyId with
  | none =>
      .ok ⟨false, alertIf (reg.records.all fun r => r.nodeId ≠ nodeId) .unknownNode ++
        [.unknownKey]⟩
  | some r => do
      let problems ← windowProblems py r at_ (standingProblems r nodeId algorithm)
      return ⟨problems.isEmpty, problems⟩

end KeyRegistry

end IcsDeception
