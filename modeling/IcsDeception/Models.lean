import IcsDeception.Canonicalizer
import IcsDeception.Lib.Json.Equality

/-!
# The signed-event envelope

The envelope with its two payloads, the field validators, and the parsers of an
evidence record.

## Implementation notes

The version and algorithm names that the package supports are enumerations; a text
outside them never gets into an envelope. The identifier and digest patterns are
anchored with `$`, which also matches before a final newline.
-/

namespace IcsDeception

open Text Json Canonicalizer

/-- `SUPPORTED_FORMAT_VERSIONS`. -/
inductive FormatVersion
  | v1_0
  deriving DecidableEq

/-- `SUPPORTED_SIGNATURE_ALGORITHMS`. -/
inductive SignatureAlgorithm
  | mlDsa44
  | mlDsa65
  | mlDsa87
  deriving DecidableEq

/-- `SUPPORTED_HASH_ALGORITHMS`. -/
inductive HashAlgorithm
  | sha3_256
  deriving DecidableEq

/-- The name of a format version. -/
def FormatVersion.text : FormatVersion → Str
  | .v1_0 => lit "1.0"

/-- The name of a signature algorithm. -/
def SignatureAlgorithm.text : SignatureAlgorithm → Str
  | .mlDsa44 => lit "ML-DSA-44"
  | .mlDsa65 => lit "ML-DSA-65"
  | .mlDsa87 => lit "ML-DSA-87"

/-- The name of a hash algorithm. -/
def HashAlgorithm.text : HashAlgorithm → Str
  | .sha3_256 => lit "SHA3-256"

/-- The supported format version of a name. -/
def FormatVersion.ofText? (s : Str) : Option FormatVersion :=
  [.v1_0].find? fun v => FormatVersion.text v = s

/-- The supported signature algorithm of a name. -/
def SignatureAlgorithm.ofText? (s : Str) : Option SignatureAlgorithm :=
  [.mlDsa44, .mlDsa65, .mlDsa87].find? fun a => SignatureAlgorithm.text a = s

/-- The supported hash algorithm of a name. -/
def HashAlgorithm.ofText? (s : Str) : Option HashAlgorithm :=
  [.sha3_256].find? fun a => HashAlgorithm.text a = s

/-- `SignedEvent`. -/
structure SignedEvent where
  formatVersion : FormatVersion
  nodeId : Str
  sequence : Int
  timestamp : Str
  previousEventHash : Str
  eventHash : Str
  event : List (Key × Value)
  signatureAlgorithm : SignatureAlgorithm
  hashAlgorithm : HashAlgorithm
  keyId : Str
  signature : Str
  signatureBytes : Bytes

namespace SignedEvent

/-- `SignedEvent.to_dict`. -/
def toDict (e : SignedEvent) : List (Str × Value) :=
  [(lit "format_version", .str e.formatVersion.text),
   (lit "node_id", .str e.nodeId),
   (lit "sequence", .int e.sequence),
   (lit "timestamp", .str e.timestamp),
   (lit "previous_event_hash", .str e.previousEventHash),
   (lit "event_hash", .str e.eventHash),
   (lit "event", .dict e.event),
   (lit "signature_algorithm", .str e.signatureAlgorithm.text),
   (lit "hash_algorithm", .str e.hashAlgorithm.text),
   (lit "key_id", .str e.keyId),
   (lit "signature", .str e.signature)]

/-- The envelope without some of its fields. -/
def without (e : SignedEvent) (excluded : List Str) : Value :=
  Value.ofMembers (e.toDict.filter fun p => p.1 ∉ excluded)

/-- `SignedEvent.hash_payload`. -/
def hashPayload (e : SignedEvent) : Except Exn Bytes :=
  canonicalBytes (e.without [lit "event_hash", lit "signature"])

/-- `SignedEvent.signing_payload`. -/
def signingPayload (e : SignedEvent) : Except Exn Bytes :=
  canonicalBytes (e.without [lit "signature"])

/-- `SignedEvent.to_json_line`. -/
def toJsonLine (e : SignedEvent) : Except Exn Str := do
  let b ← canonicalBytes (Value.ofMembers e.toDict)
  match Utf8.decodeStrict b with
  | none => .error .valueError
  | some text => .ok text

/-- `SignedEvent.with_signature`. -/
def withSignature (e : SignedEvent) (b64 : Str) (raw : Bytes) : SignedEvent :=
  { e with signature := b64, signatureBytes := raw }

/-- `SignedEvent.with_event_hash`. -/
def withEventHash (e : SignedEvent) (hash : Str) : SignedEvent := { e with eventHash := hash }

end SignedEvent

namespace Models

/-- `MAX_EVIDENCE_BYTES`. -/
def maxEvidenceBytes : Nat := 262144

theorem maxEvidenceBytes_pos : 0 < maxEvidenceBytes := by decide

/-- `MAX_EVENT_BYTES`. -/
def maxEventBytes : Nat := 65536

/-- `MAX_EVENT_DEPTH`. -/
def maxEventDepth : Nat := 16

/-- `MAX_NODE_ID_LENGTH`. -/
def maxNodeIdLength : Nat := 128

/-- `ENVELOPE_FIELDS`. -/
def envelopeFields : List Str :=
  [lit "format_version", lit "node_id", lit "sequence", lit "timestamp",
   lit "previous_event_hash", lit "event_hash", lit "event", lit "signature_algorithm",
   lit "hash_algorithm", lit "key_id", lit "signature"]

/-- `_require`. -/
def require (condition : Bool) (reason : Reason) : Except Exn Unit :=
  if condition then .ok () else .error (.validation reason)

/-- A `CanonicalizationError` turned into a validation error. -/
def asMalformed {α : Type} : Except Exn α → Except Exn α
  | .error .canonicalization => .error (.validation .malformedEvidence)
  | r => r

/-- A field that must be a text. -/
def asText : Value → Except Exn Str
  | .str s => .ok s
  | _ => .error (.validation .malformedEvidence)

/-- A supported name, or the error of the given reason. -/
def supported {α : Type} (reason : Reason) : Option α → Except Exn α
  | some a => .ok a
  | none => .error (.validation reason)

/-- A pattern anchored with `$`: the whole text, or all of it before a final newline. -/
def matchesToEnd (p : Str → Bool) (s : Str) : Bool :=
  p s || (s.getLast? == some lf && p s.dropLast)

/-- Letters and digits. -/
def isAlnum (c : CodePoint) : Bool :=
  (0x30 ≤ c.val && c.val ≤ 0x39) || (0x41 ≤ c.val && c.val ≤ 0x5A) ||
    (0x61 ≤ c.val && c.val ≤ 0x7A)

/-- The characters of an identifier after the first. -/
def isIdChar (c : CodePoint) : Bool :=
  isAlnum c || c == cp '.' || c == cp '_' || c == cp ':' || c == cp '-'

/-- `[A-Za-z0-9][A-Za-z0-9._:-]{0,127}`. -/
def isIdentifier : Str → Bool
  | [] => false
  | c :: rest => isAlnum c && rest.all isIdChar && rest.length ≤ 127

/-- `[0-9a-f]{64}`. -/
def isDigest (s : Str) : Bool := s.length == 64 && s.all isHexDigit

/-- `_validate_identifier`. -/
def validateIdentifier (v : Value) : Except Exn Str := do
  let s ← asText v
  require (s ≠ []) .malformedEvidence
  require (s.length ≤ maxNodeIdLength) .malformedEvidence
  require (matchesToEnd isIdentifier s) .malformedEvidence
  return s

/-- `_validate_hash`. -/
def validateHash (v : Value) : Except Exn Str := do
  let s ← asText v
  require (matchesToEnd isDigest s) .malformedEvidence
  return s

/-- `_validate_sequence`. -/
def validateSequence : Value → Except Exn Int
  | .int i => do
      require (1 ≤ i) .malformedEvidence
      require (i ≤ 2 ^ 63 - 1) .malformedEvidence
      return i
  | _ => .error (.validation .malformedEvidence)

mutual
/-- `_depth`. Every value in a container is deeper than the container, so the default of
`max` is its least value. -/
def depth (level : Nat) : Value → Nat
  | .dict kvs => depthMembers level kvs
  | .list xs => depthItems level xs
  | .tuple xs => depthItems level xs
  | _ => level
/-- The greatest depth among the members, or the level itself. -/
def depthMembers (level : Nat) : List (Key × Value) → Nat
  | [] => level
  | (_, v) :: rest => max (depth (level + 1) v) (depthMembers level rest)
/-- The greatest depth among the items, or the level itself. -/
def depthItems (level : Nat) : List Value → Nat
  | [] => level
  | v :: rest => max (depth (level + 1) v) (depthItems level rest)
end

/-- `_validate_event`. The encoding stands outside the `try`, so its error is not
turned into a validation error. -/
def validateEvent : Value → Except Exn (List (Key × Value))
  | .dict kvs => do
      asMalformed (checkCanonicalizable (.dict kvs))
      let encoded ← canonicalBytes (.dict kvs)
      require (encoded.length ≤ maxEventBytes) .oversizedEvidence
      require (depth 1 (.dict kvs) ≤ maxEventDepth) .malformedEvidence
      return kvs
  | _ => .error (.validation .malformedEvidence)

/-- `_validate_signature`. -/
def validateSignature (py : Interp) (v : Value) : Except Exn Bytes := do
  let s ← asText v
  require (s ≠ []) .malformedEvidence
  let raw ← supported .malformedEvidence (py.b64decode s)
  require (raw ≠ []) .malformedEvidence
  return raw

/-- `data[name]` of a field that is known to be present. -/
def field (data : List (Key × Value)) (name : String) : Value :=
  (data.lookup (.str (lit name))).getD .null

/-- `parse_signed_event_size_guard`. -/
def parseSignedEventSizeGuard (data : List (Key × Value)) (maxBytes : Nat) :
    Except Exn (List (Key × Value)) := do
  let event ← validateEvent (field data "event")
  let encoded ← asMalformed (canonicalBytes (.dict data))
  require (encoded.length ≤ maxBytes) .oversizedEvidence
  return event

/-- The fields that must be present. -/
def requiredFields (requireSignature : Bool) : List Str :=
  if requireSignature then envelopeFields else envelopeFields.filter (· ≠ lit "signature")

/-- `parse_signed_event`. -/
def parseSignedEvent (py : Interp) (maxBytes : Nat) (requireSignature : Bool) :
    Value → Except Exn SignedEvent
  | .dict data => do
      require (data.all fun p => envelopeFields.any fun f => p.1 = .str f) .malformedEvidence
      require ((requiredFields requireSignature).all fun f => (data.lookup (.str f)).isSome)
        .malformedEvidence
      let version ← asText (field data "format_version")
      let formatVersion ← supported .unsupportedFormatVersion (FormatVersion.ofText? version)
      let algorithm ← asText (field data "signature_algorithm")
      let signatureAlgorithm ← supported .unsupportedAlgorithm
        (SignatureAlgorithm.ofText? algorithm)
      let hashName ← asText (field data "hash_algorithm")
      let hashAlgorithm ← supported .unsupportedAlgorithm (HashAlgorithm.ofText? hashName)
      let timestamp ← asText (field data "timestamp")
      let normalized ← asMalformed (normalizeTimestamp py (.str timestamp))
      require (timestamp = normalized) .malformedEvidence
      let signatureBytes ← if requireSignature then validateSignature py (field data "signature")
        else .ok []
      let event ← parseSignedEventSizeGuard data maxBytes
      let nodeId ← validateIdentifier (field data "node_id")
      let sequence ← validateSequence (field data "sequence")
      let previousEventHash ← validateHash (field data "previous_event_hash")
      let eventHash ← validateHash (field data "event_hash")
      let keyId ← validateIdentifier (field data "key_id")
      let signature := match data.lookup (.str (lit "signature")) with
        | some (.str s) => s
        | _ => []
      return { formatVersion, nodeId, sequence, timestamp := normalized, previousEventHash,
               eventHash, event, signatureAlgorithm, hashAlgorithm, keyId, signature,
               signatureBytes }
  | _ => .error (.validation .malformedEvidence)

/-- `_reject_duplicate_keys` and `_no_constants`. -/
def strictHooks : Hooks where
  objectPairs pairs :=
    if (pairs.map Prod.fst).Nodup then .ok (Value.ofMembers (dictOfPairs pairs))
    else .error .hook
  constant _ := .error .hook

/-- A line of evidence, as text or as bytes. -/
inductive Line
  | text (s : Str)
  | bytes (b : Bytes)
  deriving DecidableEq

/-- The bytes of a line, if it has an encoding. -/
def Line.raw : Line → Option Bytes
  | .text s => Utf8.encode s
  | .bytes b => some b

/-- `parse_signed_event_json`. -/
def parseSignedEventJson (py : Interp) (maxBytes : Nat) (requireSignature : Bool) (line : Line) :
    Except Exn SignedEvent := do
  let raw ← supported .malformedEvidence line.raw
  require (raw.length ≤ maxBytes) .oversizedEvidence
  let decoded ← supported .malformedEvidence (Utf8.decodeStrict raw)
  match loadsWith strictHooks py.jsonLimit decoded with
  | .error _ => .error (.validation .malformedEvidence)
  | .ok data => parseSignedEvent py maxBytes requireSignature data

/-- The `event_hash` of an envelope that has not been hashed yet. -/
def zeroHash : Str := List.replicate 64 (cp '0')

/-- `SignedEvent.build_unsigned`, at the default format version. -/
def buildUnsigned (py : Interp) (nodeId : Str) (sequence : Int) (timestamp : Str)
    (previousEventHash : Str) (event : Value) (keyId : Str) (algorithm hashName : Str) :
    Except Exn SignedEvent := do
  let signatureAlgorithm ← supported .unsupportedAlgorithm (SignatureAlgorithm.ofText? algorithm)
  let hashAlgorithm ← supported .unsupportedAlgorithm (HashAlgorithm.ofText? hashName)
  let normalized ← asMalformed (normalizeTimestamp py (.str timestamp))
  let nodeId ← validateIdentifier (.str nodeId)
  let sequence ← validateSequence (.int sequence)
  let previousEventHash ← validateHash (.str previousEventHash)
  let event ← validateEvent event
  let keyId ← validateIdentifier (.str keyId)
  return { formatVersion := .v1_0, nodeId, sequence, timestamp := normalized, previousEventHash,
           eventHash := zeroHash, event, signatureAlgorithm, hashAlgorithm, keyId,
           signature := [], signatureBytes := [] }

end Models

end IcsDeception
