import IcsDeception.Registry
import IcsDeception.Collector

/-!
# Encrypted archives

Sealing an evidence file into a container with a manifest, and the way back: reading the
container, decrypting it under the key that the manifest leads to, and the report of what
was verified. The manifest is the additional authenticated data of the cipher, rebuilt from
the fields that were read.

## Implementation notes

The container library, the compressor, HMAC, the KEM and AES-GCM are parameters. A file
of the container is the list of its entries as the library shows them. The passes of the
creation over the evidence file each read a content of their own. Destination files and
temporary files are left out: decryption returns the plaintext.
-/

namespace IcsDeception

open Text Json Calendar Canonicalizer

/-- The codes of `ArchiveError`. -/
inductive ArchiveCode
  | badManifest
  | badLimit
  | internalError
  | unsupportedVersion
  | unsupportedAlgorithm
  | registryRequired
  | oversized
  | evidenceRejected
  | nodeMismatch
  | duplicateEntry
  | unexpectedEntry
  | truncated
  | pathTraversal
  | authenticationFailed
  | corrupt
  | decompressionBomb
  | digestMismatch
  | notFound
  | destinationExists
  deriving DecidableEq

/-- The exceptions of the archive functions. -/
inductive ArchiveExn
  /-- `ArchiveError`. -/
  | archive (code : ArchiveCode)
  /-- `zipfile.BadZipFile`. -/
  | badZipFile
  /-- Any other exception. -/
  | passed (e : Exn)
  deriving DecidableEq

/-- An exception of the rest of the package, passed on. -/
def ArchiveExn.lift {α : Type} : Except Exn α → Except ArchiveExn α
  | .ok a => .ok a
  | .error e => .error (.passed e)

/-- A check that raises `ArchiveError`. -/
def archiveCheck (condition : Bool) (code : ArchiveCode) : Except ArchiveExn Unit :=
  if condition then .ok () else .error (.archive code)

/-- What the archive functions take from the libraries they call. -/
structure ArchiveCrypto where
  /-- `hmac.new(key, message, sha256).digest()`. -/
  hmacSha256 : Bytes → Bytes → Bytes
  /-- AES-256-GCM encryption by key, nonce, additional data and plaintext: body and tag. -/
  encrypt : Bytes → Bytes → Bytes → Bytes → Bytes × Bytes
  /-- AES-256-GCM decryption by key, nonce, additional data, body and tag. -/
  decrypt : Bytes → Bytes → Bytes → Bytes → Bytes → Option Bytes
  /-- `gzip` compression. -/
  compress : Bytes → Bytes
  /-- `zlib` decompression: the output before the end or an error, and whether there was an
  error. -/
  decompress : Bytes → Bytes × Bool
  /-- `kem_decapsulate` by private key and encapsulated key. -/
  kemDecapsulate : Bytes → Bytes → Except Exn Bytes

namespace Archive

/-- `ARCHIVE_FORMAT_VERSION`. -/
def archiveFormatVersion : Str := lit "2.0"

/-- `KEM_ALGORITHM`. -/
def kemAlgorithm : Str := lit "ML-KEM-768"

/-- `KDF_ALGORITHM`. -/
def kdfAlgorithm : Str := lit "HKDF-SHA-256"

/-- `AEAD_ALGORITHM`. -/
def aeadAlgorithm : Str := lit "AES-256-GCM"

/-- `MANIFEST_ENTRY`. -/
def manifestEntry : Str := lit "manifest.json"

/-- `CIPHERTEXT_ENTRY`. -/
def ciphertextEntry : Str := lit "evidence.bin"

/-- `HKDF_INFO`. -/
def hkdfInfo : Bytes :=
  Utf8.encodeAll (lit "ics-deception/pqc-evidence/" ++ lit "archive/v2")

/-- `MAX_MANIFEST_BYTES`. -/
def maxManifestBytes : Nat := 64 * 1024

/-- `GCM_TAG_BYTES`. -/
def gcmTagBytes : Nat := 16

/-- `GCM_NONCE_BYTES`. -/
def gcmNonceBytes : Nat := 12

/-- `HKDF_SALT_BYTES`. -/
def hkdfSaltBytes : Nat := 32

/-- The loop of `_hkdf_sha256`. Each round adds the output of one HMAC; `bytes([counter])`
raises where the counter is not a byte. -/
def hkdfLoop (hmac : Bytes → Bytes → Bytes) (prk info : Bytes) (length : Nat) :
    Nat → Bytes → Bytes → Nat → Except ArchiveExn Bytes
  | 0, okm, _, _ => .ok okm
  | fuel + 1, okm, block, counter =>
      if okm.length < length then
        if 255 < counter then .error (.passed .valueError)
        else
          let block := hmac prk (block ++ info ++ [UInt8.ofNat counter])
          hkdfLoop hmac prk info length fuel (okm ++ block) block (counter + 1)
      else .ok okm

/-- `_hkdf_sha256`. -/
def hkdfSha256 (hmac : Bytes → Bytes → Bytes) (sharedSecret salt info : Bytes) (length : Nat) :
    Except ArchiveExn Bytes := do
  archiveCheck (length ≤ 255 * 32) .internalError
  let prk := hmac salt sharedSecret
  let okm ← hkdfLoop hmac prk info length length [] [] 1
  return okm.take length

/-- `_unb64` of a manifest field. -/
def unb64 (py : Interp) : Value → Except ArchiveExn Bytes
  | .str text =>
      if text = [] then .error (.archive .badManifest)
      else
        match py.b64decode text with
        | none => .error (.archive .badManifest)
        | some b => .ok b
  | _ => .error (.archive .badManifest)

end Archive

/-- `ArchiveManifest`. The fields that `from_dict` does not check keep the value that was
read. -/
structure ArchiveManifest where
  archiveFormatVersion : Str
  nodeId : Value
  keyId : Value
  firstSequence : Int
  lastSequence : Int
  eventCount : Int
  createdAt : Value
  chainFinalHash : Value
  plaintextSha3 : Value
  plaintextLength : Int
  kemAlgorithm : Str
  kdfAlgorithm : Str
  aeadAlgorithm : Str
  encapsulatedKey : Value
  hkdfSalt : Value
  nonce : Value
  ciphertextLength : Int
  evidenceStrictlyVerified : Bool
  metadata : List (Key × Value)

namespace ArchiveManifest

open Archive

/-- `ArchiveManifest.to_dict`. -/
def toDict (m : ArchiveManifest) : List (Str × Value) :=
  [(lit "archive_format_version", .str m.archiveFormatVersion),
   (lit "node_id", m.nodeId),
   (lit "key_id", m.keyId),
   (lit "first_sequence", .int m.firstSequence),
   (lit "last_sequence", .int m.lastSequence),
   (lit "event_count", .int m.eventCount),
   (lit "created_at", m.createdAt),
   (lit "chain_final_hash", m.chainFinalHash),
   (lit "plaintext_sha3_256", m.plaintextSha3),
   (lit "plaintext_length", .int m.plaintextLength),
   (lit "kem_algorithm", .str m.kemAlgorithm),
   (lit "kdf_algorithm", .str m.kdfAlgorithm),
   (lit "aead_algorithm", .str m.aeadAlgorithm),
   (lit "encapsulated_key", m.encapsulatedKey),
   (lit "hkdf_salt", m.hkdfSalt),
   (lit "nonce", m.nonce),
   (lit "ciphertext_length", .int m.ciphertextLength),
   (lit "evidence_strictly_verified", .bool m.evidenceStrictlyVerified),
   (lit "metadata", .dict m.metadata)]

/-- The names of the fields. -/
def fields : List Str :=
  [lit "archive_format_version", lit "node_id", lit "key_id", lit "first_sequence",
   lit "last_sequence", lit "event_count", lit "created_at", lit "chain_final_hash",
   lit "plaintext_sha3_256", lit "plaintext_length", lit "kem_algorithm", lit "kdf_algorithm",
   lit "aead_algorithm", lit "encapsulated_key", lit "hkdf_salt", lit "nonce",
   lit "ciphertext_length", lit "evidence_strictly_verified", lit "metadata"]

/-- The fields that may be missing. -/
def optional : List Str := [lit "metadata", lit "evidence_strictly_verified"]

/-- `ArchiveManifest.authenticated_data`. -/
def authenticatedData (m : ArchiveManifest) : Except Exn Bytes :=
  canonicalBytes (Value.ofMembers m.toDict)

/-- A field that must be a given text. -/
def expect (data : List (Key × Value)) (name : Str) (expected : Str) (code : ArchiveCode) :
    Except ArchiveExn Str :=
  match data.lookup (.str name) with
  | some (.str s) => if s = expected then .ok s else .error (.archive code)
  | _ => .error (.archive code)

/-- A field that must be a non-negative integer. -/
def natural (data : List (Key × Value)) (name : Str) : Except ArchiveExn Int :=
  match data.lookup (.str name) with
  | some (.int i) => if i < 0 then .error (.archive .badManifest) else .ok i
  | _ => .error (.archive .badManifest)

/-- `data.get("metadata") or {}`, which must be an object. -/
def readMetadata (py : Interp) : Option Value → Except ArchiveExn (List (Key × Value))
  | none => .ok []
  | some (.dict kvs) => .ok kvs
  | some v => if py.truth v then .error (.archive .badManifest) else .ok []

/-- `data.get("evidence_strictly_verified", False)`, which must be a boolean. -/
def readStrict : Option Value → Except ArchiveExn Bool
  | none => .ok false
  | some (.bool b) => .ok b
  | some _ => .error (.archive .badManifest)

/-- `ArchiveManifest.from_dict`. -/
def fromDict (py : Interp) : Value → Except ArchiveExn ArchiveManifest
  | .dict data => do
      archiveCheck (data.all fun p => fields.any fun f => p.1 = .str f) .badManifest
      archiveCheck ((fields.filter (· ∉ optional)).all fun f => (data.lookup (.str f)).isSome)
        .badManifest
      let version ← expect data (lit "archive_format_version") Archive.archiveFormatVersion
        .unsupportedVersion
      let kem ← expect data (lit "kem_algorithm") Archive.kemAlgorithm .unsupportedAlgorithm
      let kdf ← expect data (lit "kdf_algorithm") Archive.kdfAlgorithm .unsupportedAlgorithm
      let aead ← expect data (lit "aead_algorithm") Archive.aeadAlgorithm .unsupportedAlgorithm
      let firstSequence ← natural data (lit "first_sequence")
      let lastSequence ← natural data (lit "last_sequence")
      let eventCount ← natural data (lit "event_count")
      let ciphertextLength ← natural data (lit "ciphertext_length")
      let plaintextLength ← natural data (lit "plaintext_length")
      let metadata ← readMetadata py (data.lookup (.str (lit "metadata")))
      let strict ← readStrict (data.lookup (.str (lit "evidence_strictly_verified")))
      return {
        archiveFormatVersion := version
        nodeId := Models.field data "node_id"
        keyId := Models.field data "key_id"
        firstSequence, lastSequence, eventCount
        createdAt := Models.field data "created_at"
        chainFinalHash := Models.field data "chain_final_hash"
        plaintextSha3 := Models.field data "plaintext_sha3_256"
        plaintextLength
        kemAlgorithm := kem
        kdfAlgorithm := kdf
        aeadAlgorithm := aead
        encapsulatedKey := Models.field data "encapsulated_key"
        hkdfSalt := Models.field data "hkdf_salt"
        nonce := Models.field data "nonce"
        ciphertextLength
        evidenceStrictlyVerified := strict
        metadata }
  | _ => .error (.archive .badManifest)

end ArchiveManifest

/-- `ArchiveTrust`, without the warnings and details that only inform. -/
structure ArchiveTrust where
  containerAuthenticated : Bool
  plaintextHashVerified : Bool
  evidenceFormatValid : Bool
  evidenceSignaturesVerified : Bool
  evidenceChainVerified : Bool
  nodeIdentityVerified : Bool
  /-- Whether a failure was recorded. -/
  failed : Bool
  deriving DecidableEq

/-- `ArchiveTrust()`. -/
def ArchiveTrust.start : ArchiveTrust := ⟨false, false, false, false, false, false, false⟩

/-- `ArchiveTrust.fully_verified`. -/
def ArchiveTrust.fullyVerified (t : ArchiveTrust) : Bool :=
  t.containerAuthenticated && t.plaintextHashVerified && t.evidenceFormatValid &&
    t.evidenceSignaturesVerified && t.evidenceChainVerified && t.nodeIdentityVerified

/-- `ArchiveTrust.fail`. -/
def ArchiveTrust.fail (t : ArchiveTrust) : ArchiveTrust := { t with failed := true }

/-- `ArchiveTrust.fail` when a condition holds. -/
def ArchiveTrust.failIf (t : ArchiveTrust) (condition : Bool) : ArchiveTrust :=
  if condition then t.fail else t

namespace Archive

/-! ## Evidence inspection -/

/-- The non-blank lines of a file that is opened as text with lenient decoding. -/
def evidenceLines (content : Bytes) : List Str :=
  ((splitLines (universalNewlines (Utf8.decodeReplace content))).map strip).filter (· ≠ [])

/-- What the scan of an evidence file has seen. -/
structure Scan where
  first : Option Int
  last : Option Int
  finalHash : Str
  count : Nat
  nodes : List Str
  keys : List Str
  /-- Whether a record failed to parse in strict mode. -/
  failed : Bool

/-- The scan before the first line. -/
def Scan.start : Scan := ⟨none, none, [], 0, [], [], false⟩

/-- A line that is not a JSON object. -/
def Scan.unparsable (s : Scan) (strict : Bool) : Scan := { s with failed := s.failed || strict }

/-- The sequence, hash, node and key of a record that is a JSON object. -/
def Scan.note (s : Scan) (record : List (Key × Value)) : Scan :=
  let s :=
    match record.lookup (.str (lit "sequence")) with
    | some (.int i) =>
        { s with first := some (s.first.elim i fun first => min first i),
                 last := some (s.last.elim i fun last => max last i) }
    | _ => s
  let s :=
    match record.lookup (.str (lit "event_hash")) with
    | some (.str hash) => { s with finalHash := hash }
    | _ => s
  let s :=
    match record.lookup (.str (lit "node_id")) with
    | some (.str node) => { s with nodes := s.nodes.insert node }
    | _ => s
  match record.lookup (.str (lit "key_id")) with
  | some (.str key) => { s with keys := s.keys.insert key }
  | _ => s

/-- The body of the first loop of `summarise_evidence`. -/
def scanStep (py : Interp) (strict : Bool) (s : Scan) (text : Str) : Except ArchiveExn Scan :=
  let s := { s with count := s.count + 1 }
  match loads py.jsonLimit text with
  | .error .recursion => .error (.passed .recursion)
  | .error _ => .ok (s.unparsable strict)
  | .ok (.dict record) => .ok (s.note record)
  | .ok _ => .ok (s.unparsable strict)

/-- The first loop of `summarise_evidence`. -/
def scanEvidence (py : Interp) (strict : Bool) (content : Bytes) : Except ArchiveExn Scan :=
  (evidenceLines content).foldlM (scanStep py strict) .start

/-- The summary that `summarise_evidence` returns. -/
structure EvidenceSummary where
  firstSequence : Int
  lastSequence : Int
  eventCount : Nat
  chainFinalHash : Str
  nodes : List Str
  keyIds : List Str
  deriving DecidableEq

/-- `sorted(texts)`. -/
def sorted (texts : List Str) : List Str := texts.insertionSort (· ≤ ·)

/-- The summary of a scan. -/
def Scan.summary (s : Scan) : EvidenceSummary where
  firstSequence := s.first.getD 0
  lastSequence := s.last.getD 0
  eventCount := s.count
  chainFinalHash := s.finalHash
  nodes := sorted s.nodes
  keyIds := sorted s.keys

/-- `signature_alerts`. -/
def signatureAlerts : List Alert :=
  [.invalidSignature, .unknownKey, .unknownNode, .revokedKey, .expiredKey, .unsupportedAlgorithm]

/-- `chain_alerts`. -/
def chainAlerts : List Alert :=
  [.sequenceGap, .previousHashMismatch, .duplicateSequence, .replayedEvent, .chainReset,
   .eventHashMismatch]

/-- Whether none of the alerts is counted in a report. -/
def clearOf (alerts : List Alert) (report : StreamReport) : Bool :=
  alerts.all fun a => (report.alertCounts.lookup a).isNone

/-- `EvidenceCollector(registry, max_record_bytes=MAX_EVIDENCE_BYTES)`. -/
def collectorOf (registry : KeyRegistry) (backend : Backend) : EvidenceCollector where
  verifier := ⟨registry, backend, Models.maxEvidenceBytes, Models.maxEvidenceBytes_pos⟩
  maxResults := 10000
  maxResults_pos := EvidenceCollector.defaultMaxResults_pos

/-- The trust that a report of the collector gives. -/
def trustOf (strict : Bool) (s : Scan) (report : StreamReport) : ArchiveTrust :=
  { ArchiveTrust.start with
      failed := s.failed
      evidenceFormatValid := report.malformed = 0 && 0 < report.total
      evidenceSignaturesVerified := clearOf signatureAlerts report
      evidenceChainVerified := clearOf chainAlerts report
      nodeIdentityVerified := s.nodes.length = 1 && 1 ≤ s.keys.length }
    |>.failIf (strict && report.total = 0)
    |>.failIf (strict && report.malformed ≠ 0)
    |>.failIf (strict && report.failed ≠ 0)
    |>.failIf (strict && 1 < s.nodes.length)

/-- `summarise_evidence`, which reads the file once for the scan and once for the collector. -/
def summariseEvidence (py : Interp) (backend : Backend) (registry : Option KeyRegistry)
    (strict : Bool) (scanned verified : Bytes) :
    Except ArchiveExn (EvidenceSummary × ArchiveTrust) := do
  archiveCheck (!strict || registry.isSome) .registryRequired
  let s ← scanEvidence py strict scanned
  match registry with
  | none => return (s.summary, { ArchiveTrust.start with failed := s.failed })
  | some registry =>
      let report ← ArchiveExn.lift (EvidenceCollector.verifyStream py
        (collectorOf registry backend) ((evidenceLines verified).map .text))
      return (s.summary, trustOf strict s report)

/-! ## The container -/

/-- An entry of a container: its name, its recorded size, and what can be read of it before
its end or a damaged checksum. -/
structure ZipEntry where
  name : Str
  fileSize : Nat
  content : Option Bytes

/-- `archive.read(entry)`. -/
def ZipEntry.read (entry : ZipEntry) : Except ArchiveExn Bytes :=
  match entry.content with
  | none => .error .badZipFile
  | some b => .ok (b.take entry.fileSize)

/-- A file given as an archive: its size, and its entries if it is a container. -/
structure ArchiveFile where
  size : Nat
  entries : Option (List ZipEntry)

/-- `zipfile.ZipFile(source)`. -/
def ArchiveFile.open (file : ArchiveFile) : Except ArchiveExn (List ZipEntry) :=
  match file.entries with
  | none => .error .badZipFile
  | some entries => .ok entries

/-- `archive.getinfo(name)`. -/
def getInfo (entries : List ZipEntry) (name : Str) : Except ArchiveExn ZipEntry :=
  match entries.find? fun e => e.name = name with
  | none => .error (.archive .truncated)
  | some e => .ok e

/-- `os.path.basename(name)`. -/
def baseName (name : Str) : Str := (name.reverse.takeWhile (· ≠ cp '/')).reverse

/-- A plain file name. -/
def plainName (name : Str) : Bool :=
  name = baseName name && name.head? ≠ some (cp '/') && name.head? ≠ some (cp '\\') &&
    !(name.tails.any fun t => (lit "..").isPrefixOf t)

/-- `json.loads(manifest_raw.decode("utf-8"))`. -/
def loadManifest (py : Interp) (raw : Bytes) : Except ArchiveExn Value :=
  match Utf8.decodeStrict raw with
  | none => .error (.archive .badManifest)
  | some text =>
      match loads py.jsonLimit text with
      | .ok v => .ok v
      | .error .decode => .error (.archive .badManifest)
      | .error .digits => .error (.passed .valueError)
      | .error .recursion => .error (.passed .recursion)
      | .error .hook => .error (.passed .valueError)

/-- `_read_manifest_and_open_ciphertext`. -/
def readManifestAndOpenCiphertext (py : Interp) (entries : List ZipEntry)
    (maxArchiveBytes : Int) : Except ArchiveExn (ArchiveManifest × ZipEntry) := do
  let names := entries.map ZipEntry.name
  archiveCheck names.Nodup .duplicateEntry
  archiveCheck (names.all (· ∈ [manifestEntry, ciphertextEntry])) .unexpectedEntry
  archiveCheck ([manifestEntry, ciphertextEntry].all (· ∈ names)) .truncated
  archiveCheck (names.all plainName) .pathTraversal
  let manifestInfo ← getInfo entries manifestEntry
  archiveCheck (manifestInfo.fileSize ≤ maxManifestBytes) .oversized
  let raw ← manifestInfo.read
  let data ← loadManifest py raw
  let manifest ← ArchiveManifest.fromDict py data
  let info ← getInfo entries ciphertextEntry
  archiveCheck ((info.fileSize : Int) ≤ maxArchiveBytes) .oversized
  archiveCheck ((info.fileSize : Int) = manifest.ciphertextLength) .truncated
  archiveCheck (gcmTagBytes ≤ info.fileSize) .truncated
  return (manifest, info)

/-! ## Decryption -/

/-- The first pass of `_stream_decrypt`: the compressed bytes, once they are authenticated. -/
def authenticate (crypto : ArchiveCrypto) (info : ZipEntry) (manifest : ArchiveManifest)
    (aesKey nonce : Bytes) : Except ArchiveExn Bytes := do
  let bodyLength := info.fileSize - gcmTagBytes
  let aad ← ArchiveExn.lift manifest.authenticatedData
  let payload ← info.read
  let body := payload.take bodyLength
  archiveCheck (body.length = bodyLength) .truncated
  let tag := (payload.drop bodyLength).take gcmTagBytes
  archiveCheck (tag.length = gcmTagBytes) .truncated
  match crypto.decrypt aesKey nonce aad body tag with
  | none => .error (.archive .authenticationFailed)
  | some compressed => .ok compressed

/-- The second pass of `_stream_decrypt`: the plaintext, within its limit. -/
def decompress (crypto : ArchiveCrypto) (compressed : Bytes) (maxPlaintextBytes : Int) :
    Except ArchiveExn Bytes := do
  let (plaintext, damaged) := crypto.decompress compressed
  archiveCheck ((plaintext.length : Int) ≤ maxPlaintextBytes) .decompressionBomb
  archiveCheck (!damaged) .corrupt
  return plaintext

/-- The key and the nonce that `decrypt_archive` derives from a manifest. -/
def deriveKey (py : Interp) (crypto : ArchiveCrypto) (manifest : ArchiveManifest) (privateKey : Bytes) :
    Except ArchiveExn (Bytes × Bytes) := do
  let encapsulated ← unb64 py manifest.encapsulatedKey
  let salt ← unb64 py manifest.hkdfSalt
  let nonce ← unb64 py manifest.nonce
  archiveCheck (nonce.length = gcmNonceBytes) .badManifest
  archiveCheck (salt.length = hkdfSaltBytes) .badManifest
  let sharedSecret ← ArchiveExn.lift (crypto.kemDecapsulate privateKey encapsulated)
  let aesKey ← hkdfSha256 crypto.hmacSha256 sharedSecret salt hkdfInfo 32
  return (aesKey, nonce)

/-- A value that is a given text. -/
def isText (v : Value) (text : Str) : Bool :=
  match v with
  | .str s => s = text
  | _ => false

/-- `_positive`. -/
def positive (limit : Int) : Except ArchiveExn Unit := archiveCheck (0 < limit) .badLimit

/-- `decrypt_archive` up to the authentication: the manifest and the compressed bytes. -/
def openArchive (py : Interp) (crypto : ArchiveCrypto) (file : ArchiveFile) (privateKey : Bytes)
    (maxArchiveBytes maxPlaintextBytes : Int) : Except ArchiveExn (ArchiveManifest × Bytes) := do
  positive maxArchiveBytes
  positive maxPlaintextBytes
  archiveCheck ((file.size : Int) ≤ maxArchiveBytes) .oversized
  let entries ← file.open
  let (manifest, info) ← readManifestAndOpenCiphertext py entries maxArchiveBytes
  let (aesKey, nonce) ← deriveKey py crypto manifest privateKey
  let compressed ← authenticate crypto info manifest aesKey nonce
  return (manifest, compressed)

/-- The body of `decrypt_archive`: the manifest and the plaintext. -/
def decryptBody (py : Interp) (crypto : ArchiveCrypto) (file : ArchiveFile) (privateKey : Bytes)
    (maxArchiveBytes maxPlaintextBytes : Int) : Except ArchiveExn (ArchiveManifest × Bytes) := do
  let (manifest, compressed) ← openArchive py crypto file privateKey maxArchiveBytes
    maxPlaintextBytes
  let plaintext ← decompress crypto compressed maxPlaintextBytes
  archiveCheck (isText manifest.plaintextSha3 (py.sha3_256 plaintext) &&
    (plaintext.length : Int) = manifest.plaintextLength) .digestMismatch
  return (manifest, plaintext)

/-- `decrypt_archive`. A damaged container is an archive that is truncated. -/
def decryptArchive (py : Interp) (crypto : ArchiveCrypto) (file : ArchiveFile)
    (privateKey : Bytes) (maxArchiveBytes maxPlaintextBytes : Int) :
    Except ArchiveExn (ArchiveManifest × Bytes) :=
  match decryptBody py crypto file privateKey maxArchiveBytes maxPlaintextBytes with
  | .error .badZipFile => .error (.archive .truncated)
  | r => r

/-! ## Creation -/

/-- An evidence file during the creation of an archive: its size, and what the scan, the
collector and the compressor read. -/
structure EvidenceFile where
  size : Nat
  scanned : Bytes
  verified : Bytes
  sealed : Bytes

/-- What a creation draws: the result of `kem_encapsulate`, as shared secret and encapsulated
key, the random salt and nonce, and the time. -/
structure Draws where
  encapsulation : Except Exn (Bytes × Bytes)
  salt : Bytes
  salt_length : salt.length = hkdfSaltBytes
  nonce : Bytes
  nonce_length : nonce.length = gcmNonceBytes
  now : Str

/-- The arguments of `create_archive` that describe the archive. -/
structure Request where
  nodeId : Str
  keyId : Str
  requireValidEvidence : Bool
  maxPlaintextBytes : Int
  metadata : List (Key × Value)
  metadata_distinct : (Value.dict metadata).Distinct

/-- The manifest of a creation. -/
def manifestOf (py : Interp) (request : Request) (draws : Draws) (encapsulated : Bytes)
    (summary : EvidenceSummary) (plaintext : Bytes) (compressedLength : Nat) :
    ArchiveManifest where
  archiveFormatVersion := archiveFormatVersion
  nodeId := .str request.nodeId
  keyId := .str request.keyId
  firstSequence := summary.firstSequence
  lastSequence := summary.lastSequence
  eventCount := summary.eventCount
  createdAt := .str draws.now
  chainFinalHash := .str summary.chainFinalHash
  plaintextSha3 := .str (py.sha3_256 plaintext)
  plaintextLength := plaintext.length
  kemAlgorithm := kemAlgorithm
  kdfAlgorithm := kdfAlgorithm
  aeadAlgorithm := aeadAlgorithm
  encapsulatedKey := .str (Base64.encode encapsulated)
  hkdfSalt := .str (Base64.encode draws.salt)
  nonce := .str (Base64.encode draws.nonce)
  ciphertextLength := (compressedLength + gcmTagBytes : Nat)
  evidenceStrictlyVerified := request.requireValidEvidence
  metadata := request.metadata

/-- `json.dumps(manifest.to_dict(), indent=2, sort_keys=True)`, as the bytes of an entry. -/
def manifestBytes (py : Interp) (m : ArchiveManifest) : Except ArchiveExn Bytes :=
  let v := Value.ofMembers m.toDict
  if py.dumpLimit < v.nest then .error (.passed .recursion)
  else
    match dump Style.indented 0 v with
    | .ok text => .ok (Utf8.encodeAll text)
    | .error .tooManyDigits => .error (.passed .valueError)
    | .error .unsupported => .error (.passed .typeError)

/-- An archive as it was sealed: its manifest, its key and nonce, the additional data, and
the entries of the container. -/
structure Sealed where
  manifest : ArchiveManifest
  aesKey : Bytes
  nonce : Bytes
  aad : Bytes
  body : Bytes
  tag : Bytes
  entries : List ZipEntry

/-- The part of `create_archive` after the inspection of the evidence. -/
def sealEvidence (py : Interp) (crypto : ArchiveCrypto) (draws : Draws) (request : Request)
    (summary : EvidenceSummary) (plaintext : Bytes) : Except ArchiveExn Sealed := do
  let (sharedSecret, encapsulated) ← ArchiveExn.lift draws.encapsulation
  let aesKey ← hkdfSha256 crypto.hmacSha256 sharedSecret draws.salt hkdfInfo 32
  archiveCheck ((plaintext.length : Int) ≤ request.maxPlaintextBytes) .oversized
  let compressed := crypto.compress plaintext
  let manifest := manifestOf py request draws encapsulated summary plaintext compressed.length
  let aad ← ArchiveExn.lift manifest.authenticatedData
  let (body, tag) := crypto.encrypt aesKey draws.nonce aad compressed
  let raw ← manifestBytes py manifest
  return {
    manifest, aesKey, aad, body, tag
    nonce := draws.nonce
    entries := [⟨manifestEntry, raw.length, some raw⟩,
      ⟨ciphertextEntry, (body ++ tag).length, some (body ++ tag)⟩] }

/-- `create_archive`, for a source that is a file and a target that may be written. -/
def createArchive (py : Interp) (crypto : ArchiveCrypto) (backend : Backend)
    (registry : Option KeyRegistry) (draws : Draws) (request : Request) (file : EvidenceFile) :
    Except ArchiveExn (Sealed × ArchiveTrust) := do
  positive request.maxPlaintextBytes
  archiveCheck ((file.size : Int) ≤ request.maxPlaintextBytes) .oversized
  let (summary, trust) ← summariseEvidence py backend registry request.requireValidEvidence
    file.scanned file.verified
  archiveCheck (!(request.requireValidEvidence && trust.failed)) .evidenceRejected
  archiveCheck (!request.requireValidEvidence ||
    summary.nodes.head?.all (· = request.nodeId)) .nodeMismatch
  let sealed ← sealEvidence py crypto draws request summary file.sealed
  return (sealed, trust)

/-! ## Verification -/

/-- The report of `verify_archive`. -/
structure ArchiveReport where
  structureValid : Bool
  manifest : Option ArchiveManifest
  trust : ArchiveTrust

/-- Whether the manifest describes the evidence that was found. -/
def describes (m : ArchiveManifest) (summary : EvidenceSummary) : Bool :=
  (summary.nodes.isEmpty || (summary.nodes.length = 1 && summary.nodes.all (isText m.nodeId))) &&
    (summary.eventCount : Int) = m.eventCount && summary.firstSequence = m.firstSequence &&
    summary.lastSequence = m.lastSequence && isText m.chainFinalHash summary.chainFinalHash

/-- The trust in the evidence of a decrypted archive. -/
def inspectTrust (m : ArchiveManifest) (summary : EvidenceSummary) (found trust : ArchiveTrust) :
    ArchiveTrust :=
  let trust := { trust with evidenceFormatValid := found.evidenceFormatValid
                            evidenceSignaturesVerified := found.evidenceSignaturesVerified
                            evidenceChainVerified := found.evidenceChainVerified }
  if describes m summary then
    { trust with nodeIdentityVerified :=
        summary.nodes.length = 1 && summary.nodes.all (isText m.nodeId) }
  else { trust.fail with nodeIdentityVerified := false }

/-- The part of `verify_archive` that needs the private key. -/
def inspectArchive (py : Interp) (crypto : ArchiveCrypto) (backend : Backend)
    (registry : Option KeyRegistry) (file : ArchiveFile) (privateKey : Bytes)
    (maxArchiveBytes maxPlaintextBytes : Int) : Except ArchiveExn ArchiveTrust := do
  match decryptArchive py crypto file privateKey maxArchiveBytes maxPlaintextBytes with
  | .error (.archive _) => return ArchiveTrust.start.fail
  | .error e => .error e
  | .ok (manifest, plaintext) =>
      let trust := { ArchiveTrust.start with containerAuthenticated := true
                                             plaintextHashVerified := true }
      match registry with
      | none => return trust
      | some registry =>
          match summariseEvidence py backend (some registry) false plaintext plaintext with
          | .error (.archive _) => return trust.fail
          | .error e => .error e
          | .ok (summary, found) => return inspectTrust manifest summary found trust

/-- `verify_archive`. -/
def verifyArchive (py : Interp) (crypto : ArchiveCrypto) (backend : Backend)
    (registry : Option KeyRegistry) (file : ArchiveFile) (privateKey : Option Bytes)
    (maxArchiveBytes maxPlaintextBytes : Int) : Except ArchiveExn ArchiveReport := do
  match file.open.bind (readManifestAndOpenCiphertext py · maxArchiveBytes) with
  | .error (.archive _) => return ⟨false, none, ArchiveTrust.start.fail⟩
  | .error .badZipFile => return ⟨false, none, ArchiveTrust.start.fail⟩
  | .error (.passed .osError) => return ⟨false, none, ArchiveTrust.start.fail⟩
  | .error (.passed e) => .error (.passed e)
  | .ok (manifest, _) =>
      match privateKey with
      | none => return ⟨true, some manifest, ArchiveTrust.start⟩
      | some privateKey => do
          let trust ← inspectArchive py crypto backend registry file privateKey maxArchiveBytes
            maxPlaintextBytes
          return ⟨true, some manifest, trust⟩

end Archive

end IcsDeception
