import IcsDeception.EvidenceStore

/-!
# The evidence signer

Building and signing a record, and the operations that sign one event, many events, or
the lines of a log, each inside one session of a store.

## Implementation notes

The backend with its private key is a function from a payload to a signature. A signed
record is returned by its sequence and hash; the record itself stands in the log.
-/

namespace IcsDeception

open Text Json Calendar Method

/-- `EvidenceSigner`. -/
structure EvidenceSigner where
  nodeId : Str
  keyId : Str
  algorithm : Str
  hashAlgorithm : Str
  /-- `backend.sign(private_key, payload, algorithm)`. -/
  sign : Bytes → Except Exn Bytes

/-- `SigningReport`, without the fields that only repeat the signer. -/
structure SigningReport where
  signed : Nat
  skipped : Nat
  errors : Nat
  firstSequence : Option Int
  lastSequence : Option Int
  deriving DecidableEq

namespace SigningReport

/-- `SigningReport()`. -/
def start : SigningReport := ⟨0, 0, 0, none, none⟩

/-- The report after one more signed record. -/
def note (r : SigningReport) (sequence : Int) : SigningReport :=
  { r with
    signed := r.signed + 1
    firstSequence := r.firstSequence.or (some sequence)
    lastSequence := some sequence }

end SigningReport

namespace EvidenceSigner

open EvidenceStore

variable (py : Interp) (s : EvidenceSigner)

/-- `EvidenceSigner.store`. -/
def store : EvidenceStore := EvidenceStore.create s.nodeId s.keyId

/-- An exception of the signing step: a `BackendError` passes, any other is a `SignerError`. -/
def asSignerError {α : Type} : Except Exn α → Except Exn α
  | .ok a => .ok a
  | .error .backend => .error .backend
  | .error _ => .error .signer

/-- `EvidenceSigner._build_and_sign`. -/
def buildAndSign (event : Value) (timestamp : Str) (sequence : Int) (previousHash : Str) :
    Except Exn SignedEvent := do
  let unsigned ← Models.buildUnsigned py s.nodeId sequence timestamp previousHash event s.keyId
    s.algorithm s.hashAlgorithm
  let hash ← EventChain.computeEventHash py unsigned
  let envelope := unsigned.withEventHash hash
  let raw ← asSignerError (envelope.signingPayload >>= s.sign)
  if raw = [] then .error .signer
  else return envelope.withSignature (Base64.encode raw) raw

/-- The function that `_transact` hands to the store. -/
def builder (event : Value) (timestamp : Str) : Build := fun sequence previousHash => do
  let record ← s.buildAndSign py event timestamp sequence previousHash
  let line ← record.toJsonLine
  return (line, record.eventHash)

/-- `EvidenceSigner._transact`. -/
def transact (event : Value) (timestamp : Str) : StoreM (Int × Str) :=
  appendSigned py (s.builder py event timestamp) (some s.keyId)

/-- `with store: ...`. -/
def session {α : Type} (body : StoreM α) : StoreM α := do
  enter py
  let r ← attempt body
  exit
  ofExcept r

/-- `timestamp or datetime.now(timezone.utc).isoformat()`. -/
def momentOf (timestamp : Option Str) : StoreM Str := do
  let now ← sys .now
  match timestamp with
  | none => return now.isoformat
  | some t => if t = [] then return now.isoformat else return t

/-- `EvidenceSigner.sign_event`. -/
def signEvent (event : Value) (timestamp : Option Str) : StoreM (Int × Str) := do
  let moment ← momentOf timestamp
  session py (s.transact py event moment)

/-- The loop of `sign_events`. -/
def signEach : List Value → StoreM (List (Int × Str))
  | [] => return []
  | event :: rest => do
      let now ← sys .now
      let r ← s.transact py event now.isoformat
      let rs ← signEach rest
      return r :: rs

/-- `EvidenceSigner.sign_events`, run to its end. -/
def signEvents (events : List Value) : StoreM (List (Int × Str)) := session py (s.signEach py events)

/-- The loop of `sign_log` over the lines of its source. -/
def signLines (maxEvents : Option Nat) : List Str → Nat → SigningReport → StoreM SigningReport
  | [], _, report => return report
  | line :: rest, count, report =>
      if strip line = [] then
        signLines maxEvents rest count { report with skipped := report.skipped + 1 }
      else if maxEvents.any (· ≤ count) then return report
      else
        match loads py.jsonLimit (strip line) with
        | .error .recursion => raise .recursion
        | .error _ => signLines maxEvents rest count { report with errors := report.errors + 1 }
        | .ok (.dict kvs) => do
            let now ← sys .now
            let r ← s.transact py (.dict kvs) now.isoformat
            signLines maxEvents rest (count + 1) (report.note r.1)
        | .ok _ => signLines maxEvents rest count { report with errors := report.errors + 1 }

/-- `EvidenceSigner.sign_log`. -/
def signLog (source : List Str) (maxEvents : Option Nat) : StoreM SigningReport :=
  session py (s.signLines py maxEvents source 0 .start)

/-- `EvidenceSigner.repair_state_from_log`, on the store that it makes. -/
def repairStateFromLog : StoreM NodeState := do
  acquire
  let r ← attempt (do
    suppress (fun _ => true) (do let _ ← recover py)
    repairFromLog py)
  release
  ofExcept r

end EvidenceSigner

end IcsDeception
