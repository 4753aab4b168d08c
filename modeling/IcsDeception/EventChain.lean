import IcsDeception.Models

/-!
# The hash chain of a node

The node-bound genesis value, the hash of an envelope, and the cursor that the
verifier moves along a chain.
-/

namespace IcsDeception

open Text

namespace EventChain

/-- `GENESIS_DOMAIN`. -/
def genesisDomain : Bytes := Utf8.encodeAll (lit "ics-deception/pqc-evidence/genesis/v1/")

/-- `FIRST_SEQUENCE`. -/
def firstSequence : Int := 1

/-- `genesis_previous_hash`. -/
def genesisPreviousHash (py : Interp) (nodeId : Str) : Except Exn Str :=
  match Utf8.encode nodeId with
  | none => .error .unicodeEncode
  | some b => .ok (py.sha3_256 (genesisDomain ++ b))

/-- `expected_previous_hash`. -/
def expectedPreviousHash (py : Interp) (nodeId : Str) (sequence : Int)
    (lastEventHash : Option Str) : Except Exn Str :=
  if sequence = firstSequence then genesisPreviousHash py nodeId
  else
    match lastEventHash with
    | none => .error .valueError
    | some h => .ok h

/-- `compute_event_hash`. -/
def computeEventHash (py : Interp) (e : SignedEvent) : Except Exn Str := do
  let payload ← e.hashPayload
  return py.sha3_256 payload

/-- `ChainPosition`. The node is the key under which the cursor is kept. -/
structure ChainPosition where
  lastSequence : Int
  lastEventHash : Option Str
  deriving DecidableEq

/-- The cursor of a chain without events. -/
def ChainPosition.start : ChainPosition := ⟨0, none⟩

/-- `ChainPosition.next_sequence`. -/
def ChainPosition.nextSequence (p : ChainPosition) : Int := p.lastSequence + 1

/-- `ChainPosition.advance` with the recomputed hash. -/
def ChainPosition.advance (e : SignedEvent) (hash : Str) : ChainPosition := ⟨e.sequence, some hash⟩

end EventChain

end IcsDeception
