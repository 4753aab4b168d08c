import IcsDeception.StateStore
import IcsDeception.Disk

/-!
# The evidence store

The component that owns the lock, the journal, the log and the chain state of a node:
opening with recovery, the append transaction, and the administrative repair.

## Implementation notes

A store object keeps the state that it has read or written last, across sessions. The
methods below run on that object and on the disk; the pure parts (what a journal says,
what a log ends with) are functions of the bytes.
-/

namespace IcsDeception

open Text Json Calendar

/-- `RecoveryReport.action`. -/
inductive Action
  | none
  | discardedUnreadableJournal
  | discardedForeignJournal
  | completedCommit
  | alreadyCommitted
  | rolledBackPartialAppend
  | adoptedLogTail
  deriving DecidableEq

/-- The text of an action. -/
def Action.text : Action → Str
  | .none => lit "none"
  | .discardedUnreadableJournal => lit "discarded_unreadable_journal"
  | .discardedForeignJournal => lit "discarded_foreign_journal"
  | .completedCommit => lit "completed_commit"
  | .alreadyCommitted => lit "already_committed"
  | .rolledBackPartialAppend => lit "rolled_back_partial_append"
  | .adoptedLogTail => lit "adopted_log_tail"

/-- `RecoveryReport`, without the detail text and the path of the copy put aside. -/
structure RecoveryReport where
  journalFound : Bool
  action : Action
  sequence : Option Int
  bytesDiscarded : Nat
  deriving DecidableEq

/-- `RecoveryReport()`. -/
def RecoveryReport.start : RecoveryReport := ⟨false, .none, none, 0⟩

/-- A record of the log, as far as the store reads it. -/
structure Logged where
  sequence : Int
  eventHash : Str
  deriving DecidableEq

/-- `EvidenceStore`: the fields of an object. -/
structure EvidenceStore where
  nodeId : Str
  keyId : Str
  lockHeld : Bool
  state : Option NodeState
  lastRecovery : Option RecoveryReport

/-- A method of the store. -/
abbrev StoreM (α : Type) : Type := Method Fs Exn EvidenceStore α

namespace EvidenceStore

open Method NodeState

/-- `MAX_JOURNAL_BYTES`. -/
def maxJournalBytes : Nat := 1048576

/-- `EvidenceStore(state_path, evidence_path, node_id, key_id)`. -/
def create (nodeId keyId : Str) : EvidenceStore := ⟨nodeId, keyId, false, none, none⟩

/-- Make a system call. -/
def sys (c : Op) : StoreM c.Result := call c

section Locking

/-- `EvidenceStore.acquire`. -/
def acquire : StoreM Unit := do
  let o ← self
  if o.lockHeld then return ()
  else
    sys .lock
    modify fun o => { o with lockHeld := true }

/-- `EvidenceStore.release`. -/
def release : StoreM Unit := do
  let o ← self
  if o.lockHeld then
    modify fun o => { o with lockHeld := false }
    sys .unlock
  else return ()

/-- `EvidenceStore._require_lock`. -/
def requireLock : StoreM Unit := do
  let o ← self
  if o.lockHeld then return () else raise .evidenceStore

end Locking

section State

/-- Keep a state as the last one known. -/
def remember (st : NodeState) : StoreM NodeState := do
  modify fun o => { o with state := some st }
  return st

/-- `EvidenceStore.read_state`. -/
def readState (py : Interp) : StoreM NodeState := do
  requireLock
  let o ← self
  match o.state with
  | some st => return st
  | none =>
      match ← attempt (sys .readState) with
      | .error _ => raise .stateCorruption
      | .ok none => remember (zero o.nodeId o.keyId)
      | .ok (some b) =>
          let st ← ofExcept (ofFile py o.nodeId b)
          remember st

/-- `EvidenceStore._write_state`. -/
def writeState (py : Interp) (st : NodeState) : StoreM Unit := do
  let time ← sys .now
  let b ← ofExcept (fileBytes py st time)
  sys (.replaceState b)
  modify fun o => { o with state := some st }

end State

section Log

/-- A complete record of the node in a line's value. -/
def loggedOf (nodeId : Str) : Value → Option Logged
  | .dict kvs =>
      match kvs.lookup (.str (lit "node_id")), kvs.lookup (.str (lit "sequence")),
        kvs.lookup (.str (lit "event_hash")) with
      | some (.str n), some (.int i), some (.str h) => if n = nodeId then some ⟨i, h⟩ else none
      | some (.str n), some (.bool b), some (.str h) =>
          if n = nodeId then some ⟨if b then 1 else 0, h⟩ else none
      | _, _, _ => none
  | _ => none

/-- One round of the loop over the lines. -/
def scanLine (py : Interp) (nodeId : Str) (last : Option Logged) (line : Str) :
    Except Exn (Option Logged) :=
  if strip line = [] then .ok last
  else
    match loads py.jsonLimit (strip line) with
    | .error .recursion => .error .recursion
    | .error _ => .ok last
    | .ok v => .ok ((loggedOf nodeId v).or last)

/-- The lines of a log opened as text with replacement of what is not UTF-8. -/
def logLines (b : Bytes) : List Str := splitLines (universalNewlines (Utf8.decodeReplace b))

/-- The last complete record of a node in the bytes of a log. -/
def scanLog (py : Interp) (nodeId : Str) (b : Bytes) : Except Exn (Option Logged) :=
  (logLines b).foldlM (scanLine py nodeId) none

/-- `EvidenceStore._last_logged_record`. -/
def lastLoggedRecord (py : Interp) : StoreM (Option Logged) := do
  let o ← self
  match ← attempt (sys .readLog) with
  | .error _ => raise .evidenceStore
  | .ok none => return none
  | .ok (some b) => ofExcept (scanLog py o.nodeId b)

/-- `EvidenceStore._last_logged_sequence`. -/
def lastLoggedSequence (py : Interp) : StoreM (Option Int) := do
  let record ← lastLoggedRecord py
  return record.map Logged.sequence

/-- Whether an exception is an `OSError`. -/
def isOsError : Exn → Bool
  | .osError => true
  | _ => false

/-- `EvidenceStore._truncate_evidence`. -/
def truncateEvidence (offset : Int) : StoreM Unit := sys (.truncateLog offset)

/-- `EvidenceStore._preserve_tail`, of which only the reading can raise. -/
def preserveTail (offset : Int) (length : Nat) : StoreM Unit :=
  suppress isOsError do
    let _ ← sys (.readLogAt offset length)

/-- The size of the log, zero when there is no file. -/
def logSize : StoreM Nat := do
  let size ← sys .statLog
  return size.getD 0

end Log

section Journal

/-- `EvidenceStore._drop_journal`. -/
def dropJournal : StoreM Unit := suppress isOsError (sys .unlinkJournal)

/-- What recovery uses of a journal entry. -/
structure JournalEntry where
  sequence : Int
  offset : Int
  line : Str
  eventHash : Str
  keyId : Value

/-- What a journal file is. -/
inductive Journal
  | unreadable
  | foreign
  | entry (e : JournalEntry)

/-- The fields that a journal entry must have. -/
def requiredFields : List Str :=
  [lit "sequence", lit "event_hash", lit "offset", lit "record", lit "node_id"]

/-- Whether a value can be an element of a set. -/
def hashable : Value → Bool
  | .list _ => false
  | .dict _ => false
  | _ => true

/-- Whether a value is a given text. -/
def isText (s : Str) : Value → Bool
  | .str t => t = s
  | _ => false

/-- What the value in a journal file says to a node. A value that is not a dictionary
raises, unless it is a text or a list without the names of the required fields. -/
def journalOf (py : Interp) (nodeId : Str) : Value → Except Exn Journal
  | .dict kvs =>
      if (requiredFields.all fun f => (kvs.lookup (.str f)).isSome) ∧
          isText nodeId (Models.field kvs "node_id") then do
        let sequence ← py.intOf (Models.field kvs "sequence")
        let offset ← py.intOf (Models.field kvs "offset")
        return .entry ⟨sequence, offset, py.textOf (Models.field kvs "record") ++ [lf],
          py.textOf (Models.field kvs "event_hash"), Models.field kvs "key_id"⟩
      else .ok .foreign
  | .str _ => .ok .foreign
  | .list xs =>
      if xs.all hashable then
        if requiredFields.all fun f => xs.any (isText f) then .error .attributeError
        else .ok .foreign
      else .error .typeError
  | _ => .error .typeError

/-- What the bytes of a journal file say to a node. -/
def readJournal (py : Interp) (nodeId : Str) (b : Bytes) : Except Exn Journal :=
  if maxJournalBytes < b.length then .error .stateCorruption
  else do
    match ← readJson py b with
    | .unreadable => return .unreadable
    | .value v => journalOf py nodeId v

/-- A text as bytes. -/
def encoded (s : Str) : Except Exn Bytes :=
  match Utf8.encode s with
  | none => .error .unicodeEncode
  | some b => .ok b

/-- `value or self.key_id or state.key_id`. -/
def chooseKey (py : Interp) (v : Value) (own : Str) (st : NodeState) : Value :=
  if py.truth v then v else if own = [] then st.keyId else .str own

/-- Finish the transaction of a journal whose record is in the log. -/
def completeCommit (py : Interp) (e : JournalEntry) : StoreM RecoveryReport := do
  let o ← self
  let st ← readState py
  if st.lastSequence < e.sequence then
    writeState py ⟨o.nodeId, chooseKey py e.keyId o.keyId st, e.sequence, some e.eventHash⟩
    dropJournal
    return ⟨true, .completedCommit, some e.sequence, 0⟩
  else
    dropJournal
    return ⟨true, .alreadyCommitted, some e.sequence, 0⟩

/-- `if discarded: self._preserve_tail(offset, discarded)`. -/
def preserveDiscarded (offset : Int) (discarded : Nat) : StoreM Unit :=
  if discarded = 0 then return () else preserveTail offset discarded

/-- Cut the log back to the offset of a journal whose record is not in the log. -/
def undoAppend (e : JournalEntry) (size : Nat) : StoreM RecoveryReport := do
  let discarded := (size - e.offset).toNat
  preserveDiscarded e.offset discarded
  truncateEvidence e.offset
  dropJournal
  return ⟨true, .rolledBackPartialAppend, some e.sequence, discarded⟩

/-- `EvidenceStore._replay_journal` behind the reading of the file. -/
def settle (py : Interp) (e : JournalEntry) : StoreM RecoveryReport := do
  let size ← logSize
  let line ← ofExcept (encoded e.line)
  if e.offset + line.length ≤ size then
    let written ← sys (.readLogAt e.offset line.length)
    if written = line then completeCommit py e else undoAppend e size
  else undoAppend e size

/-- Remove a journal that says nothing to this node. -/
def discardJournal (action : Action) : StoreM RecoveryReport := do
  dropJournal
  return ⟨true, action, none, 0⟩

/-- `EvidenceStore._replay_journal`. -/
def replayJournal (py : Interp) (b : Bytes) : StoreM RecoveryReport := do
  let o ← self
  match ← ofExcept (readJournal py o.nodeId b) with
  | .unreadable => discardJournal .discardedUnreadableJournal
  | .foreign => discardJournal .discardedForeignJournal
  | .entry e => settle py e

end Journal

section Recovery

/-- `report.action or "adopted_log_tail"`. -/
def RecoveryReport.adopted (report : RecoveryReport) : RecoveryReport :=
  if report.action.text = [] then { report with action := .adoptedLogTail } else report

/-- `EvidenceStore._check_state_against_log`. -/
def checkStateAgainstLog (py : Interp) (report : RecoveryReport) : StoreM RecoveryReport := do
  let o ← self
  let st ← readState py
  if st.lastSequence = 0 then return report
  else
    match ← lastLoggedSequence py with
    | none => raise .stateDivergence
    | some n =>
        if n < st.lastSequence then raise .stateDivergence
        else if st.lastSequence < n then
          match ← lastLoggedRecord py with
          | none => return report
          | some tail =>
              writeState py ⟨o.nodeId, chooseKey py .null o.keyId st, tail.sequence,
                some tail.eventHash⟩
              return RecoveryReport.adopted report
        else return report

/-- `if self.journal_path.is_file(): report = self._replay_journal()`. -/
def replayIfPresent (py : Interp) : StoreM RecoveryReport := do
  match ← attempt (sys .readJournal) with
  | .error _ => discardJournal .discardedUnreadableJournal
  | .ok none => return RecoveryReport.start
  | .ok (some b) => replayJournal py b

/-- `EvidenceStore.recover`. -/
def recover (py : Interp) : StoreM RecoveryReport := do
  requireLock
  let report ← replayIfPresent py
  let report ← checkStateAgainstLog py report
  modify fun o => { o with lastRecovery := some report }
  return report

/-- `EvidenceStore.__enter__`. -/
def enter (py : Interp) : StoreM Unit := do
  acquire
  let _ ← recover py

/-- `EvidenceStore.__exit__`. -/
def exit : StoreM Unit := release

end Recovery

section Transaction

/-- `build_and_sign`: a record line and its hash for a sequence and a previous hash. -/
abbrev Build : Type := Int → Str → Except Exn (Str × Str)

/-- The journal entry of an append. -/
def journalMembers (nodeId keyId : Str) (sequence : Int) (eventHash : Str) (offset : Nat)
    (record : Str) (writtenAt : Str) : List (Str × Value) :=
  [(lit "node_id", .str nodeId),
   (lit "key_id", .str keyId),
   (lit "sequence", .int sequence),
   (lit "event_hash", .str eventHash),
   (lit "offset", .int offset),
   (lit "record", .str record),
   (lit "written_at", .str writtenAt)]

/-- What the writer has put out when a member cannot be written. -/
def writtenBefore : List (Str × Value) → Str
  | [] => []
  | (k, v) :: rest =>
      quote true k ++ lit ": " ++
        match dump Style.default 1 v with
        | .error _ => []
        | .ok t => t ++ lit ", " ++ writtenBefore rest

/-- `key_id or self.key_id`. -/
def ownKey (keyId : Option Str) (own : Str) : Str :=
  match keyId with
  | none => own
  | some k => if k = [] then own else k

/-- `EvidenceStore._write_journal`. -/
def writeJournal (py : Interp) (sequence : Int) (eventHash : Str) (offset : Nat) (record : Str)
    (keyId : Option Str) : StoreM Unit := do
  let o ← self
  let time ← sys .now
  let members := journalMembers o.nodeId (ownKey keyId o.keyId) sequence eventHash offset record
    (time.text py.padYears ++ [cp 'Z'])
  sys .createJournal
  match dump Style.default 0 (Value.ofMembers members) with
  | .ok text =>
      match ← attempt (sys (.writeJournal (Utf8.encodeAll text))) with
      | .ok () => return ()
      | .error .osError => raise .transactionAborted
      | .error e => raise e
  | .error _ =>
      -- the entry is written piece by piece, so what precedes the number stays in the file
      sys (.writeJournal (Utf8.encodeAll (cp '{' :: writtenBefore members)))
      raise .valueError

/-- `EvidenceStore._rollback`. -/
def rollback (offset : Nat) : StoreM Unit := do
  suppress isOsError do
    match ← sys .statLog with
    | none => return ()
    | some size => if offset < size then truncateEvidence offset else return ()
  dropJournal

/-- The position that the next record takes and the hash it links to. -/
def allocate (py : Interp) : StoreM (NodeState × Int × Str) := do
  let o ← self
  requireLock
  let st ← readState py
  let previous ← ofExcept
    (EventChain.expectedPreviousHash py o.nodeId (st.lastSequence + 1) st.lastEventHash)
  return (st, st.lastSequence + 1, previous)

/-- The size of the log, which is created when it does not exist. -/
def logOffset : StoreM Nat := do
  match ← sys .statLog with
  | none => sys .createLog
  | some _ => pure ()
  match ← sys .statLog with
  | none => raise .osError
  | some size => return size

/-- Append the record, or undo the append and abort. -/
def appendPayload (offset : Nat) (payload : Bytes) : StoreM Unit := do
  match ← attempt (sys (.appendLog payload)) with
  | .ok () => return ()
  | .error .osError =>
      rollback offset
      raise .transactionAborted
  | .error e => raise e

/-- Commit the state, or abort and leave the journal to recovery. -/
def commitState (py : Interp) (st : NodeState) : StoreM Unit := do
  match ← attempt (writeState py st) with
  | .ok () => return ()
  | .error .osError => raise .transactionAborted
  | .error e => raise e

/-- `EvidenceStore.append_signed`. -/
def appendSigned (py : Interp) (build : Build) (keyId : Option Str) : StoreM (Int × Str) := do
  let (st, sequence, previous) ← allocate py
  let (record, eventHash) ← ofExcept (build sequence previous)
  let offset ← logOffset
  writeJournal py sequence eventHash offset record keyId
  let payload ← ofExcept (encoded (record ++ [lf]))
  appendPayload offset payload
  let o ← self
  commitState py ⟨o.nodeId, chooseKey py (optionalText keyId) o.keyId st, sequence,
    some eventHash⟩
  dropJournal
  return (sequence, eventHash)

end Transaction

section Administrative

/-- The position of the committed state, zero when the state cannot be read. -/
def currentSequence (py : Interp) : StoreM Int := do
  match ← attempt (readState py) with
  | .ok st => return st.lastSequence
  | .error .stateCorruption => return 0
  | .error .stateDivergence => return 0
  | .error e => raise e

/-- `EvidenceStore.repair_from_log`. -/
def repairFromLog (py : Interp) : StoreM NodeState := do
  let o ← self
  requireLock
  let tail ← lastLoggedRecord py
  let current ← currentSequence py
  let repaired ← (match tail with
    | none =>
        if current ≠ 0 then raise .stateDivergence else pure (zero o.nodeId o.keyId)
    | some r => pure ⟨o.nodeId, .str o.keyId, r.sequence, some r.eventHash⟩)
  modify fun o => { o with state := none }
  writeState py repaired
  return repaired

end Administrative

end EvidenceStore

end IcsDeception
