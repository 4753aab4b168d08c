import IcsDeception.FailingAppend
import IcsDeception.Lib.TextFile
import IcsDeception.RecoveryOutcome

/-!
# A failed append and its rollback

An append that raises when some bytes of its record are in the log, and a rollback whose own
calls may fail too. What the two leave on the disk, whether the next open restores the log,
and whether the record behind it gets a line of its own.

## Implementation notes

Only the append and the calls of its rollback fail here. The size of the log is read in the
rollback and before it, and only the rollback finds a journal on the disk.
-/

namespace IcsDeception

open Text Json Calendar Method NodeState

/-! ## The world -/

/-- What becomes of the call that cuts the log. -/
inductive Cutting
  | made
  /-- The log is cut and the flushing fails. -/
  | unflushed
  | refused
  deriving DecidableEq

/-- How an append and its rollback fail. -/
structure Failures where
  /-- The bytes of the record that are in the log when the append raises. -/
  written : Nat
  /-- Whether the rollback can read the size of the log. -/
  sized : Bool
  cutting : Cutting
  /-- Whether the journal can be removed. -/
  unlinked : Bool
  /-- The time at which the journal is written. -/
  clock : Instant

namespace Failures

/-- What a call answers. -/
def answer (f : Failures) (limit : Nat) : (c : Op) → Disk → Except Exn c.Result × Disk
  | .appendLog b, d => (.error .osError, d.extend (b.take f.written))
  | .statLog, d =>
      if d.journal.isSome = true ∧ f.sized = false then (.error .osError, d)
      else Disk.handle limit f.clock .statLog d
  | .truncateLog offset, d =>
      match f.cutting with
      | .made => d.truncate limit offset
      | .unflushed => (.error .osError, (d.truncate limit offset).2)
      | .refused => (.error .osError, d)
  | .unlinkJournal, d =>
      if f.unlinked then Disk.handle limit f.clock .unlinkJournal d else (.error .osError, d)
  | c, d => Disk.handle limit f.clock c d

/-- The world in which an append fails like this. -/
def world (f : Failures) (limit : Nat) : World Fs Disk where
  answers c d r d' := f.answer limit c d = (r, d')
  tears _ _ _ := False

/-- The rollback cuts the log. -/
def Cuts (f : Failures) : Prop := f.sized = true ∧ f.cutting ≠ .refused

instance (f : Failures) : Decidable f.Cuts := inferInstanceAs (Decidable (_ ∧ _))

/-- The disk behind a failed append of a payload, from the disk before it and the journal. -/
def leaves (f : Failures) (d : Disk) (payload journal : Bytes) : Disk :=
  { d with
    log := some (if f.Cuts then d.logBytes else d.logBytes ++ payload.take f.written)
    journal := if f.unlinked then none else some journal }

end Failures

namespace EvidenceStore

open Disk

section Failing

variable {py : Interp} {f : Failures} {limit : Nat} {o : EvidenceStore} {d : Disk}

theorem safe_sys_failing {c : Op} {Q : Except Exn c.Result → EvidenceStore → Disk → Prop} :
    (sys c).Safe (f.world limit) (fun _ => True) Q o d ↔
      Q (f.answer limit c d).1 o (f.answer limit c d).2 := by
  constructor
  · intro h
    exact (h.2.2 _ _ rfl).2
  · intro h
    refine ⟨trivial, fun _ _ => trivial, fun r d' hr => ⟨trivial, ?_⟩⟩
    obtain ⟨rfl, rfl⟩ := Prod.mk.inj ((show f.answer limit c d = (r, d') from hr).symm.trans rfl)
    exact h

theorem safe_allocate_failing (hl : o.lockHeld = true) {st : NodeState}
    (hs : loadState py o d = .ok st) {previous : Str}
    (hprevious : EventChain.expectedPreviousHash py o.nodeId (st.lastSequence + 1)
      st.lastEventHash = .ok previous)
    {Q : Except Exn (NodeState × Int × Str) → EvidenceStore → Disk → Prop}
    (h : Q (.ok (st, st.lastSequence + 1, previous)) (o.knowing (.ok st)) d) :
    (allocate py).Safe (f.world limit) (fun _ => True) Q o d := by
  have hread : (readState py).Safe (f.world limit) (fun _ => True)
      (fun r o' d' => r = .ok st ∧ o' = o.knowing (.ok st) ∧ d' = d) o d := by
    simp only [readState, requireLock, safe_bind, safe_self, Then, if_pos hl, safe_pure, true_and]
    rw [loadState] at hs
    cases ho : o.state with
    | some known =>
        rw [ho] at hs
        obtain rfl := Except.ok.inj hs
        exact ⟨trivial, rfl, (knowing_eq_self ho).symm, rfl⟩
    | none =>
        rw [ho] at hs
        dsimp only
        rw [safe_bind, safe_attempt]
        refine safe_sys_failing.mpr ?_
        change Then _ _ _ _ (Except.ok (Except.ok d.state)) o d
        cases hd : d.state with
        | none =>
            rw [hd] at hs
            obtain rfl := Except.ok.inj hs
            exact ⟨trivial, rfl, rfl, rfl⟩
        | some b =>
            rw [hd] at hs
            have hfile : ofFile py o.nodeId b = .ok st := hs
            rw [Then]
            dsimp only
            rw [safe_bind, safe_ofExcept, hfile]
            exact ⟨trivial, trivial, rfl, rfl, rfl⟩
  unfold allocate
  simp only [safe_bind, safe_self, requireLock, Then, if_pos hl, safe_pure, true_and]
  refine hread.weaken fun r o' d' _ ht => ?_
  obtain ⟨rfl, rfl, rfl⟩ := ht
  simp only [Then, safe_bind, safe_ofExcept, hprevious, safe_pure, true_and]
  exact h

/-- The size of the log before the journal is there. -/
theorem safe_logOffset_failing (hj : d.journal = none)
    {Q : Except Exn Nat → EvidenceStore → Disk → Prop}
    (h : Q (.ok d.logBytes.length) o { d with log := some d.logBytes }) :
    logOffset.Safe (f.world limit) (fun _ => True) Q o d := by
  have hstat : ∀ d' : Disk, d'.journal = none →
      f.answer limit .statLog d' = (.ok (d'.log.map List.length), d') := by
    intro d' hd'
    rw [Failures.answer, hd']
    exact if_neg fun hn => Bool.false_ne_true hn.1
  unfold logOffset
  cases hd : d.log with
  | none =>
      have hbytes : d.logBytes = [] := by rw [logBytes, hd]; rfl
      have hcreate : f.answer limit .createLog d = (.ok (), { d with log := some [] }) := by
        change handle limit f.clock .createLog d = _
        rw [handle, hd]
        rfl
      rw [hbytes] at h
      rw [safe_bind]
      refine safe_sys_failing.mpr ?_
      rw [hstat d hj, hd]
      change ((sys .createLog) >>= _).Safe _ _ _ o d
      rw [safe_bind]
      refine safe_sys_failing.mpr ?_
      rw [hcreate, Then, safe_bind]
      refine safe_sys_failing.mpr ?_
      rw [hstat { d with log := some [] } hj]
      exact ⟨trivial, h⟩
  | some b =>
      have hbytes : d.logBytes = b := by rw [logBytes, hd]; rfl
      have hself : { d with log := some b } = d := by rw [← hd]
      rw [hbytes, hself] at h
      rw [safe_bind]
      refine safe_sys_failing.mpr ?_
      rw [hstat d hj, hd]
      change ((sys .statLog) >>= _).Safe _ _ _ o d
      rw [safe_bind]
      refine safe_sys_failing.mpr ?_
      rw [hstat d hj, hd]
      exact ⟨trivial, h⟩

/-- The text of the journal of an append. -/
def journalText (py : Interp) (o : EvidenceStore) (keyId : Option Str) (sequence : Int)
    (eventHash : Str) (offset : Nat) (record : Str) (time : Instant) : Except DumpError Str :=
  dump Style.default 0 (Value.ofMembers (journalMembers o.nodeId (ownKey keyId o.keyId) sequence
    eventHash offset record (time.text py.padYears ++ [cp 'Z'])))

theorem safe_writeJournal_failing {sequence : Int} {eventHash record text : Str} {offset : Nat}
    {keyId : Option Str}
    (htext : journalText py o keyId sequence eventHash offset record f.clock = .ok text)
    {Q : Except Exn Unit → EvidenceStore → Disk → Prop}
    (h : Q (.ok ()) o { d with journal := some (Utf8.encodeAll text) }) :
    (writeJournal py sequence eventHash offset record keyId).Safe (f.world limit)
      (fun _ => True) Q o d := by
  rw [journalText] at htext
  unfold writeJournal
  rw [safe_bind, safe_self]
  refine ⟨trivial, ?_⟩
  rw [Then, safe_bind]
  refine safe_sys_failing.mpr ?_
  change ((sys .createJournal) >>= _).Safe _ _ _ o d
  rw [safe_bind]
  refine safe_sys_failing.mpr ?_
  rw [htext]
  change ((attempt (sys (.writeJournal (Utf8.encodeAll text)))) >>= _).Safe _ _ _ o
    { d with journal := some [] }
  rw [safe_bind, safe_attempt]
  refine safe_sys_failing.mpr ?_
  exact ⟨trivial, h⟩

/-- The journal is dropped where it can be. -/
theorem safe_dropJournal_failing {journal : Bytes} (hj : d.journal = some journal)
    {Q : Except Exn Unit → EvidenceStore → Disk → Prop}
    (h : Q (.ok ()) o { d with journal := if f.unlinked then none else some journal }) :
    dropJournal.Safe (f.world limit) (fun _ => True) Q o d := by
  rw [dropJournal, safe_suppress]
  refine (safe_sys_failing (c := .unlinkJournal)).mpr ?_
  rw [Failures.answer]
  cases hu : f.unlinked with
  | true =>
      rw [hu] at h
      rw [if_pos rfl, handle, hj, Option.isSome_some, if_pos rfl]
      exact h
  | false =>
      have hself : { d with journal := some journal } = d := by rw [← hj]
      rw [hu, if_neg Bool.false_ne_true, hself] at h
      rw [if_neg Bool.false_ne_true]
      exact h

/-- Cutting the log where what was written ends. -/
theorem safe_cut_failing {log p : Bytes} (hlog : d.log = some (log ++ p))
    {Q : Except Exn Unit → EvidenceStore → Disk → Prop}
    (h : ∀ r, forgive isOsError r = .ok () →
      Q r o { d with log := some (if f.cutting = .refused then log ++ p else log) }) :
    (truncateEvidence log.length).Safe (f.world limit) (fun _ => True) Q o d := by
  have hbytes : d.logBytes = log ++ p := by rw [logBytes, hlog]; rfl
  have hcan : CanTruncate limit d log.length := by
    refine ⟨by rw [hlog]; rfl, Int.natCast_nonneg _, .inl ?_⟩
    rw [hbytes, List.length_append]
    omega
  have htruncate : d.truncate limit log.length = (.ok (), { d with log := some log }) := by
    rw [truncate_of_can hcan, truncated, hbytes, Int.toNat_natCast, resize_append_left]
  refine safe_sys_failing.mpr ?_
  rw [Failures.answer]
  cases hc : f.cutting with
  | made =>
      rw [hc] at h
      rw [htruncate]
      exact h _ rfl
  | unflushed =>
      rw [hc] at h
      rw [htruncate]
      exact h _ rfl
  | refused =>
      have hself : { d with log := some (log ++ p) } = d := by rw [← hlog]
      rw [hc, if_pos rfl, hself] at h
      exact h _ rfl

/-- The rollback: what is left of the record in the log, and of the journal. -/
theorem safe_rollback_failing {journal log p : Bytes} (hlog : d.log = some (log ++ p))
    (hj : d.journal = some journal) {Q : Except Exn Unit → EvidenceStore → Disk → Prop}
    (h : Q (.ok ()) o { d with
      log := some (if f.Cuts then log else log ++ p)
      journal := if f.unlinked then none else some journal }) :
    (rollback log.length).Safe (f.world limit) (fun _ => True) Q o d := by
  unfold rollback
  rw [safe_bind, safe_suppress, safe_bind]
  refine safe_sys_failing.mpr ?_
  rw [Failures.answer]
  cases hs : f.sized with
  | false =>
      have hcuts : ¬ f.Cuts := fun hc => Bool.false_ne_true (hs.symm.trans hc.1)
      have hself : { d with log := some (log ++ p) } = d := by rw [← hlog]
      rw [if_neg hcuts] at h
      rw [hj, if_pos ⟨rfl, rfl⟩]
      refine safe_dropJournal_failing hj ?_
      rw [← hself]
      exact h
  | true =>
      have hcuts : f.Cuts ↔ f.cutting ≠ .refused := ⟨fun hc => hc.2, fun hc => ⟨hs, hc⟩⟩
      rw [if_neg fun hn => Bool.noConfusion hn.2, handle, hlog, Option.map_some, Then]
      dsimp only
      split_ifs with hp
      · refine safe_cut_failing hlog fun r hr => ?_
        have hleft : (if f.cutting = .refused then log ++ p else log) =
            if f.Cuts then log else log ++ p := by
          by_cases hc : f.cutting = .refused
          · rw [if_pos hc, if_neg fun h => hcuts.mp h hc]
          · rw [if_neg hc, if_pos (hcuts.mpr hc)]
        rw [hr, Then, hleft]
        exact safe_dropJournal_failing
          (d := { d with log := some (if f.Cuts then log else log ++ p) }) hj h
      · -- nothing was written
        have hnil : p = [] := by
          rw [List.length_append] at hp
          exact List.eq_nil_of_length_eq_zero (by omega)
        have hself : { d with log := some log } = d := by
          rw [← List.append_nil log, ← hnil, ← hlog]
        rw [hnil, List.append_nil, ite_self] at h
        refine ⟨trivial, safe_dropJournal_failing hj ?_⟩
        rw [← hself]
        exact h

/-- A failed append: the exception, and what is left on the disk. -/
theorem safe_appendSigned_failing (hl : o.lockHeld = true) (hj : d.journal = none) {st : NodeState}
    (hs : loadState py o d = .ok st) {build : Build} {keyId : Option Str}
    {previous record eventHash text : Str}
    (hprevious : EventChain.expectedPreviousHash py o.nodeId (st.lastSequence + 1)
      st.lastEventHash = .ok previous)
    (hbuild : build (st.lastSequence + 1) previous = .ok (record, eventHash))
    (hrecord : Scalar record)
    (htext : journalText py o keyId (st.lastSequence + 1) eventHash d.logBytes.length record
      f.clock = .ok text)
    {Q : Except Exn (Int × Str) → EvidenceStore → Disk → Prop}
    (h : Q (.error .transactionAborted) (o.knowing (.ok st))
      (f.leaves d (Utf8.encodeAll (record ++ [lf])) (Utf8.encodeAll text))) :
    (appendSigned py build keyId).Safe (f.world limit) (fun _ => True) Q o d := by
  have hpayload : encoded (record ++ [lf]) = .ok (Utf8.encodeAll (record ++ [lf])) := by
    rw [encoded, Utf8.encode_of_scalar (scalar_append.mpr ⟨hrecord, by decide⟩)]
  unfold appendSigned
  rw [safe_bind]
  refine safe_allocate_failing hl hs hprevious ?_
  rw [Then]
  dsimp only
  rw [safe_bind, safe_ofExcept, hbuild]
  refine ⟨trivial, ?_⟩
  rw [Then]
  dsimp only
  rw [safe_bind]
  refine safe_logOffset_failing hj ?_
  rw [Then, safe_bind]
  have htext' : journalText py (o.knowing (.ok st)) keyId (st.lastSequence + 1) eventHash
      d.logBytes.length record f.clock = .ok text := htext
  refine safe_writeJournal_failing htext' ?_
  rw [Then, safe_bind, safe_ofExcept, hpayload]
  refine ⟨trivial, ?_⟩
  rw [Then, safe_bind, appendPayload, safe_bind, safe_attempt]
  refine safe_sys_failing.mpr ?_
  change ((rollback d.logBytes.length) >>= _).Safe _ _ _ _ _
  rw [safe_bind]
  refine safe_rollback_failing rfl rfl ?_
  exact ⟨trivial, h⟩

end Failing

/-! ## The next append -/

section Next

variable {py : Interp} {o : EvidenceStore} {d : Disk} {limit : Nat}

/-- Bytes that consist of complete lines. -/
def Whole (b : Bytes) : Prop := b = [] ∨ b.getLast? = some Utf8.lfByte

/-- The next append that returns gives its record a line of its own. -/
def OwnLine (py : Interp) (o : EvidenceStore) (d : Disk) : Prop :=
  ∀ build keyId a o' d',
    (appendSigned py build keyId).Ends (reliable py.fileLimit) o d (.ok a) o' d' →
    ∃ sequence previous record eventHash front,
      build sequence previous = .ok (record, eventHash) ∧ Whole front ∧
        d'.logBytes = front ++ Utf8.encodeAll (record ++ [lf])

theorem tolerates_log (log : Bytes) :
    Tolerates (reliable limit) fun _ d => d.logBytes = log where
  tame _ hc _ _ h :=
    ⟨trivial, fun _ _ => trivial, fun _ _ hr => ⟨trivial, (tame_answer hc (.inl hr)).1.trans h⟩⟩
  object _ _ _ _ := keeps_modify fun _ _ h => h

/-- Where no call changes the log, it is the one that the offset was read of. -/
theorem keeps_logOffset (log : Bytes) :
    logOffset.Keeps (reliable limit) fun _ d => d.logBytes = log := by
  have hK : Tolerates (reliable limit) fun _ d => d.logBytes = log := tolerates_log log
  have hstat := hK.tame .statLog rfl
  have hcreate := hK.tame .createLog rfl
  refine hstat.bind fun found => ?_
  cases found with
  | none =>
      refine hcreate.bind fun _ => hstat.bind fun size => ?_
      cases size with
      | none => exact keeps_raise _
      | some n => exact keeps_pure n
  | some _ =>
      refine hstat.bind fun size => ?_
      cases size with
      | none => exact keeps_raise _
      | some n => exact keeps_pure n

theorem keeps_writeJournal (log : Bytes) {sequence : Int} {eventHash record : Str} {offset : Nat}
    {keyId : Option Str} : (writeJournal py sequence eventHash offset record keyId).Keeps
      (reliable limit) fun _ d => d.logBytes = log := by
  have hw := mild_reliable limit
  have hput : ∀ b, (sys (.writeJournal b)).Keeps (reliable limit) fun _ d => d.logBytes = log :=
    fun b o d h => (safe_sys_writeJournal hw).mpr ⟨trivial, fun _ _ => trivial, h⟩
  refine keeps_self.bind fun o => ((tolerates_log log).tame .now rfl).bind fun time =>
    Keeps.bind (fun o d h => (safe_sys_createJournal hw).mpr ⟨trivial, trivial, h⟩) fun _ => ?_
  split
  · refine (hput _).attempt.bind fun r => ?_
    split
    · exact keeps_pure _
    · exact keeps_raise _
    · exact keeps_raise _
  · exact (hput _).bind fun _ => keeps_raise _

theorem encoded_eq_ok {s : Str} {b : Bytes} (h : encoded s = .ok b) : Utf8.encodeAll s = b := by
  rw [encoded] at h
  split at h
  · cases h
  · next c hc =>
      obtain ⟨-, rfl⟩ := Utf8.encode_eq_some.mp hc
      exact Except.ok.inj h

/-- An append of bytes that returns has put them behind the log. -/
theorem safe_appendPayload_log {offset : Nat} {payload : Bytes} :
    (appendPayload offset payload).Safe (reliable limit) (fun _ => True)
      (fun r _ d' => r = .ok () → d'.logBytes = d.logBytes ++ payload) o d := by
  unfold appendPayload
  rw [safe_bind, safe_attempt, safe_sys (steady_reliable limit _)]
  refine ⟨trivial, fun _ _ => trivial, fun time => ⟨trivial, ?_⟩⟩
  rw [handle]
  split_ifs
  · exact ⟨trivial, fun _ => rfl⟩
  · have hrollback : (rollback offset).Safe (reliable limit) (fun _ => True)
        (fun _ _ _ => True) o d :=
      safe_of_keeps (fun _ _ _ _ _ _ => trivial) _ trivial
    have hraised : ∀ (e : Exn) (b : Bytes), (Except.error e : Except Exn Unit) = .ok () →
        b = d.logBytes ++ payload := by
      intro e b h
      cases h
    rw [Then]
    exact safe_bind_cases hrollback (fun _ _ _ _ => hraised _ _)
      fun _ _ _ _ => ⟨trivial, hraised _ _⟩

/-- An append that returns has put its record behind the log. -/
theorem safe_appendSigned_log {build : Build} {keyId : Option Str} :
    (appendSigned py build keyId).Safe (reliable limit) (fun _ => True) (fun r _ d' =>
      ∀ a, r = .ok a → ∃ sequence previous record eventHash,
        build sequence previous = .ok (record, eventHash) ∧
          d'.logBytes = d.logBytes ++ Utf8.encodeAll (record ++ [lf])) o d := by
  have hK : ∀ log, Tolerates (reliable limit) fun _ d => d.logBytes = log := tolerates_log
  have hallocate : (allocate py).Keeps (reliable limit) fun _ d' => d'.logBytes = d.logBytes :=
    keeps_self.bind fun _ => keeps_requireLock.bind fun _ => (keeps_readState (hK _)).bind fun _ =>
      (keeps_ofExcept _).bind fun _ => keeps_pure _
  unfold appendSigned
  refine safe_bind_cases (hallocate o d rfl) (fun _ _ _ _ => nofun) fun p o₁ d₁ h₁ => ?_
  obtain ⟨st, sequence, previous⟩ := p
  dsimp only
  rw [safe_bind, safe_ofExcept]
  refine ⟨trivial, ?_⟩
  cases hb : build sequence previous with
  | error e => exact nofun
  | ok p =>
      obtain ⟨record, eventHash⟩ := p
      rw [Then]
      refine safe_bind_cases (keeps_logOffset _ o₁ d₁ h₁) (fun _ _ _ _ => nofun)
        fun offset o₂ d₂ h₂ => ?_
      refine safe_bind_cases (keeps_writeJournal _ o₂ d₂ h₂) (fun _ _ _ _ => nofun)
        fun _ o₃ d₃ h₃ => ?_
      rw [safe_bind, safe_ofExcept]
      refine ⟨trivial, ?_⟩
      cases hp : encoded (record ++ [lf]) with
      | error e => exact nofun
      | ok payload =>
          obtain rfl := encoded_eq_ok hp
          rw [Then]
          refine safe_bind_cases safe_appendPayload_log (fun _ _ _ _ => nofun) fun _ o₄ d₄ h₄ => ?_
          have hlog : d₄.logBytes = d.logBytes ++ Utf8.encodeAll (record ++ [lf]) := by
            rw [h₄ rfl, h₃]
          have hcommit : (self >>= fun o => commitState py ⟨o.nodeId,
              chooseKey py (optionalText keyId) o.keyId st, sequence, some eventHash⟩ >>= fun _ =>
              dropJournal >>= fun _ => pure (sequence, eventHash)).Keeps (reliable limit)
                fun _ d' => d'.logBytes = d.logBytes ++ Utf8.encodeAll (record ++ [lf]) := by
            refine keeps_self.bind fun o => Keeps.bind ?_ fun _ =>
              (keeps_dropJournal (hK _)).bind fun _ => keeps_pure _
            refine (keeps_writeState (hK _) _).attempt.bind fun r => ?_
            split
            · exact keeps_pure _
            · exact keeps_raise _
            · exact keeps_raise _
          exact hcommit.safe hlog fun _ _ _ h _ _ => ⟨sequence, previous, record, eventHash, hb, h⟩

/-- Behind complete lines a record gets a line of its own. -/
theorem ownLine_of_whole (h : Whole d.logBytes) : OwnLine py o d := by
  intro build keyId a o' d' he
  obtain ⟨sequence, previous, record, eventHash, hb, hlog⟩ := safe_appendSigned_log.ends he a rfl
  exact ⟨sequence, previous, record, eventHash, d.logBytes, hb, h, hlog⟩

/-- Where the log does not end with a line feed, an append that can be made shares its line. -/
theorem not_ownLine (h : ¬ Whole d.logBytes) (hl : o.lockHeld = true) {st : NodeState}
    (hs : loadState py o d = .ok st) {record eventHash key : Str}
    (ha : Appendable py py.fileLimit o d (fun _ _ => .ok (record, eventHash)) (some key) st record
      eventHash) : ¬ OwnLine py o d := by
  intro hown
  have hsteady := steady_reliable py.fileLimit
  have hsafe : (appendSigned py (fun _ _ => .ok (record, eventHash)) (some key)).Safe
      (reliable py.fileLimit) (fun _ => True) (fun r _ d' => (∃ a, r = .ok a) ∧
        d'.logBytes = d.logBytes ++ Utf8.encodeAll (record ++ [lf])) o d :=
    safe_appendSigned (mild_reliable _) (fun b => hsteady _) (fun b => hsteady _) hl hs ha
      fun b => ⟨⟨_, rfl⟩, rfl⟩
  obtain ⟨⟨r, o'⟩, d', he⟩ := Prog.exists_ends (reliable_responsive py.fileLimit)
    (appendSigned py (fun _ _ => .ok (record, eventHash)) (some key) o) d
  obtain ⟨⟨a, rfl⟩, hlog⟩ := hsafe.ends he
  obtain ⟨_, _, record', eventHash', front, hb, hfront, hlog'⟩ := hown _ _ _ _ _ he
  obtain ⟨rfl, -⟩ := Prod.mk.inj (Except.ok.inj hb)
  rw [List.append_cancel_right (hlog.symm.trans hlog')] at h
  exact h hfront

/-- A record without line feeds that is there in part leaves no complete lines. -/
theorem not_whole_torn {log : Bytes} {record : Str} (hrecord : lf ∉ record) {n : Nat} (hn : n ≠ 0)
    (hpart : n < (Utf8.encodeAll (record ++ [lf])).length) :
    ¬ Whole (log ++ (Utf8.encodeAll (record ++ [lf])).take n) := by
  have hbytes : Utf8.encodeAll (record ++ [lf]) = Utf8.encodeAll record ++ [Utf8.lfByte] := by
    rw [Utf8.encodeAll_append]
    rfl
  rw [hbytes, List.length_append, List.length_singleton] at hpart
  rw [hbytes, List.take_append_of_le_length (by omega)]
  have hne : (Utf8.encodeAll record).take n ≠ [] := by
    refine List.ne_nil_of_length_pos ?_
    rw [List.length_take]
    omega
  rintro (h | h)
  · exact hne (List.append_eq_nil_iff.mp h).2
  · rw [List.getLast?_append_of_ne_nil _ hne] at h
    have hmem : Utf8.lfByte ∈ Utf8.encodeAll record :=
      List.mem_of_mem_take (List.mem_of_getLast? h)
    exact hrecord (Utf8.lf_mem_of_encodeAll hmem)

end Next

/-! ## The next open -/

section Reopening

variable {py : Interp} {o : EvidenceStore} {d : Disk} {limit : Nat}

/-- A journal that leaves the log alone does so when it is settled. -/
theorem Quiet.settles {r : Except Exn NodeState} {d₀ : Disk}
    (hq : Quiet py o.nodeId d.logBytes d.journal) (h : Settles py limit o d r d₀) :
    d₀.logBytes = d.logBytes := by
  cases h with
  | absent | discarded | completed | alreadyCommitted => rfl
  | @undone b line e hb hj hx hin hc =>
      rcases hq b hb e hj line hx with ⟨-, hend⟩ | ⟨-, htake, hwithin⟩
      · change resize d.logBytes e.offset.toNat = d.logBytes
        rw [hend, Int.toNat_natCast, resize_of_le le_rfl, List.take_length]
      · refine absurd ⟨hwithin, ?_⟩ hin
        rw [readAt_of_within hc.1 hc.2.1 (by omega), htake]

/-- An open that succeeds on a disk with such a journal leaves the log. -/
theorem enter_quiet (ho : o.lockHeld = false) (hd : d.locked = false)
    (hq : Quiet py o.nodeId d.logBytes d.journal) {o₁ : EvidenceStore} {d₁ : Disk}
    (he : (enter py).Ends (reliable limit) o d (.ok ()) o₁ d₁) : d₁.logBytes = d.logBytes := by
  have hw := mild_reliable limit
  have hr : ∀ b, Steady limit (reliable limit) (.replaceState b) := fun b => steady_reliable _ _
  suffices hsafe : (enter py).Safe (reliable limit) (fun _ => True)
      (fun r _ d' => r = .ok () → d'.logBytes = d.logBytes) o d from hsafe.ends he rfl
  rw [safe_enter hw ho, hd]
  refine ⟨trivial, trivial, ?_⟩
  by_cases h : Openable py limit { o with lockHeld := true } { d with locked := true }
  · obtain ⟨st, log, h⟩ := openable_iff_opensAt.mp h
    refine safe_recover_of_opensAt hw hr rfl h fun _ _ d₁ _ _ _ _ hlog _ _ => ?_
    obtain ⟨st₀, d₀, hs, -, -, hlog₀⟩ := h
    exact hlog.trans (hlog₀.trans (Quiet.settles (o := { o with lockHeld := true })
      (d := { d with locked := true }) hq hs))
  · exact safe_recover_of_not_openable hw hr rfl h fun _ _ _ _ _ => nofun

/-- With a journal that is too large no open succeeds. -/
theorem enter_oversized (ho : o.lockHeld = false) (hd : d.locked = false) {b : Bytes}
    (hb : d.journal = some b) (hlong : maxJournalBytes < b.length) {r : Except Exn Unit}
    {o₁ : EvidenceStore} {d₁ : Disk} (he : (enter py).Ends (reliable limit) o d r o₁ d₁) :
    r ≠ .ok () := by
  have hw := mild_reliable limit
  have hr : ∀ b, Steady limit (reliable limit) (.replaceState b) := fun b => steady_reliable _ _
  have hread : readJournal py o.nodeId b = .error .stateCorruption := if_pos hlong
  suffices hsafe : (enter py).Safe (reliable limit) (fun _ => True) (fun r _ _ => r ≠ .ok ()) o d
    from hsafe.ends he
  rw [safe_enter hw ho, hd]
  refine ⟨trivial, trivial, safe_recover_of_not_openable hw hr rfl ?_ fun _ _ _ _ _ => nofun⟩
  have hnone : ∀ b' j, d.journal = some b' → readJournal py o.nodeId b' ≠ .ok j := by
    intro b' j hb' hj
    obtain rfl := Option.some.inj (hb.symm.trans hb')
    cases hread.symm.trans hj
  rintro ⟨st, d₀, h, -⟩
  generalize hst : Except.ok st = r₀ at h
  cases h with
  | absent h₀ => cases hb.symm.trans h₀
  | discarded hb' hj _ => exact hnone _ _ hb' hj
  | completed hb' hj _ _ _ _ _ => exact hnone _ _ hb' hj
  | alreadyCommitted hb' hj _ _ _ _ => exact hnone _ _ hb' hj
  | undone hb' hj _ _ _ => exact hnone _ _ hb' hj

/-- With a journal whose record is there in part the next open cuts the log. -/
theorem enter_torn (ho : o.lockHeld = false) (hd : d.locked = false) {b line log p : Bytes}
    {e : JournalEntry} (hb : d.journal = some b)
    (hj : readJournal py o.nodeId b = .ok (.entry e)) (hx : encoded e.line = .ok line)
    (hend : e.offset = log.length) (hlog : d.log = some (log ++ p)) (hpart : p.length < line.length)
    {st : NodeState} (hs : loadState py o d = .ok st)
    (hpasses : Passes py o { d with log := some log } st) {r : Except Exn Unit}
    {o₁ : EvidenceStore} {d₁ : Disk} (he : (enter py).Ends (reliable limit) o d r o₁ d₁) :
    r = .ok () ∧ d₁.logBytes = log := by
  have hw := mild_reliable limit
  have hr : ∀ b, Steady limit (reliable limit) (.replaceState b) := fun b => steady_reliable _ _
  have hbytes : d.logBytes = log ++ p := by rw [logBytes, hlog]; rfl
  have hcan : CanTruncate limit { d with locked := true } e.offset := by
    refine ⟨by rw [hlog]; rfl, by omega, .inl ?_⟩
    change e.offset ≤ d.logBytes.length
    rw [hbytes, hend, List.length_append]
    omega
  have hout : ¬ Written { d with locked := true } e.offset line := by
    rintro ⟨hwithin, -⟩
    change e.offset + line.length ≤ d.logBytes.length at hwithin
    rw [hbytes, hend, List.length_append] at hwithin
    omega
  have hcut : truncated { d with locked := true } e.offset =
      { d with log := some log, locked := true } := by
    rw [truncated]
    change { d with log := some (resize d.logBytes e.offset.toNat), locked := true } = _
    rw [hbytes, hend, Int.toNat_natCast, resize_append_left]
  have hopens : OpensAt py limit { o with lockHeld := true } { d with locked := true }
      (resting py { o with lockHeld := true } { d with
        log := some log
        locked := true
        journal := none } st) log := by
    have hsettles : Settles py limit { o with lockHeld := true } { d with locked := true }
        (loadState py { o with lockHeld := true } { d with locked := true })
        { truncated { d with locked := true } e.offset with journal := none } :=
      .undone hb hj hx hout hcan
    have hs' : loadState py { o with lockHeld := true } { d with locked := true } = .ok st := hs
    rw [hcut, hs'] at hsettles
    exact ⟨st, _, hsettles, hpasses, rfl, rfl⟩
  suffices hsafe : (enter py).Safe (reliable limit) (fun _ => True)
      (fun r _ d' => r = .ok () ∧ d'.logBytes = log) o d from hsafe.ends he
  rw [safe_enter hw ho, hd]
  refine ⟨trivial, trivial, ?_⟩
  exact safe_recover_of_opensAt hw hr rfl hopens fun _ _ _ _ _ _ _ hkept _ => ⟨rfl, hkept⟩

end Reopening

/-! ## What is undone -/

section Undoing

variable {py : Interp} {f : Failures} {o : EvidenceStore} {d : Disk} {st : NodeState}
  {build : Build} {keyId : Option Str} {record eventHash : Str}

/-- A session on a disk between two transactions: a log of complete lines, a state that stands at
the last record of the node in it, and no journal. -/
structure Poised (py : Interp) (o : EvidenceStore) (d : Disk) (st : NodeState) : Prop where
  lockHeld : o.lockHeld = true
  state : loadState py o d = .ok st
  file : loadState py (create o.nodeId o.keyId) d = .ok st
  journal : d.journal = none
  lines : Whole d.logBytes
  level : Level py o.nodeId d st

/-- The state passes the check against the log that an undone append leaves. -/
theorem Poised.passes (hd : Poised py o d st) {d' : Disk} (hlog : d'.log = some d.logBytes) :
    Passes py (create o.nodeId o.keyId) d' st := by
  rcases hd.level with hz | ⟨r, hlast, hseq⟩
  · exact .inl hz
  · refine .inr ⟨r, ?_, hseq.le, fun hlt => absurd hseq hlt.ne⟩
    rw [lastLogged] at hlast ⊢
    cases hd' : d.log with
    | none =>
        rw [hd'] at hlast
        cases hlast
    | some b =>
        have hbytes : d.logBytes = b := by rw [logBytes, hd']; rfl
        rw [hd'] at hlast
        rw [hlog, hbytes]
        exact hlast

/-- A record that is built for the place behind the state, on one line, and with room for it. -/
structure Recording (py : Interp) (o : EvidenceStore) (d : Disk) (st : NodeState) (build : Build)
    (keyId : Option Str) (record eventHash : Str) : Prop where
  built : ∃ previous, EventChain.expectedPreviousHash py o.nodeId (st.lastSequence + 1)
    st.lastEventHash = .ok previous ∧ build (st.lastSequence + 1) previous = .ok (record, eventHash)
  recordable : Recordable o.nodeId (ownKey keyId o.keyId) record eventHash (st.lastSequence + 1)
  lf_notMem : lf ∉ record
  room : (d.logBytes ++ Utf8.encodeAll (record ++ [lf])).length ≤ py.fileLimit

/-- The bytes of the journal of an append. -/
def journalBytes (py : Interp) (o : EvidenceStore) (d : Disk) (st : NodeState)
    (keyId : Option Str) (record eventHash : Str) (time : Instant) : Bytes :=
  match journalText py o keyId (st.lastSequence + 1) eventHash d.logBytes.length record time with
  | .ok text => Utf8.encodeAll text
  | .error _ => []

/-- The next open of a store of the node. -/
def Reopens (py : Interp) (o : EvidenceStore) (d' : Disk) (r : Except Exn Unit) (o₁ : EvidenceStore)
    (d₁ : Disk) : Prop :=
  (enter py).Ends (reliable py.fileLimit) (create o.nodeId o.keyId) { d' with locked := false } r
    o₁ d₁

/-- The log is as it was, or the journal is there and the next open restores the log. -/
def Undone (py : Interp) (o : EvidenceStore) (d d' : Disk) : Prop :=
  d'.logBytes = d.logBytes ∨ d'.journal.isSome = true ∧
    ∀ r o₁ d₁, Reopens py o d' r o₁ d₁ → r = .ok () ∧ d₁.logBytes = d.logBytes

/-- The next append that returns gives its record a line of its own, whether it is made in the
same session or behind the next open. -/
def OwnLines (py : Interp) (o' : EvidenceStore) (d' : Disk) : Prop :=
  OwnLine py o' d' ∧ ∀ o₁ d₁, Reopens py o' d' (.ok ()) o₁ d₁ → OwnLine py o₁ d₁

theorem payload_ne_nil (record : Str) : Utf8.encodeAll (record ++ [lf]) ≠ [] := by
  rw [Utf8.encodeAll_append]
  exact List.append_ne_nil_of_right_ne_nil _ (by decide)

/-- The log is as it was when nothing was written or the rollback cuts the log. -/
theorem leaves_logBytes_iff {journal : Bytes} :
    (f.leaves d (Utf8.encodeAll (record ++ [lf])) journal).logBytes = d.logBytes ↔
      f.written = 0 ∨ f.Cuts := by
  change (if f.Cuts then d.logBytes
    else d.logBytes ++ (Utf8.encodeAll (record ++ [lf])).take f.written) = d.logBytes ↔ _
  split_ifs with hc
  · exact ⟨fun _ => .inr hc, fun _ => rfl⟩
  · rw [List.append_right_eq_self, List.take_eq_nil_iff, or_iff_left (payload_ne_nil record),
      or_iff_left hc]

namespace Recording

variable (hr : Recording py o d st build keyId record eventHash)
include hr

theorem offset : (Decimal.natText d.logBytes.length).length ≤ maxDigits := by
  have hroom := hr.room
  have hlimit := py.fileLimit_lt
  rw [List.length_append] at hroom
  exact (Decimal.natText_length_le (by decide) (show d.logBytes.length < 10 ^ 19 by omega)).trans
    (by decide)

theorem writable : JournalWritable o.nodeId (ownKey keyId o.keyId) eventHash record
    (st.lastSequence + 1) d.logBytes.length where
  nodeId := hr.recordable.nodeId
  keyId := hr.recordable.key
  eventHash := hr.recordable.eventHash
  record := hr.recordable.record
  sequence := hr.recordable.sequence
  offset := hr.offset

theorem exists_text (time : Instant) : ∃ text, journalText py o keyId (st.lastSequence + 1)
    eventHash d.logBytes.length record time = .ok text :=
  dump_journalMembers _ _ _ _ _ hr.recordable.sequence hr.offset

theorem encoded_line :
    encoded (record ++ [lf]) = .ok (Utf8.encodeAll (record ++ [lf])) := by
  rw [encoded, Utf8.encode_of_scalar (scalar_append.mpr ⟨hr.recordable.record, by decide⟩)]

/-- The journal of the append announces its line. -/
theorem announces (time : Instant) : Announces py o.nodeId d.logBytes (record ++ [lf])
    (some (journalBytes py o d st keyId record eventHash time)) := by
  obtain ⟨text, htext⟩ := hr.exists_text time
  rintro b ⟨⟩ e he
  rw [journalBytes, htext] at he
  rw [hr.writable.entry_eq htext List.prefix_rfl he]
  exact ⟨rfl, rfl⟩

/-- A journal that is not too large is read as an entry. -/
theorem exists_entry {time : Instant}
    (hfits : (journalBytes py o d st keyId record eventHash time).length ≤ maxJournalBytes) :
    ∃ e, readJournal py o.nodeId (journalBytes py o d st keyId record eventHash time) =
      .ok (.entry e) := by
  obtain ⟨text, htext⟩ := hr.exists_text time
  rw [journalBytes, htext] at hfits ⊢
  exact ⟨_, hr.writable.readJournal_text htext hfits⟩

/-- The failed append raises, and leaves this disk. -/
theorem aborts (hd : Poised py o d st) {r : Except Exn (Int × Str)} {o' : EvidenceStore} {d' : Disk}
    (he : (appendSigned py build keyId).Ends (f.world py.fileLimit) o d r o' d') :
    r = .error .transactionAborted ∧ o' = o.knowing (.ok st) ∧
      d' = f.leaves d (Utf8.encodeAll (record ++ [lf]))
        (journalBytes py o d st keyId record eventHash f.clock) := by
  obtain ⟨previous, hprevious, hbuild⟩ := hr.built
  obtain ⟨text, htext⟩ := hr.exists_text f.clock
  have hsafe : (appendSigned py build keyId).Safe (f.world py.fileLimit) (fun _ => True)
      (fun r o' d' => r = .error .transactionAborted ∧ o' = o.knowing (.ok st) ∧
        d' = f.leaves d (Utf8.encodeAll (record ++ [lf])) (Utf8.encodeAll text)) o d :=
    safe_appendSigned_failing hd.lockHeld hd.journal hd.state hprevious hbuild
      hr.recordable.record htext ⟨rfl, rfl, rfl⟩
  rw [journalBytes, htext]
  exact hsafe.ends he

end Recording

/-- When a failed append is undone. -/
theorem undone_leaves_iff (hd : Poised py o d st)
    (hr : Recording py o d st build keyId record eventHash) :
    Undone py o d (f.leaves d (Utf8.encodeAll (record ++ [lf]))
        (journalBytes py o d st keyId record eventHash f.clock)) ↔
      (f.written = 0 ∨ f.Cuts) ∨ f.unlinked = false ∧
        f.written < (Utf8.encodeAll (record ++ [lf])).length ∧
          (journalBytes py o d st keyId record eventHash f.clock).length ≤ maxJournalBytes := by
  generalize hleft : f.leaves d (Utf8.encodeAll (record ++ [lf]))
    (journalBytes py o d st keyId record eventHash f.clock) = d'
  have hsame : d'.logBytes = d.logBytes ↔ f.written = 0 ∨ f.Cuts := by
    rw [← hleft]
    exact leaves_logBytes_iff
  rw [Undone, hsame]
  refine or_congr_right' fun hharm => ?_
  have hcuts : ¬ f.Cuts := fun hc => hharm (.inr hc)
  have hlog : d'.log = some (d.logBytes ++ (Utf8.encodeAll (record ++ [lf])).take f.written) := by
    rw [← hleft]
    exact congrArg some (if_neg hcuts)
  have hjournal : d'.journal = if f.unlinked then none
      else some (journalBytes py o d st keyId record eventHash f.clock) := by
    rw [← hleft]
    rfl
  cases hu : f.unlinked with
  | true =>
      rw [hu, if_pos rfl] at hjournal
      rw [hjournal]
      exact ⟨fun h => Bool.noConfusion h.1, fun h => Bool.noConfusion h.1⟩
  | false =>
      rw [hu, if_neg Bool.false_ne_true] at hjournal
      constructor
      · rintro ⟨-, hrestored⟩
        obtain ⟨⟨r, o₁⟩, d₁, he⟩ := Prog.exists_ends (reliable_responsive py.fileLimit)
          (enter py (create o.nodeId o.keyId)) { d' with locked := false }
        obtain ⟨rfl, hlog₁⟩ := hrestored r o₁ d₁ he
        refine ⟨rfl, ?_, ?_⟩
        · -- a record that is there to its end is completed
          by_contra hwhole
          rw [List.take_of_length_le (Nat.le_of_not_lt hwhole)] at hlog
          have hbytes : d'.logBytes = d.logBytes ++ Utf8.encodeAll (record ++ [lf]) := by
            rw [logBytes, hlog]
            rfl
          have hquiet := (hr.announces f.clock).quiet_appended hr.encoded_line
          rw [← hbytes, ← hjournal] at hquiet
          have hkept : d₁.logBytes = d'.logBytes :=
            enter_quiet (o := create o.nodeId o.keyId) (d := { d' with locked := false }) rfl rfl
              hquiet he
          rw [hkept, hbytes, List.append_right_eq_self] at hlog₁
          exact payload_ne_nil record hlog₁
        · by_contra hlong
          exact enter_oversized (o := create o.nodeId o.keyId)
            (d := { d' with locked := false }) rfl rfl hjournal (Nat.lt_of_not_le hlong) he rfl
      · rintro ⟨-, hpart, hfits⟩
        obtain ⟨e, hj⟩ := hr.exists_entry hfits
        obtain ⟨hend, hline⟩ := hr.announces f.clock _ rfl e hj
        refine ⟨by rw [hjournal]; rfl, fun r o₁ d₁ he => ?_⟩
        have hpasses : Passes py (create o.nodeId o.keyId)
            { d' with log := some d.logBytes, locked := false } st :=
          hd.passes rfl
        have hx : encoded e.line = .ok (Utf8.encodeAll (record ++ [lf])) := by
          rw [hline]
          exact hr.encoded_line
        have hstate : loadState py (create o.nodeId o.keyId) { d' with locked := false } =
            .ok st := by
          rw [← hleft]
          exact hd.file
        have hshort : ((Utf8.encodeAll (record ++ [lf])).take f.written).length <
            (Utf8.encodeAll (record ++ [lf])).length :=
          (List.length_take_le _ _).trans_lt hpart
        exact enter_torn (o := create o.nodeId o.keyId) (d := { d' with locked := false }) rfl rfl
          hjournal hj hx hend hlog hshort hstate hpasses he

/-- Where the log is as it was, the next append gives its record a line of its own. -/
theorem ownLines_of_undone (hd : Poised py o d st)
    (hr : Recording py o d st build keyId record eventHash) {o' : EvidenceStore}
    (ho : o' = o.knowing (.ok st)) (h : f.written = 0 ∨ f.Cuts) :
    OwnLines py o' (f.leaves d (Utf8.encodeAll (record ++ [lf]))
      (journalBytes py o d st keyId record eventHash f.clock)) := by
  generalize hleft : f.leaves d (Utf8.encodeAll (record ++ [lf]))
    (journalBytes py o d st keyId record eventHash f.clock) = d'
  have hlog : d'.logBytes = d.logBytes := by
    rw [← hleft]
    exact leaves_logBytes_iff.mpr h
  have hquiet : Quiet py o.nodeId d'.logBytes d'.journal := by
    have hj : d'.journal = none ∨
        d'.journal = some (journalBytes py o d st keyId record eventHash f.clock) := by
      rw [← hleft]
      exact ite_eq_or_eq _ _ _
    rw [hlog]
    rcases hj with hj | hj
    · rw [hj]
      exact quiet_none
    · rw [hj]
      exact (hr.announces f.clock).quiet
  refine ⟨ownLine_of_whole (hlog ▸ hd.lines), fun o₁ d₁ he => ownLine_of_whole ?_⟩
  rw [ho] at he
  have hkept : d₁.logBytes = d'.logBytes :=
    enter_quiet (o := create o.nodeId o.keyId) (d := { d' with locked := false }) rfl rfl hquiet he
  rw [hkept, hlog]
  exact hd.lines

/-- Where a part of the record is left, a further append of the session shares its line. -/
theorem not_ownLines_of_torn (hd : Poised py o d st)
    (hr : Recording py o d st build keyId record eventHash) {o' : EvidenceStore}
    (ho : o' = o.knowing (.ok st)) (h : ¬ (f.written = 0 ∨ f.Cuts))
    (hpart : f.written < (Utf8.encodeAll (record ++ [lf])).length) {journal : Bytes} :
    ¬ OwnLines py o' (f.leaves d (Utf8.encodeAll (record ++ [lf])) journal) := by
  have hlog : (f.leaves d (Utf8.encodeAll (record ++ [lf])) journal).logBytes =
      d.logBytes ++ (Utf8.encodeAll (record ++ [lf])).take f.written := by
    have hcuts : ¬ f.Cuts := fun hc => h (.inr hc)
    exact if_neg hcuts
  have hwhole : ¬ Whole (f.leaves d (Utf8.encodeAll (record ++ [lf])) journal).logBytes := by
    rw [hlog]
    exact not_whole_torn hr.lf_notMem (fun hz => h (.inl hz)) hpart
  obtain ⟨previous, hprevious, -⟩ := hr.built
  have hroom := hr.room
  rintro ⟨hown, -⟩
  have happend : Appendable py py.fileLimit o'
      (f.leaves d (Utf8.encodeAll (record ++ [lf])) journal) (fun _ _ => .ok ([], []))
      (some (lit "k")) st [] [] :=
    { built := ⟨previous, ho ▸ hprevious, rfl⟩
      scalar := scalar_nil
      digits := hr.recordable.sequence
      room := by
        rw [List.length_append] at hroom
        rw [hlog, List.length_append, List.length_append, List.length_take]
        change _ + 1 ≤ _
        omega
      size := fileLimit_digits py
      writable := writable_committed (by decide) hr.recordable.sequence }
  refine not_ownLine hwhole ?_ ?_ happend hown
  · rw [ho]
    exact hd.lockHeld
  · rw [ho]
    rfl

/-- After a failed append the record that it was given is undone, or can be undone by the next
open, and the records behind it stand on lines of their own, exactly when nothing of the record
was written or the rollback cuts the log. -/
theorem failed_append_undone_iff (py : Interp) (f : Failures) (o : EvidenceStore) (d : Disk)
    (st : NodeState) (build : Build) (keyId : Option Str) (record eventHash : Str)
    (hd : Poised py o d st) (hr : Recording py o d st build keyId record eventHash) :
    (∃ r o' d', (appendSigned py build keyId).Ends (f.world py.fileLimit) o d r o' d') ∧
    ∀ r o' d', (appendSigned py build keyId).Ends (f.world py.fileLimit) o d r o' d' →
      r = .error .transactionAborted ∧
      (Undone py o d d' ↔ (f.written = 0 ∨ f.Cuts) ∨ f.unlinked = false ∧
        f.written < (Utf8.encodeAll (record ++ [lf])).length ∧
          (journalBytes py o d st keyId record eventHash f.clock).length ≤ maxJournalBytes) ∧
      (Undone py o d d' ∧ OwnLines py o' d' ↔ f.written = 0 ∨ f.Cuts) := by
  constructor
  · obtain ⟨⟨r, o'⟩, d', he⟩ := Prog.exists_ends (w := f.world py.fileLimit)
      (fun c d => ⟨_, _, rfl⟩) (appendSigned py build keyId o) d
    exact ⟨r, o', d', he⟩
  · intro r o' d' he
    obtain ⟨hr', ho', rfl⟩ := hr.aborts hd he
    have hundone := undone_leaves_iff (f := f) hd hr
    refine ⟨hr', hundone, ?_⟩
    rw [hundone]
    constructor
    · rintro ⟨h | ⟨-, hpart, -⟩, hown⟩
      · exact h
      · by_contra hharm
        exact not_ownLines_of_torn hd hr ho' hharm hpart hown
    · exact fun h => ⟨.inl h, ownLines_of_undone hd hr ho' h⟩

/-- Two records of node `n`, the state at the second, and no journal. -/
def restingDisk : Disk :=
  ⟨some (sampleStateFile 2), none, some (Utf8.encodeAll sampleLines), true⟩

/-- The third record of the node. -/
def thirdBuild : Build := fun _ _ => .ok (recordLine "n" "3" (sampleHash 'd'), sampleHash 'd')

theorem restingDisk_poised : ∃ st, st.lastSequence = 2 ∧
    Poised .reference (holding (lit "n") (lit "k")) restingDisk st ∧
      Recording .reference (holding (lit "n") (lit "k")) restingDisk st thirdBuild none
        (recordLine "n" "3" (sampleHash 'd')) (sampleHash 'd') := by
  obtain ⟨st, hfile, hseq, hhash⟩ := ofFile_second
  have hlast : lastLogged .reference (lit "n") restingDisk = .ok (some ⟨2, sampleHash 'a'⟩) := by
    decide +kernel
  refine ⟨st, hseq, ?_, ?_⟩
  · exact
      { lockHeld := rfl
        state := hfile
        file := hfile
        journal := rfl
        lines := .inr (by decide +kernel)
        level := .inr ⟨_, hlast, hseq⟩ }
  · have hprevious : EventChain.expectedPreviousHash .reference (lit "n") (st.lastSequence + 1)
        st.lastEventHash = .ok (sampleHash 'a') := by
      rw [hseq, hhash]
      rfl
    refine
      { built := ⟨_, hprevious, rfl⟩
        recordable := ⟨by decide, by decide, by decide, by decide +kernel, by decide, ?_⟩
        lf_notMem := by decide +kernel
        room := by decide +kernel }
    rw [hseq]
    decide

theorem journalBytes_third {st : NodeState} (hseq : st.lastSequence = 2) :
    (journalBytes .reference (holding (lit "n") (lit "k")) restingDisk st none
      (recordLine "n" "3" (sampleHash 'd')) (sampleHash 'd') .first).length ≤ maxJournalBytes := by
  rw [journalBytes, hseq]
  decide +kernel

/-- Ten bytes of the third record are written. When the cut is refused and the journal stays, the
next open restores the log, but a further append of the session would share the line. When only
the flushing of the cut fails, nothing is left. -/
theorem failed_append_undone_third : ∃ r o' d' r₁ o₁ d₁,
    (appendSigned .reference thirdBuild none).Ends
      (Failures.world ⟨10, true, .refused, false, .first⟩ Interp.reference.fileLimit)
      (holding (lit "n") (lit "k")) restingDisk r o' d' ∧
    r = .error .transactionAborted ∧
    Undone .reference (holding (lit "n") (lit "k")) restingDisk d' ∧ ¬ OwnLines .reference o' d' ∧
    (appendSigned .reference thirdBuild none).Ends
      (Failures.world ⟨10, true, .unflushed, true, .first⟩ Interp.reference.fileLimit)
      (holding (lit "n") (lit "k")) restingDisk r₁ o₁ d₁ ∧
    r₁ = .error .transactionAborted ∧
    Undone .reference (holding (lit "n") (lit "k")) restingDisk d₁ ∧ OwnLines .reference o₁ d₁ := by
  obtain ⟨st, hseq, hd, hr⟩ := restingDisk_poised
  obtain ⟨⟨r, o', d', he⟩, hrefused⟩ := failed_append_undone_iff .reference
    ⟨10, true, .refused, false, .first⟩ _ _ st _ _ _ _ hd hr
  obtain ⟨⟨r₁, o₁, d₁, he₁⟩, hcut⟩ := failed_append_undone_iff .reference
    ⟨10, true, .unflushed, true, .first⟩ _ _ st _ _ _ _ hd hr
  obtain ⟨habort, hundone, hboth⟩ := hrefused r o' d' he
  obtain ⟨habort₁, -, hboth₁⟩ := hcut r₁ o₁ d₁ he₁
  have hkept := hundone.mpr (.inr ⟨rfl, by decide +kernel, journalBytes_third hseq⟩)
  obtain ⟨hrestored, hown₁⟩ := hboth₁.mpr (.inr ⟨rfl, by decide⟩)
  refine ⟨r, o', d', r₁, o₁, d₁, he, habort, hkept, fun hown => ?_, he₁, habort₁, hrestored, hown₁⟩
  rcases hboth.mp ⟨hkept, hown⟩ with h | h
  · cases h
  · exact h.2 rfl

/-- Ten bytes of the third record stay in the log, and no journal is there to tell. -/
theorem failed_append_leaves_part : ∃ st r o' d',
    Poised .reference (holding (lit "n") (lit "k")) restingDisk st ∧
      Recording .reference (holding (lit "n") (lit "k")) restingDisk st thirdBuild none
        (recordLine "n" "3" (sampleHash 'd')) (sampleHash 'd') ∧
      (appendSigned .reference thirdBuild none).Ends
        (Failures.world ⟨10, true, .refused, true, .first⟩ Interp.reference.fileLimit)
        (holding (lit "n") (lit "k")) restingDisk r o' d' ∧
      r = .error .transactionAborted ∧ d'.journal = none ∧
      d'.logBytes = Utf8.encodeAll sampleLines ++
        (Utf8.encodeAll (recordLine "n" "3" (sampleHash 'd') ++ [lf])).take 10 ∧
      ¬ Undone .reference (holding (lit "n") (lit "k")) restingDisk d' := by
  obtain ⟨st, -, hd, hr⟩ := restingDisk_poised
  obtain ⟨⟨r, o'⟩, d', he⟩ := Prog.exists_ends
    (w := Failures.world ⟨10, true, .refused, true, .first⟩ Interp.reference.fileLimit)
    (fun c d => ⟨_, _, rfl⟩)
    (appendSigned .reference thirdBuild none (holding (lit "n") (lit "k"))) restingDisk
  obtain ⟨hr', -, rfl⟩ := hr.aborts hd he
  refine ⟨st, r, o', _, hd, hr, he, hr', rfl, rfl, ?_⟩
  rw [undone_leaves_iff hd hr]
  rintro ((h | h) | ⟨h, -⟩)
  · cases h
  · exact h.2 rfl
  · cases h

end Undoing

end EvidenceStore

end IcsDeception
