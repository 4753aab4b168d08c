import IcsDeception.StateAgreement

/-!
# The append transaction

What one append leaves on the disk when no call of the store fails, and what it leaves
when the record cannot be built. Then at which state a store stands that has been opened.
-/

namespace IcsDeception

open Text Json Calendar Method NodeState

namespace EvidenceStore

open Disk

section Append

variable {limit : Nat} {w : World Fs Disk} {o : EvidenceStore} {d : Disk} {py : Interp}

/-- An append for which there is room. -/
theorem safe_sys_appendLog {b : Bytes} (ha : Steady limit w (.appendLog b))
    (hroom : (d.logBytes ++ b).length ≤ limit) {Q : Except Exn Unit → EvidenceStore → Disk → Prop}
    (h : Q (.ok ()) o (d.extend b)) : (sys (.appendLog b)).Safe w (fun _ => True) Q o d := by
  rw [safe_sys ha]
  refine ⟨trivial, fun _ _ => trivial, fun _ => ⟨trivial, ?_⟩⟩
  rw [handle, if_pos hroom]
  exact h

theorem safe_appendPayload {offset : Nat} {b : Bytes} (ha : Steady limit w (.appendLog b))
    (hroom : (d.logBytes ++ b).length ≤ limit) {Q : Except Exn Unit → EvidenceStore → Disk → Prop}
    (h : Q (.ok ()) o (d.extend b)) :
    (appendPayload offset b).Safe w (fun _ => True) Q o d := by
  rw [appendPayload, safe_bind, safe_attempt]
  apply safe_sys_appendLog ha hroom
  exact safe_pure.mpr ⟨trivial, h⟩

theorem safe_commitState (hw : Mild limit w) (hr : ∀ b, Steady limit w (.replaceState b))
    {st : NodeState} (hst : Writable py st) {Q : Except Exn Unit → EvidenceStore → Disk → Prop}
    (h : ∀ b, Q (.ok ()) { o with state := some st } { d with state := some b }) :
    (commitState py st).Safe w (fun _ => True) Q o d := by
  rw [commitState, safe_bind, safe_attempt, safe_writeState hw hr]
  refine ⟨trivial, onWrite_of_writable hst fun _ b _ => ⟨trivial, ?_⟩⟩
  exact safe_pure.mpr ⟨trivial, h b⟩

/-- The log before an append, which is created when it does not exist. -/
theorem safe_logOffset (hw : Mild limit w) {Q : Except Exn Nat → EvidenceStore → Disk → Prop}
    (h : Q (.ok d.logBytes.length) o { d with log := some d.logBytes }) :
    logOffset.Safe w (fun _ => True) Q o d := by
  cases hd : d.log with
  | none =>
      have hbytes : d.logBytes = [] := by rw [Disk.logBytes, hd]; rfl
      rw [hbytes] at h
      simpa only [logOffset, safe_bind, safe_sys_statLog hw, hd, Option.map_none, Then,
        safe_sys_createLog hw, Option.isSome_none, Bool.false_eq_true, if_false, true_and,
        Option.map_some, List.length_nil, safe_pure] using h
  | some b =>
      have hbytes : d.logBytes = b := by rw [Disk.logBytes, hd]; rfl
      have hself : { d with log := some b } = d := by rw [← hd]
      rw [hbytes, hself] at h
      simpa only [logOffset, safe_bind, safe_sys_statLog hw, hd, Option.map_some, Then,
        safe_pure, true_and] using h

theorem dump_journalMembers (nodeId keyId eventHash record writtenAt : Str) {sequence : Int}
    {offset : Nat} (hsequence : (Decimal.natText sequence.natAbs).length ≤ maxDigits)
    (hoffset : (Decimal.natText offset).length ≤ maxDigits) :
    ∃ text, dump Style.default 0 (Value.ofMembers
      (journalMembers nodeId keyId sequence eventHash offset record writtenAt)) = .ok text := by
  have hint : ∀ i : Int, (Decimal.natText i.natAbs).length ≤ maxDigits →
      dumpInt i = .ok (Decimal.intText i) := fun i hi => if_neg (Nat.not_lt.mpr hi)
  have hoff : dumpInt (offset : Int) = .ok (Decimal.intText offset) := hint _ hoffset
  simp only [Value.ofMembers, journalMembers, List.map_cons, List.map_nil, dump, dumpMembers,
    hint sequence hsequence, hoff, bind, Except.bind, pure, Except.pure]
  exact ⟨_, rfl⟩

/-- The journal of an append is written. -/
theorem safe_writeJournal (hw : Mild limit w) {sequence : Int} {eventHash record : Str}
    {offset : Nat} {keyId : Option Str} {Q : Except Exn Unit → EvidenceStore → Disk → Prop}
    (hsequence : (Decimal.natText sequence.natAbs).length ≤ maxDigits)
    (hoffset : (Decimal.natText offset).length ≤ maxDigits)
    (h : ∀ b, Q (.ok ()) o { d with journal := some b }) :
    (writeJournal py sequence eventHash offset record keyId).Safe w (fun _ => True) Q o d := by
  simp only [writeJournal, safe_bind, safe_self, Then, safe_sys_now hw, true_and]
  intro time
  obtain ⟨text, htext⟩ := dump_journalMembers o.nodeId (ownKey keyId o.keyId) eventHash record
    (time.text py.padYears ++ [cp 'Z']) hsequence hoffset
  simp only [safe_sys_createJournal hw, Then, htext, safe_bind, safe_attempt,
    safe_sys_writeJournal hw, safe_pure, true_and, implies_true]
  exact h _

/-- The state that an append commits. -/
def appended (py : Interp) (o : EvidenceStore) (keyId : Option Str) (st : NodeState)
    (eventHash : Str) : NodeState :=
  ⟨o.nodeId, chooseKey py (optionalText keyId) o.keyId st, st.lastSequence + 1, some eventHash⟩

/-- What an append needs of the state at which the store stands, of the record it is given,
and of the room for it. -/
structure Appendable (py : Interp) (limit : Nat) (o : EvidenceStore) (d : Disk) (build : Build)
    (keyId : Option Str) (st : NodeState) (record eventHash : Str) : Prop where
  built : ∃ previous, EventChain.expectedPreviousHash py o.nodeId (st.lastSequence + 1)
    st.lastEventHash = .ok previous ∧ build (st.lastSequence + 1) previous = .ok (record, eventHash)
  scalar : Scalar record
  digits : (Decimal.natText (st.lastSequence + 1).natAbs).length ≤ maxDigits
  room : (d.logBytes ++ Utf8.encodeAll (record ++ [lf])).length ≤ limit
  size : limit < 10 ^ maxDigits
  writable : Writable py (appended py o keyId st eventHash)

theorem fileLimit_digits (py : Interp) : py.fileLimit < 10 ^ maxDigits :=
  py.fileLimit_lt.trans_le ((by decide : 2 ^ 63 ≤ 10 ^ 19).trans
    (Nat.pow_le_pow_right (by decide) (by decide)))

/-- An append that has what it needs leaves its record at the end of the log, the state at it,
and no journal. -/
theorem safe_appendSigned (hw : Mild limit w) (hr : ∀ b, Steady limit w (.replaceState b))
    (ha : ∀ b, Steady limit w (.appendLog b)) (hl : o.lockHeld = true) {st : NodeState}
    (hs : loadState py o d = .ok st) {build : Build} {keyId : Option Str} {record eventHash : Str}
    (h : Appendable py limit o d build keyId st record eventHash)
    {Q : Except Exn (Int × Str) → EvidenceStore → Disk → Prop}
    (hQ : ∀ b, Q (.ok (st.lastSequence + 1, eventHash))
      { o with state := some (appended py o keyId st eventHash) }
      { state := some b, journal := none, locked := d.locked
        log := some (d.logBytes ++ Utf8.encodeAll (record ++ [lf])) }) :
    (appendSigned py build keyId).Safe w (fun _ => True) Q o d := by
  obtain ⟨previous, hprevious, hbuild⟩ := h.built
  have hoffset : (Decimal.natText d.logBytes.length).length ≤ maxDigits := by
    have hroom := h.room
    rw [List.length_append] at hroom
    exact Decimal.natText_length_le (by decide) ((Nat.le_of_add_right_le hroom).trans_lt h.size)
  have hpayload : encoded (record ++ [lf]) = .ok (Utf8.encodeAll (record ++ [lf])) := by
    rw [encoded, Utf8.encode_of_scalar (scalar_append.mpr ⟨h.scalar, by decide⟩)]
  unfold appendSigned
  rw [safe_bind, safe_allocate hw hl hs, hprevious]
  refine ⟨trivial, ?_⟩
  simp only [Except.map, Then]
  rw [safe_bind, safe_ofExcept, hbuild]
  refine ⟨trivial, ?_⟩
  simp only [Then]
  rw [safe_bind]
  apply safe_logOffset hw
  simp only [Then]
  rw [safe_bind]
  apply safe_writeJournal hw h.digits hoffset
  intro journal
  simp only [Then]
  rw [safe_bind, safe_ofExcept, hpayload]
  refine ⟨trivial, ?_⟩
  simp only [Then]
  rw [safe_bind]
  apply safe_appendPayload (ha _)
  · exact h.room
  · simp only [Then]
    rw [safe_bind, safe_self]
    refine ⟨trivial, ?_⟩
    simp only [Then]
    rw [safe_bind]
    refine safe_commitState hw hr h.writable fun b => ?_
    simp only [Then]
    rw [safe_bind, safe_dropJournal hw]
    refine ⟨trivial, trivial, ?_⟩
    rw [Then, safe_pure]
    exact ⟨trivial, hQ b⟩

/-- When there is no hash to link to, or the record cannot be built, the append raises and
leaves everything as it is. -/
theorem safe_appendSigned_error (hw : Mild limit w) (hl : o.lockHeld = true) {st : NodeState}
    (hs : loadState py o d = .ok st) {build : Build} {keyId : Option Str}
    (h : ∀ previous, EventChain.expectedPreviousHash py o.nodeId (st.lastSequence + 1)
      st.lastEventHash = .ok previous → ∃ e, build (st.lastSequence + 1) previous = .error e)
    {Q : Except Exn (Int × Str) → EvidenceStore → Disk → Prop}
    (hQ : ∀ e, Q (.error e) (o.knowing (.ok st)) d) :
    (appendSigned py build keyId).Safe w (fun _ => True) Q o d := by
  unfold appendSigned
  rw [safe_bind, safe_allocate hw hl hs]
  refine ⟨trivial, ?_⟩
  cases hp : EventChain.expectedPreviousHash py o.nodeId (st.lastSequence + 1)
      st.lastEventHash with
  | error e => exact hQ e
  | ok previous =>
      obtain ⟨e, he⟩ := h previous hp
      simp only [Except.map, Then]
      rw [safe_bind, safe_ofExcept, he]
      exact ⟨trivial, hQ e⟩

end Append

end EvidenceStore

end IcsDeception
