import IcsDeception.StoreSpec

/-!
# Recovery on an arbitrary disk

What opening a store does, whatever the three files hold: when a journal is settled and
how, when the state passes the check against the log, and so on which disks an open
succeeds.
-/

namespace IcsDeception

open Text Json Calendar Method NodeState

namespace EvidenceStore

open Disk

section Truncation

variable {limit : Nat} {d : Disk} {offset : Int}

/-- The log can be cut to an offset. -/
def CanTruncate (limit : Nat) (d : Disk) (offset : Int) : Prop :=
  d.log.isSome = true ∧ 0 ≤ offset ∧ (offset ≤ d.logBytes.length ∨ offset ≤ limit)

/-- A disk with its log cut to an offset. -/
def truncated (d : Disk) (offset : Int) : Disk :=
  { d with log := some (resize d.logBytes offset.toNat) }

theorem truncate_of_can (h : CanTruncate limit d offset) :
    d.truncate limit offset = (.ok (), truncated d offset) := by
  obtain ⟨hl, h₀, hb⟩ := h
  obtain ⟨b, hb'⟩ := Option.isSome_iff_exists.mp hl
  simp only [Disk.logBytes, hb', Option.getD_some] at hb
  simp only [truncate, hb', truncated, Disk.logBytes, Option.getD_some]
  rw [if_neg (by omega), if_neg (by omega), if_pos hb]

theorem truncate_of_not_can (h : ¬ CanTruncate limit d offset) :
    ∃ e, d.truncate limit offset = (.error e, d) := by
  unfold truncate
  cases hl : d.log with
  | none => exact ⟨_, rfl⟩
  | some b =>
      simp only
      split_ifs with h₁ h₂ h₃ h₄
      · exact ⟨_, rfl⟩
      · exact ⟨_, rfl⟩
      · refine absurd ⟨by simp [hl], by omega, ?_⟩ h
        simpa [Disk.logBytes, hl] using h₃
      · exact ⟨_, rfl⟩
      · exact ⟨_, rfl⟩

theorem readAt_of_within {n : Nat} (hl : d.log.isSome = true) (h₀ : 0 ≤ offset)
    (h : offset ≤ d.logBytes.length) :
    d.readAt offset n = .ok ((d.logBytes.drop offset.toNat).take n) := by
  obtain ⟨b, hb⟩ := Option.isSome_iff_exists.mp hl
  simp only [Disk.logBytes, hb, Option.getD_some] at h ⊢
  simp only [readAt, hb]
  rw [if_neg (by omega), if_neg (by omega), if_pos (Or.inl h)]

end Truncation

section Settling

variable {limit : Nat} {w : World Fs Disk} {C : Disk → Prop} {o : EvidenceStore} {d : Disk}
  {py : Interp} {e : JournalEntry} {Q : Except Exn RecoveryReport → EvidenceStore → Disk → Prop}

/-- The bytes of a line stand in the log at an offset. -/
def Written (d : Disk) (offset : Int) (line : Bytes) : Prop :=
  offset + line.length ≤ d.logBytes.length ∧ d.readAt offset line.length = .ok line

instance (d : Disk) (offset : Int) (line : Bytes) : Decidable (Written d offset line) :=
  inferInstanceAs (Decidable (_ ∧ _))

/-- The state that completes the transaction of an entry. -/
def committed (py : Interp) (o : EvidenceStore) (e : JournalEntry) (st : NodeState) : NodeState :=
  ⟨o.nodeId, chooseKey py e.keyId o.keyId st, e.sequence, some e.eventHash⟩

/-- The report on a settled entry. -/
def settledReport (action : Action) (e : JournalEntry) (discarded : Nat) : RecoveryReport :=
  ⟨true, action, some e.sequence, discarded⟩

theorem safe_preserveTail (hw : Mild limit w) {offset : Int} {n : Nat}
    {Q : Except Exn Unit → EvidenceStore → Disk → Prop} :
    (preserveTail offset n).Safe w C Q o d ↔
      C d ∧ Q (forgive isOsError ((d.readAt offset n).map fun _ => ())) o d := by
  rw [preserveTail, safe_suppress, safe_bind, safe_sys_readLogAt hw]
  cases d.readAt offset n with
  | ok b => simp [Then, Except.map]
  | error e => simp [Then, Except.map]

/-- The tail can be read, so putting it aside raises nothing. -/
theorem safe_preserveDiscarded (hw : Mild limit w) (h : CanTruncate limit d e.offset)
    {Q : Except Exn Unit → EvidenceStore → Disk → Prop} :
    (preserveDiscarded e.offset ((d.logBytes.length : Int) - e.offset).toNat).Safe w C Q o d ↔
      C d ∧ Q (.ok ()) o d := by
  unfold preserveDiscarded
  split_ifs with hz
  · exact safe_pure
  · rw [safe_preserveTail hw, readAt_of_within h.1 h.2.1 (by omega)]
    rfl

theorem safe_undoAppend (hw : Mild limit w) (h : CanTruncate limit d e.offset) :
    (undoAppend e d.logBytes.length).Safe w C Q o d ↔
      C d ∧ C (truncated d e.offset) ∧ C { truncated d e.offset with journal := none } ∧
        Q (.ok (settledReport .rolledBackPartialAppend e (d.logBytes.length - e.offset).toNat)) o
          { truncated d e.offset with journal := none } := by
  simp only [undoAppend, safe_bind, safe_preserveDiscarded hw h, Then, truncateEvidence,
    safe_sys_truncateLog hw, truncate_of_can h, safe_dropJournal hw, safe_pure, settledReport]
  tauto

theorem safe_undoAppend_error (hw : Mild limit w) (h : ¬ CanTruncate limit d e.offset)
    (hC : C d) (hQ : ∀ ex, Q (.error ex) o d) :
    (undoAppend e d.logBytes.length).Safe w C Q o d := by
  obtain ⟨ex, hex⟩ := truncate_of_not_can h
  simp only [undoAppend, safe_bind, preserveDiscarded]
  -- putting the tail aside raises or not, and if not then the cut itself does
  split_ifs with hz
  · simp only [safe_pure, Then, safe_bind, truncateEvidence, safe_sys_truncateLog hw, hex]
    exact ⟨hC, hC, hC, hQ ex⟩
  · rw [safe_preserveTail hw]
    refine ⟨hC, ?_⟩
    cases forgive isOsError ((d.readAt e.offset _).map fun _ => ()) with
    | ok u =>
        simp only [Then, safe_bind, truncateEvidence, safe_sys_truncateLog hw, hex]
        exact ⟨hC, hC, hQ ex⟩
    | error ex' => exact hQ ex'

theorem safe_completeCommit (hw : Mild limit w) (hr : ∀ b, Steady limit w (.replaceState b))
    (hl : o.lockHeld = true) {st : NodeState} (hs : loadState py o d = .ok st)
    (h : st.lastSequence < e.sequence) :
    (completeCommit py e).Safe w C Q o d ↔ C d ∧
      OnWrite py (committed py o e st) (fun ex => Q (.error ex) (o.knowing (.ok st)) d)
        fun b => C { d with state := some b } ∧ C { d with state := some b, journal := none } ∧
          Q (.ok (settledReport .completedCommit e 0))
            { o with state := some (committed py o e st) }
            { d with state := some b, journal := none } := by
  simp only [completeCommit, safe_bind, safe_self, Then, safe_readState hw hl, hs, if_pos h,
    safe_writeState hw hr, safe_dropJournal hw, safe_pure]
  rw [← and_assoc, ← and_assoc, and_self, and_self]
  refine and_congr_right fun _ => onWrite_congr (fun _ => Iff.rfl) fun b => ?_
  simp only [settledReport, committed, knowing]
  tauto

theorem safe_completeCommit_done (hw : Mild limit w) (hl : o.lockHeld = true) {st : NodeState}
    (hs : loadState py o d = .ok st) (h : ¬ st.lastSequence < e.sequence) :
    (completeCommit py e).Safe w C Q o d ↔ C d ∧ C { d with journal := none } ∧
      Q (.ok (settledReport .alreadyCommitted e 0)) (o.knowing (.ok st))
        { d with journal := none } := by
  simp only [completeCommit, safe_bind, safe_self, Then, safe_readState hw hl, hs, if_neg h,
    safe_dropJournal hw, safe_pure, settledReport]
  tauto

theorem safe_completeCommit_error (hw : Mild limit w) (hl : o.lockHeld = true) {ex : Exn}
    (hs : loadState py o d = .error ex) :
    (completeCommit py e).Safe w C Q o d ↔ C d ∧ Q (.error ex) o d := by
  simp only [completeCommit, safe_bind, safe_self, Then, safe_readState hw hl, hs, knowing]
  tauto

theorem safe_settle_written (hw : Mild limit w) {line : Bytes} (hx : encoded e.line = .ok line)
    (h : Written d e.offset line) :
    (settle py e).Safe w C Q o d ↔ (completeCommit py e).Safe w C Q o d := by
  simp only [settle, safe_bind, safe_logSize hw, Then, safe_ofExcept, hx, if_pos h.1,
    safe_sys_readLogAt hw, h.2, if_true]
  exact ⟨fun H => H.2.2.2, fun H => ⟨H.start, H.start, H.start, H⟩⟩

theorem safe_settle_unwritten (hw : Mild limit w) {line : Bytes} (hx : encoded e.line = .ok line)
    (h : ¬ Written d e.offset line) (hc : CanTruncate limit d e.offset) :
    (settle py e).Safe w C Q o d ↔ (undoAppend e d.logBytes.length).Safe w C Q o d := by
  simp only [settle, safe_bind, safe_logSize hw, Then, safe_ofExcept, hx]
  by_cases hf : e.offset + line.length ≤ d.logBytes.length
  · have hne : (d.logBytes.drop e.offset.toNat).take line.length ≠ line := by
      intro heq
      exact h ⟨hf, by rw [readAt_of_within hc.1 hc.2.1 (by omega), heq]⟩
    simp only [if_pos hf, safe_bind, safe_sys_readLogAt hw, Then,
      readAt_of_within hc.1 hc.2.1 (show e.offset ≤ d.logBytes.length by omega), if_neg hne]
    exact ⟨fun H => H.2.2.2, fun H => ⟨H.start, H.start, H.start, H⟩⟩
  · simp only [if_neg hf]
    exact ⟨fun H => H.2.2, fun H => ⟨H.start, H.start, H⟩⟩

/-- An entry whose record is not in the log and whose offset is no place in it. -/
theorem safe_settle_error (hw : Mild limit w) {line : Bytes} (hx : encoded e.line = .ok line)
    (h : ¬ Written d e.offset line) (hc : ¬ CanTruncate limit d e.offset) (hC : C d)
    (hQ : ∀ ex, Q (.error ex) o d) : (settle py e).Safe w C Q o d := by
  simp only [settle, safe_bind, safe_logSize hw, Then, safe_ofExcept, hx]
  refine ⟨hC, hC, ?_⟩
  split_ifs with hf
  · rw [safe_bind, safe_sys_readLogAt hw]
    refine ⟨hC, ?_⟩
    cases ha : d.readAt e.offset line.length with
    | error ex => exact hQ ex
    | ok b =>
        have hne : b ≠ line := fun heq => h ⟨hf, heq ▸ ha⟩
        simp only [Then, if_neg hne]
        exact safe_undoAppend_error hw hc hC hQ
  · exact safe_undoAppend_error hw hc hC hQ

theorem safe_settle_unencodable (hw : Mild limit w) {ex : Exn} (hx : encoded e.line = .error ex) :
    (settle py e).Safe w C Q o d ↔ C d ∧ Q (.error ex) o d := by
  simp only [settle, safe_bind, safe_logSize hw, Then, safe_ofExcept, hx]
  tauto

theorem safe_discardJournal (hw : Mild limit w) {action : Action} :
    (discardJournal action).Safe w C Q o d ↔ C d ∧ C { d with journal := none } ∧
      Q (.ok ⟨true, action, none, 0⟩) o { d with journal := none } := by
  simp only [discardJournal, safe_bind, safe_dropJournal hw, Then, safe_pure]
  tauto

end Settling

section Checking

variable {limit : Nat} {w : World Fs Disk} {C : Disk → Prop} {o : EvidenceStore} {d : Disk}
  {py : Interp} {report : RecoveryReport} {st : NodeState}
  {Q : Except Exn RecoveryReport → EvidenceStore → Disk → Prop}

/-- The state that adopts a record at the end of the log. -/
def adopting (py : Interp) (o : EvidenceStore) (st : NodeState) (r : Logged) : NodeState :=
  ⟨o.nodeId, chooseKey py .null o.keyId st, r.sequence, some r.eventHash⟩

theorem adopted_eq_self (report : RecoveryReport) : RecoveryReport.adopted report = report := by
  unfold RecoveryReport.adopted
  cases report.action <;> exact if_neg (by decide)

theorem safe_check_zero (hw : Mild limit w) (hl : o.lockHeld = true)
    (hs : loadState py o d = .ok st) (h : st.lastSequence = 0) :
    (checkStateAgainstLog py report).Safe w C Q o d ↔
      C d ∧ Q (.ok report) (o.knowing (.ok st)) d := by
  simp only [checkStateAgainstLog, safe_bind, safe_self, Then, safe_readState hw hl, hs, if_pos h,
    safe_pure]
  tauto

theorem safe_check_equal (hw : Mild limit w) (hl : o.lockHeld = true)
    (hs : loadState py o d = .ok st) (h : st.lastSequence ≠ 0) {r : Logged}
    (hr : lastLogged py o.nodeId d = .ok (some r)) (heq : st.lastSequence = r.sequence) :
    (checkStateAgainstLog py report).Safe w C Q o d ↔
      C d ∧ Q (.ok report) (o.knowing (.ok st)) d := by
  have hr' : lastLogged py (o.knowing (.ok st)).nodeId d = .ok (some r) := hr
  simp only [checkStateAgainstLog, safe_bind, safe_self, Then, safe_readState hw hl, hs, if_neg h,
    safe_lastLoggedSequence hw, hr', Except.map, Option.map, if_neg heq.not_lt, if_neg heq.not_gt,
    safe_pure]
  tauto

theorem safe_check_adopt (hw : Mild limit w) (hr' : ∀ b, Steady limit w (.replaceState b))
    (hl : o.lockHeld = true) (hs : loadState py o d = .ok st) (h : st.lastSequence ≠ 0) {r : Logged}
    (hr : lastLogged py o.nodeId d = .ok (some r)) (hlt : st.lastSequence < r.sequence) :
    (checkStateAgainstLog py report).Safe w C Q o d ↔ C d ∧
      OnWrite py (adopting py o st r) (fun e => Q (.error e) (o.knowing (.ok st)) d)
        fun b => C { d with state := some b } ∧
          Q (.ok report) { o with state := some (adopting py o st r) }
            { d with state := some b } := by
  have hr₁ : lastLogged py (o.knowing (.ok st)).nodeId d = .ok (some r) := hr
  simp only [checkStateAgainstLog, safe_bind, safe_self, Then, safe_readState hw hl, hs, if_neg h,
    safe_lastLoggedSequence hw, safe_lastLoggedRecord hw, hr₁, Except.map, Option.map,
    if_neg (not_lt_of_gt hlt), if_pos hlt, safe_writeState hw hr', adopted_eq_self, safe_pure]
  simp only [← and_assoc, and_self]
  refine and_congr_right fun _ => onWrite_congr (fun _ => Iff.rfl) fun b => ?_
  simp only [adopting, knowing]

/-- The log holds what a state claims. -/
def Covered (py : Interp) (nodeId : Str) (d : Disk) (st : NodeState) : Prop :=
  st.lastSequence = 0 ∨
    ∃ r, lastLogged py nodeId d = .ok (some r) ∧ st.lastSequence ≤ r.sequence

theorem safe_check_uncovered (hw : Mild limit w) (hl : o.lockHeld = true)
    (hs : loadState py o d = .ok st) (h : ¬ Covered py o.nodeId d st) (hC : C d)
    (hQ : ∀ e, Q (.error e) (o.knowing (.ok st)) d) :
    (checkStateAgainstLog py report).Safe w C Q o d := by
  have h₀ : st.lastSequence ≠ 0 := fun h₀ => h (Or.inl h₀)
  simp only [checkStateAgainstLog, safe_bind, safe_self, Then, safe_readState hw hl, hs, if_neg h₀,
    safe_lastLoggedSequence hw]
  refine ⟨hC, hC, hC, ?_⟩
  have hn : lastLogged py (o.knowing (.ok st)).nodeId d = lastLogged py o.nodeId d := rfl
  rw [hn]
  cases hr : lastLogged py o.nodeId d with
  | error e => exact hQ e
  | ok last =>
      cases last with
      | none => exact ⟨hC, hQ _⟩
      | some r =>
          have hlt : r.sequence < st.lastSequence := by
            by_contra hle
            exact h (Or.inr ⟨r, hr, not_lt.mp hle⟩)
          simp only [Except.map, Option.map, if_pos hlt]
          exact ⟨hC, hQ _⟩

theorem safe_check_unreadable (hw : Mild limit w) (hl : o.lockHeld = true) {e : Exn}
    (hs : loadState py o d = .error e) :
    (checkStateAgainstLog py report).Safe w C Q o d ↔ C d ∧ Q (.error e) o d := by
  simp only [checkStateAgainstLog, safe_bind, safe_self, Then, safe_readState hw hl, hs, knowing]
  tauto

end Checking

section Opening

variable {limit : Nat} {w : World Fs Disk} {C : Disk → Prop} {o : EvidenceStore} {d : Disk}
  {py : Interp} {Q : Except Exn RecoveryReport → EvidenceStore → Disk → Prop}

/-- The store after recovery has returned. -/
def noting (o : EvidenceStore) : Except Exn RecoveryReport → EvidenceStore
  | .ok report => { o with lastRecovery := some report }
  | .error _ => o

theorem safe_replayJournal (b : Bytes) :
    (replayJournal py b).Safe w C Q o d ↔ C d ∧
      match readJournal py o.nodeId b with
      | .error ex => Q (.error ex) o d
      | .ok .unreadable => (discardJournal .discardedUnreadableJournal).Safe w C Q o d
      | .ok .foreign => (discardJournal .discardedForeignJournal).Safe w C Q o d
      | .ok (.entry e) => (settle py e).Safe w C Q o d := by
  simp only [replayJournal, safe_bind, safe_self, Then, safe_ofExcept]
  cases readJournal py o.nodeId b with
  | error ex => simp
  | ok j => cases j <;> simp

theorem safe_replayIfPresent (hw : Mild limit w) :
    (replayIfPresent py).Safe w C Q o d ↔ C d ∧
      match d.journal with
      | none => Q (.ok .start) o d
      | some b => (replayJournal py b).Safe w C Q o d := by
  simp only [replayIfPresent, safe_bind, safe_attempt, safe_sys_readJournal hw, Then]
  cases d.journal with
  | none => simp
  | some b => rfl

theorem safe_recover (hl : o.lockHeld = true) :
    (recover py).Safe w C Q o d ↔ C d ∧
      (replayIfPresent py).Safe w C
        (Then w C (fun r o' d' => Q r (o'.noting r) d') (checkStateAgainstLog py)) o d := by
  simp only [recover, safe_bind, safe_requireLock hl, Then]
  refine and_congr_right fun _ => ?_
  constructor
  · intro H
    refine H.weaken fun r o' d' _ h => ?_
    cases r with
    | error e => exact h
    | ok report =>
        simp only [Then]
        refine Safe.weaken (safe_bind.mp h) fun r' o'' d'' _ h' => ?_
        cases r' with
        | error e => exact h'
        | ok report' => exact h'.2
  · intro H
    refine H.weaken fun r o' d' _ h => ?_
    cases r with
    | error e => exact h
    | ok report =>
        simp only [Then] at h
        refine safe_bind.mpr (h.weaken fun r' o'' d'' hc h' => ?_)
        cases r' with
        | error e => exact h'
        | ok report' => exact ⟨hc, h'⟩

/-- Without a journal recovery is the check of the state against the log. -/
theorem safe_recover_journalless (hw : Mild limit w) (hl : o.lockHeld = true)
    (hj : d.journal = none) :
    (recover py).Safe w C Q o d ↔
      (checkStateAgainstLog py .start).Safe w C (fun r o' d' => Q r (o'.noting r) d') o d := by
  rw [safe_recover hl, safe_replayIfPresent hw]
  simp only [hj, Then]
  exact ⟨fun h => h.2.2, fun h => ⟨h.start, h.start, h⟩⟩

theorem safe_acquire (hw : Mild limit w) (ho : o.lockHeld = false)
    {Q : Except Exn Unit → EvidenceStore → Disk → Prop} :
    acquire.Safe w C Q o d ↔ C d ∧
      if d.locked then Q (.error .stateLock) o d
      else C { d with locked := true } ∧
        Q (.ok ()) { o with lockHeld := true } { d with locked := true } := by
  simp only [acquire, safe_bind, safe_self, Then, ho, Bool.false_eq_true, if_false,
    safe_sys_lock hw]
  cases hd : d.locked with
  | true => simp
  | false =>
      simp only [Bool.false_eq_true, if_false, safe_modify]
      tauto

theorem safe_release (hw : Mild limit w) (ho : o.lockHeld = true)
    {Q : Except Exn Unit → EvidenceStore → Disk → Prop} :
    release.Safe w C Q o d ↔ C d ∧ C { d with locked := false } ∧
        Q (.ok ()) { o with lockHeld := false } { d with locked := false } := by
  simp only [release, safe_bind, safe_self, Then, ho, if_true, safe_modify, safe_sys_unlock hw]
  tauto

/-- What becomes of a journal that is settled: what reading the state gives afterwards, and
the disk, up to the bytes of the state file. -/
inductive Settles (py : Interp) (limit : Nat) (o : EvidenceStore) (d : Disk) :
    Except Exn NodeState → Disk → Prop
  | absent (hb : d.journal = none) : Settles py limit o d (loadState py o d) d
  | discarded {b : Bytes} {j : Journal} (hb : d.journal = some b)
      (hj : readJournal py o.nodeId b = .ok j) (hn : ∀ e, j ≠ .entry e) :
      Settles py limit o d (loadState py o d) { d with journal := none }
  | completed {b line : Bytes} {e : JournalEntry} {st : NodeState} (hb : d.journal = some b)
      (hj : readJournal py o.nodeId b = .ok (.entry e)) (hx : encoded e.line = .ok line)
      (hin : Written d e.offset line) (hs : loadState py o d = .ok st)
      (hlt : st.lastSequence < e.sequence) (hwr : Writable py (committed py o e st)) :
      Settles py limit o d (.ok (committed py o e st)) { d with journal := none }
  | alreadyCommitted {b line : Bytes} {e : JournalEntry} {st : NodeState} (hb : d.journal = some b)
      (hj : readJournal py o.nodeId b = .ok (.entry e)) (hx : encoded e.line = .ok line)
      (hin : Written d e.offset line) (hs : loadState py o d = .ok st)
      (hlt : ¬ st.lastSequence < e.sequence) :
      Settles py limit o d (.ok st) { d with journal := none }
  | undone {b line : Bytes} {e : JournalEntry} (hb : d.journal = some b)
      (hj : readJournal py o.nodeId b = .ok (.entry e)) (hx : encoded e.line = .ok line)
      (hin : ¬ Written d e.offset line) (hc : CanTruncate limit d e.offset) :
      Settles py limit o d (loadState py o d) { truncated d e.offset with journal := none }

/-- The state passes the check against the log. -/
def Passes (py : Interp) (o : EvidenceStore) (d : Disk) (st : NodeState) : Prop :=
  st.lastSequence = 0 ∨ ∃ r, lastLogged py o.nodeId d = .ok (some r) ∧
    st.lastSequence ≤ r.sequence ∧
      (st.lastSequence < r.sequence → Writable py (adopting py o st r))

/-- Recovery raises nothing on this disk. -/
def Openable (py : Interp) (limit : Nat) (o : EvidenceStore) (d : Disk) : Prop :=
  ∃ st d', Settles py limit o d (.ok st) d' ∧ Passes py o d' st

/-- The state file after a journal has been settled: as it was, or with a later state. -/
def Kept (py : Interp) (o : EvidenceStore) (d : Disk) (r : Except Exn NodeState) (d₁ : Disk) :
    Prop :=
  (r = loadState py o d ∧ d₁.state = d.state) ∨
    ∃ st st' time b, loadState py o d = .ok st ∧ r = .ok st' ∧
      st.lastSequence < st'.lastSequence ∧ fileBytes py st' time = .ok b ∧ d₁.state = some b

/-- A store and a disk as they stand after a journal has been settled. -/
structure After (py : Interp) (o : EvidenceStore) (d : Disk) (r : Except Exn NodeState) (d' : Disk)
    (o₁ : EvidenceStore) (d₁ : Disk) : Prop where
  lockHeld : o₁.lockHeld = o.lockHeld
  nodeId : o₁.nodeId = o.nodeId
  keyId : o₁.keyId = o.keyId
  state : loadState py o₁ d₁ = r
  log : d₁.log = d'.log
  journal : d₁.journal = none
  locked : d₁.locked = d.locked
  file : Kept py o d r d₁

theorem loadState_knowing {st : NodeState} (d' : Disk) :
    loadState py (o.knowing (.ok st)) d' = .ok st := rfl

theorem safe_replay_of_settles (hw : Mild limit w) (hr : ∀ b, Steady limit w (.replaceState b))
    (hl : o.lockHeld = true) {r : Except Exn NodeState} {d' : Disk}
    (h : Settles py limit o d r d')
    (hQ : ∀ report o₁ d₁, After py o d r d' o₁ d₁ → Q (.ok report) o₁ d₁) :
    (replayIfPresent py).Safe w (fun _ => True) Q o d := by
  rw [safe_replayIfPresent hw]
  refine ⟨trivial, ?_⟩
  cases h with
  | absent hb =>
      rw [hb]
      exact hQ _ _ _ ⟨rfl, rfl, rfl, rfl, rfl, hb, rfl, .inl ⟨rfl, rfl⟩⟩
  | discarded hb hj hn =>
      simp only [hb, safe_replayJournal, hj]
      cases hj' : ‹Journal› with
      | unreadable =>
          simp only [safe_discardJournal hw, true_and]
          exact hQ _ _ _ ⟨rfl, rfl, rfl, rfl, rfl, rfl, rfl, .inl ⟨rfl, rfl⟩⟩
      | «foreign» =>
          simp only [safe_discardJournal hw, true_and]
          exact hQ _ _ _ ⟨rfl, rfl, rfl, rfl, rfl, rfl, rfl, .inl ⟨rfl, rfl⟩⟩
      | entry e => exact absurd hj' (hn e)
  | completed hb hj hx hin hs hlt hwr =>
      simp only [hb, safe_replayJournal, hj, safe_settle_written hw hx hin,
        safe_completeCommit hw hr hl hs hlt, true_and]
      refine onWrite_of_writable hwr fun time b hb => ?_
      have hmoved : Kept py o d (.ok (committed py o _ _)) { d with state := some b, journal := none } :=
        .inr ⟨_, _, time, b, hs, rfl, hlt, hb, rfl⟩
      exact hQ _ _ _ ⟨rfl, rfl, rfl, rfl, rfl, rfl, rfl, hmoved⟩
  | alreadyCommitted hb hj hx hin hs hlt =>
      simp only [hb, safe_replayJournal, hj, safe_settle_written hw hx hin,
        safe_completeCommit_done hw hl hs hlt, true_and]
      exact hQ _ _ _ ⟨rfl, rfl, rfl, rfl, rfl, rfl, rfl, .inl ⟨hs.symm, rfl⟩⟩
  | undone hb hj hx hin hc =>
      simp only [hb, safe_replayJournal, hj, safe_settle_unwritten hw hx hin hc,
        safe_undoAppend hw hc, true_and]
      exact hQ _ _ _ ⟨rfl, rfl, rfl, rfl, rfl, rfl, rfl, .inl ⟨rfl, rfl⟩⟩

/-- A journal that is not settled makes recovery raise, with nothing on disk changed. -/
theorem safe_replay_of_not_settles (hw : Mild limit w)
    (hr : ∀ b, Steady limit w (.replaceState b)) (hl : o.lockHeld = true)
    (h : ∀ r d', ¬ Settles py limit o d r d')
    (hQ : ∀ ex o₁, o₁.lockHeld = o.lockHeld → o₁.nodeId = o.nodeId → o₁.keyId = o.keyId →
      loadState py o₁ d = loadState py o d → Q (.error ex) o₁ d) :
    (replayIfPresent py).Safe w (fun _ => True) Q o d := by
  rw [safe_replayIfPresent hw]
  refine ⟨trivial, ?_⟩
  have hsame : ∀ ex, Q (.error ex) o d := fun ex => hQ ex o rfl rfl rfl rfl
  cases hb : d.journal with
  | none => exact absurd (.absent hb) (h _ _)
  | some b =>
      simp only [safe_replayJournal, true_and]
      cases hj : readJournal py o.nodeId b with
      | error ex => exact hsame ex
      | ok j =>
          cases j with
          | unreadable => exact absurd (.discarded hb hj (by simp)) (h _ _)
          | «foreign» => exact absurd (.discarded hb hj (by simp)) (h _ _)
          | entry e =>
              simp only
              cases hx : encoded e.line with
              | error ex =>
                  rw [safe_settle_unencodable hw hx]
                  exact ⟨trivial, hsame ex⟩
              | ok line =>
                  by_cases hin : Written d e.offset line
                  · rw [safe_settle_written hw hx hin]
                    cases hs : loadState py o d with
                    | error ex =>
                        rw [safe_completeCommit_error hw hl hs]
                        exact ⟨trivial, hsame ex⟩
                    | ok st =>
                        by_cases hlt : st.lastSequence < e.sequence
                        · rw [safe_completeCommit hw hr hl hs hlt]
                          have hwr : ¬ Writable py (committed py o e st) :=
                            fun hwr => h _ _ (.completed hb hj hx hin hs hlt hwr)
                          refine ⟨trivial, onWrite_of_not_writable hwr fun ex => ?_⟩
                          exact hQ ex _ rfl rfl rfl (by rw [loadState_knowing, hs])
                        · exact absurd (.alreadyCommitted hb hj hx hin hs hlt) (h _ _)
                  · have hc : ¬ CanTruncate limit d e.offset :=
                      fun hc => h _ _ (.undone hb hj hx hin hc)
                    exact safe_settle_error hw hx hin hc trivial hsame

theorem passes_congr {o₁ : EvidenceStore} {d₁ d' : Disk} {st : NodeState}
    (hn : o₁.nodeId = o.nodeId) (hk : o₁.keyId = o.keyId) (hl : d₁.log = d'.log) :
    Passes py o₁ d₁ st ↔ Passes py o d' st := by
  simp only [Passes, lastLogged, adopting, hn, hk, hl]

/-- The state at which a store rests when a state has passed the check against the log: the
state itself, or the one that adopts a later record. -/
def resting (py : Interp) (o : EvidenceStore) (d : Disk) (st : NodeState) : NodeState :=
  if st.lastSequence = 0 then st
  else
    match lastLogged py o.nodeId d with
    | .ok (some r) => if st.lastSequence < r.sequence then adopting py o st r else st
    | _ => st

/-- A store and a disk after a state has passed the check against the log. -/
structure Rested (py : Interp) (o : EvidenceStore) (d : Disk) (st : NodeState)
    (o₁ : EvidenceStore) (d₁ : Disk) : Prop where
  lockHeld : o₁.lockHeld = o.lockHeld
  nodeId : o₁.nodeId = o.nodeId
  keyId : o₁.keyId = o.keyId
  state : o₁.state = some (resting py o d st)
  log : d₁.log = d.log
  locked : d₁.locked = d.locked

theorem safe_check_of_passes (hw : Mild limit w) (hr : ∀ b, Steady limit w (.replaceState b))
    (hl : o.lockHeld = true) {report : RecoveryReport} {st : NodeState}
    (hs : loadState py o d = .ok st) (h : Passes py o d st)
    (hQ : ∀ o₁ d₁, Rested py o d st o₁ d₁ → Q (.ok report) o₁ d₁) :
    (checkStateAgainstLog py report).Safe w (fun _ => True) Q o d := by
  by_cases hz : st.lastSequence = 0
  · have hrest : resting py o d st = st := if_pos hz
    rw [safe_check_zero hw hl hs hz]
    exact ⟨trivial, hQ _ _ ⟨rfl, rfl, rfl, congrArg some hrest.symm, rfl, rfl⟩⟩
  · rcases h with h | ⟨r, hlast, hle, hwr⟩
    · exact absurd h hz
    · rcases hle.lt_or_eq with hlt | heq
      · have hrest : resting py o d st = adopting py o st r := by
          simp only [resting, if_neg hz, hlast, if_pos hlt]
        rw [safe_check_adopt hw hr hl hs hz hlast hlt]
        refine ⟨trivial, onWrite_of_writable (hwr hlt) fun _ _ _ => ⟨trivial, ?_⟩⟩
        exact hQ _ _ ⟨rfl, rfl, rfl, congrArg some hrest.symm, rfl, rfl⟩
      · have hrest : resting py o d st = st := by
          simp only [resting, if_neg hz, hlast, if_neg heq.not_lt]
        rw [safe_check_equal hw hl hs hz hlast heq]
        exact ⟨trivial, hQ _ _ ⟨rfl, rfl, rfl, congrArg some hrest.symm, rfl, rfl⟩⟩

theorem safe_check_of_not_passes (hw : Mild limit w) (hr : ∀ b, Steady limit w (.replaceState b))
    (hl : o.lockHeld = true) {report : RecoveryReport} {st : NodeState}
    (hs : loadState py o d = .ok st) (h : ¬ Passes py o d st)
    (hQ : ∀ e, Q (.error e) (o.knowing (.ok st)) d) :
    (checkStateAgainstLog py report).Safe w (fun _ => True) Q o d := by
  by_cases hc : Covered py o.nodeId d st
  · have hz : st.lastSequence ≠ 0 := fun hz => h (Or.inl hz)
    rcases hc with hc | ⟨r, hlast, hle⟩
    · exact absurd hc hz
    · have hlt : st.lastSequence < r.sequence := by
        refine hle.lt_of_ne fun heq => h (Or.inr ⟨r, hlast, hle, fun hlt => ?_⟩)
        exact absurd heq hlt.ne
      have hwr : ¬ Writable py (adopting py o st r) :=
        fun hwr => h (Or.inr ⟨r, hlast, hle, fun _ => hwr⟩)
      rw [safe_check_adopt hw hr hl hs hz hlast hlt]
      exact ⟨trivial, onWrite_of_not_writable hwr hQ⟩
  · exact safe_check_uncovered hw hl hs hc trivial hQ

/-- On this disk a store opens at a state, over a log. -/
def OpensAt (py : Interp) (limit : Nat) (o : EvidenceStore) (d : Disk) (st : NodeState)
    (log : Bytes) : Prop :=
  ∃ st₀ d₀, Settles py limit o d (.ok st₀) d₀ ∧ Passes py o d₀ st₀ ∧
    st = resting py o d₀ st₀ ∧ log = d₀.logBytes

/-- A store that opens does so at some state, over some log. -/
theorem openable_iff_opensAt : Openable py limit o d ↔ ∃ st log, OpensAt py limit o d st log := by
  constructor
  · rintro ⟨st₀, d₀, hs, hp⟩
    exact ⟨_, _, st₀, d₀, hs, hp, rfl, rfl⟩
  · rintro ⟨-, -, st₀, d₀, hs, hp, -, -⟩
    exact ⟨st₀, d₀, hs, hp⟩

/-- Recovery brings a store to the state at which it opens. -/
theorem safe_recover_of_opensAt (hw : Mild limit w) (hr : ∀ b, Steady limit w (.replaceState b))
    (hl : o.lockHeld = true) {st : NodeState} {log : Bytes} (h : OpensAt py limit o d st log)
    (hQ : ∀ report o₁ d₁, o₁.lockHeld = true → o₁.nodeId = o.nodeId → o₁.keyId = o.keyId →
      o₁.state = some st → d₁.logBytes = log → d₁.locked = d.locked → Q (.ok report) o₁ d₁) :
    (recover py).Safe w (fun _ => True) Q o d := by
  obtain ⟨st₀, d₀, hs, hp, rfl, rfl⟩ := h
  rw [safe_recover hl]
  refine ⟨trivial, safe_replay_of_settles hw hr hl hs fun report o₁ d₁ ha => ?_⟩
  simp only [Then]
  refine safe_check_of_passes hw hr (ha.lockHeld.trans hl) ha.state
    ((passes_congr ha.nodeId ha.keyId ha.log).mpr hp) fun o₂ d₂ hrest => ?_
  have hstate : resting py o₁ d₁ st₀ = resting py o d₀ st₀ := by
    simp only [resting, lastLogged, adopting, ha.nodeId, ha.keyId, ha.log]
  have hlog : d₂.logBytes = d₀.logBytes := by rw [Disk.logBytes, hrest.log, ha.log, Disk.logBytes]
  exact hQ report _ _ (hrest.lockHeld.trans (ha.lockHeld.trans hl)) (hrest.nodeId.trans ha.nodeId)
    (hrest.keyId.trans ha.keyId) (hrest.state.trans (congrArg some hstate)) hlog
    (hrest.locked.trans ha.locked)

/-- Recovery returns on a disk on which it can. -/
theorem safe_recover_of_openable (hw : Mild limit w) (hr : ∀ b, Steady limit w (.replaceState b))
    (hl : o.lockHeld = true) (h : Openable py limit o d)
    (hQ : ∀ report o₁ d₁, o₁.lockHeld = true → d₁.locked = d.locked → Q (.ok report) o₁ d₁) :
    (recover py).Safe w (fun _ => True) Q o d := by
  obtain ⟨st, log, h⟩ := openable_iff_opensAt.mp h
  exact safe_recover_of_opensAt hw hr hl h fun report o₁ d₁ hl₁ _ _ _ _ hd₁ => hQ report o₁ d₁ hl₁ hd₁

/-- Recovery raises on every other disk, and the store keeps the lock. -/
theorem safe_recover_of_not_openable (hw : Mild limit w)
    (hr : ∀ b, Steady limit w (.replaceState b)) (hl : o.lockHeld = true)
    (h : ¬ Openable py limit o d)
    (hQ : ∀ ex o₁ d₁, o₁.lockHeld = true → d₁.locked = d.locked → Q (.error ex) o₁ d₁) :
    (recover py).Safe w (fun _ => True) Q o d := by
  rw [safe_recover hl]
  refine ⟨trivial, ?_⟩
  by_cases hs : ∃ r d', Settles py limit o d r d'
  · obtain ⟨r, d', hs⟩ := hs
    refine safe_replay_of_settles hw hr hl hs fun report o₁ d₁ ha => ?_
    have hl₁ : o₁.lockHeld = true := ha.lockHeld.trans hl
    simp only [Then]
    cases r with
    | error ex =>
        rw [safe_check_unreadable hw hl₁ ha.state]
        exact ⟨trivial, hQ _ _ _ hl₁ ha.locked⟩
    | ok st =>
        have hp : ¬ Passes py o₁ d₁ st := fun hp =>
          h ⟨st, d', hs, (passes_congr ha.nodeId ha.keyId ha.log).mp hp⟩
        exact safe_check_of_not_passes hw hr hl₁ ha.state hp fun e => hQ _ _ _ hl₁ ha.locked
  · push Not at hs
    exact safe_replay_of_not_settles hw hr hl hs fun ex o₁ h₁ _ _ _ =>
      hQ ex o₁ d (h₁.trans hl) rfl

end Opening

end EvidenceStore

end IcsDeception
