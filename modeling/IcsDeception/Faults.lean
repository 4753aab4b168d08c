import IcsDeception.Recovery
import IcsDeception.Lib.Keeping

/-!
# A store whose system calls fail

The world in which any system call may fail, with what each leaves when it does, and what
opening a store makes of the log there: it stays, or it is cut at the offset of a journal
whose record is not in it, however often a recovery is cut short by a failure.

## Implementation notes

Beside the disk the world remembers how far the session has come with its record. The
failures that make the outcome of a session differ from its log are `Stage.spoiled`; before
a record is in the log no failure is one of them.
-/

namespace IcsDeception

open Text Json Calendar Method NodeState

/-! ## The world -/

namespace Disk

/-- How a call may fail, and what it leaves. -/
inductive Failure (limit : Nat) : (c : Op) → Disk → Except Exn c.Result → Disk → Prop
  /-- Nothing is done. Only the clock never fails. -/
  | plain {c : Op} (d : Disk) (hc : c ≠ .now) : Failure limit c d (.error .osError) d
  /-- The lock is held by another, or its file is refused. -/
  | busy (d : Disk) : Failure limit .lock d (.error .stateLock) d
  | refused (d : Disk) : Failure limit .lock d (.error .evidenceStore) d
  /-- The lock is free although closing its file has failed. -/
  | close (d : Disk) : Failure limit .unlock d (.error .osError) { d with locked := false }
  | createLog (d : Disk) :
      Failure limit .createLog d (.error .osError) { d with log := some d.logBytes }
  | createJournal (d : Disk) :
      Failure limit .createJournal d (.error .osError) { d with journal := some [] }
  /-- A part is written, or everything and the flushing fails. -/
  | writeJournal {b p : Bytes} (d : Disk) (hp : p <+: b) :
      Failure limit (.writeJournal b) d (.error .osError) { d with journal := some p }
  | appendLog {b p : Bytes} (d : Disk) (hp : p <+: b) (hl : (d.logBytes ++ p).length ≤ limit) :
      Failure limit (.appendLog b) d (.error .osError) (d.extend p)
  /-- The log is cut and the flushing fails. -/
  | truncateLog {offset : Int} {d d' : Disk} (hd : d.truncate limit offset = (.ok (), d')) :
      Failure limit (.truncateLog offset) d (.error .osError) d'

theorem Failure.error {limit : Nat} {c : Op} {d d' : Disk} {r : Except Exn c.Result}
    (h : Failure limit c d r d') : ∃ e, r = .error e := by
  cases h <;> exact ⟨_, rfl⟩

end Disk

/-- How far a session has come with its record. -/
inductive Stage
  /-- The log is as it was. -/
  | idle
  /-- The record is in the log. -/
  | written
  /-- A failed append has left bytes behind this length. -/
  | torn (length : Nat)
  /-- The commit of a record in the log has failed, or the release of the lock behind it, or
  the bytes of a failed append have not been cut off. -/
  | spoiled

/-- The stage behind a call. -/
def Stage.after (c : Op) (r : Except Exn c.Result) (d d' : Disk) : Stage → Stage
  | .spoiled => .spoiled
  | .idle =>
      match c, r with
      | .appendLog _, .ok _ => .written
      | .appendLog _, .error _ => if d'.logBytes = d.logBytes then .idle else .torn d.logBytes.length
      | _, _ => .idle
  | .torn length =>
      match c, r with
      | .truncateLog _, _ => if d'.logBytes.length = length then .idle else .spoiled
      | .statLog, .error _ => .spoiled
      | _, _ => .torn length
  | .written =>
      match c, r with
      | .replaceState _, .error _ => .spoiled
      | .unlock, .error _ => .spoiled
      | .unlock, .ok _ => .idle
      | _, _ => .written

/-- A disk and the stage of the session on it. -/
structure Watched where
  disk : Disk
  stage : Stage

/-- The world in which any call may fail. -/
def faulty (limit : Nat) : World Fs Watched where
  answers c s r t :=
    ((∃ time, Disk.handle limit time c s.disk = (r, t.disk)) ∨
      Disk.Failure limit c s.disk r t.disk) ∧ t.stage = s.stage.after c r s.disk t.disk
  tears c s t := Disk.Tear limit c s.disk t.disk ∧ t.stage = s.stage

theorem faulty_keeps_spoiled (limit : Nat) : (faulty limit).Keeps fun s => s.stage = .spoiled := by
  rintro c s r t hs ⟨-, ht⟩
  rw [ht, hs]
  rfl

namespace EvidenceStore

open Disk

/-! ## Journals that leave the log alone -/

/-- The record of an entry stands in the log, or the log ends where the record was to be. -/
def Settled (log : Bytes) (e : JournalEntry) : Prop :=
  ∀ line, encoded e.line = .ok line →
    (line ≠ [] ∧ e.offset = log.length) ∨
      (0 ≤ e.offset ∧ (log.drop e.offset.toNat).take line.length = line ∧
        e.offset + line.length ≤ log.length)

/-- Whatever a recovery finds in the journal, it leaves the log as it is. -/
def Quiet (py : Interp) (nodeId : Str) (log : Bytes) (journal : Option Bytes) : Prop :=
  ∀ b ∈ journal, ∀ e, readJournal py nodeId b = .ok (.entry e) → Settled log e

/-- What a recovery may make of a log: it stays, or is cut where a record that is not in it was
to be. -/
def Recovered (py : Interp) (limit : Nat) (nodeId : Str) (log : Bytes) (journal : Option Bytes)
    (log' : Bytes) : Prop :=
  log' = log ∨ ∃ b ∈ journal, ∃ e, readJournal py nodeId b = .ok (.entry e) ∧ ¬ Settled log e ∧
    0 ≤ e.offset ∧ (e.offset ≤ log.length ∨ e.offset ≤ limit) ∧
      log' = resize log e.offset.toNat

/-- Whatever a recovery makes of a log is one of these. -/
def Prospect (py : Interp) (limit : Nat) (nodeId : Str) (P : Bytes → Prop) (log : Bytes)
    (journal : Option Bytes) : Prop :=
  ∀ log', Recovered py limit nodeId log journal log' → P log'

/-- At a stage, the log is `log`, and of the journal something is known. -/
structure Rests (J : Option Bytes → Prop) (log : Bytes) (g : Stage) (s : Watched) : Prop where
  journal : J s.disk.journal
  log : s.disk.logBytes = log
  stage : s.stage = g

/-- The same, within a session of the node. -/
structure Holds (J : Option Bytes → Prop) (nodeId keyId : Str) (log : Bytes) (g : Stage)
    (o : EvidenceStore) (s : Watched) : Prop extends Rests J log g s where
  lockHeld : o.lockHeld = true
  nodeId : o.nodeId = nodeId
  keyId : o.keyId = keyId

/-- Between two sessions, whatever a recovery makes of the log is one of these. -/
def Paused (py : Interp) (limit : Nat) (nodeId : Str) (P : Bytes → Prop) (s : Watched) : Prop :=
  ∃ log, Rests (Prospect py limit nodeId P log) log .idle s

section Calls

variable {py : Interp} {J : Option Bytes → Prop} {nodeId keyId : Str} {log : Bytes} {g : Stage}
  {limit : Nat}

/-- The calls that neither write to the log or cut it, nor put anything in the journal, nor
take or release the lock. -/
def tame : Op → Bool
  | .now | .readState | .replaceState _ | .readJournal | .unlinkJournal | .statLog | .createLog
  | .readLog | .readLogAt _ _ => true
  | _ => false

/-- What a tame call leaves, whether it fails or not. -/
theorem tame_answer {c : Op} (hc : tame c = true) {d d' : Disk} {r : Except Exn c.Result}
    (h : (∃ time, handle limit time c d = (r, d')) ∨ Failure limit c d r d') :
    d'.logBytes = d.logBytes ∧ (d'.journal = d.journal ∨ d'.journal = none) := by
  rcases h with ⟨time, h⟩ | h
  · cases c with
    | unlinkJournal =>
        rw [handle] at h
        split_ifs at h
        · obtain ⟨-, rfl⟩ := Prod.mk.inj h
          exact ⟨rfl, .inr rfl⟩
        · obtain ⟨-, rfl⟩ := Prod.mk.inj h
          exact ⟨rfl, .inl rfl⟩
    | createLog =>
        rw [handle] at h
        split_ifs at h with hd
        · obtain ⟨-, rfl⟩ := Prod.mk.inj h
          exact ⟨rfl, .inl rfl⟩
        · obtain ⟨-, rfl⟩ := Prod.mk.inj h
          rw [Option.not_isSome_iff_eq_none] at hd
          refine ⟨?_, .inl rfl⟩
          rw [logBytes, logBytes, hd]
          rfl
    | now | readState | replaceState b | readJournal | statLog | readLog | readLogAt offset n =>
        obtain ⟨-, rfl⟩ := Prod.mk.inj h
        exact ⟨rfl, .inl rfl⟩
    | lock | unlock | createJournal | writeJournal b | appendLog b | truncateLog offset => cases hc
  · cases h with
    | plain d _ | createLog d => exact ⟨rfl, .inl rfl⟩
    | busy d | refused d | close d | createJournal d | writeJournal d _ | appendLog d _ _
    | truncateLog _ => cases hc

theorem quiet_none : Quiet py nodeId log none := by
  rintro b ⟨⟩

/-- A quiet journal leaves the log. -/
theorem Quiet.prospect {P : Bytes → Prop} {journal : Option Bytes}
    (h : Quiet py nodeId log journal) (hlog : P log) : Prospect py limit nodeId P log journal := by
  rintro log' (rfl | ⟨b, hb, e, he, hsettled, -⟩)
  · exact hlog
  · exact absurd (h b hb e he) hsettled

theorem Paused.mono {P Q : Bytes → Prop} {s : Watched} (h : Paused py limit nodeId P s)
    (hPQ : ∀ log, P log → Q log) : Paused py limit nodeId Q s := by
  obtain ⟨log, h⟩ := h
  exact ⟨log, { h with journal := fun log' h' => hPQ log' (h.journal log' h') }⟩

theorem Prospect.here {P : Bytes → Prop} {journal : Option Bytes}
    (h : Prospect py limit nodeId P log journal) : P log :=
  h log (.inl rfl)

theorem prospect_none {P : Bytes → Prop} (hlog : P log) : Prospect py limit nodeId P log none :=
  quiet_none.prospect hlog

/-- A tame call keeps the stage at which the log is as it was. -/
theorem tame_stage {c : Op} (hc : tame c = true) {r : Except Exn c.Result} {d d' : Disk} :
    Stage.after c r d d' .idle = .idle := by
  cases c with
  | appendLog b => cases hc
  | _ => rfl

/-- The rule of a call in this world. -/
theorem safe_sys_faulty {c : Op} {o : EvidenceStore} {s : Watched}
    {Q : Except Exn c.Result → EvidenceStore → Watched → Prop}
    (h : ∀ r t, (faulty limit).answers c s r t → Q r o t) :
    (sys c).Safe (faulty limit) (fun _ => True) Q o s :=
  ⟨trivial, fun _ _ => trivial, fun r t hr => ⟨trivial, h r t hr⟩⟩

/-- What is held is kept by a tame call that keeps the stage. -/
theorem Holds.tame {c : Op} (hc : EvidenceStore.tame c = true) {o : EvidenceStore} {s t : Watched}
    (hnone : J none) (h : Holds J nodeId keyId log g o s) {r : Except Exn c.Result}
    (ht : (faulty limit).answers c s r t) (hstage : s.stage.after c r s.disk t.disk = g) :
    Holds J nodeId keyId log g o t := by
  obtain ⟨hlog, hjournal⟩ := tame_answer hc ht.1
  exact
    { h with
      journal := by
        rcases hjournal with hj | hj
        · rw [hj]
          exact h.journal
        · rw [hj]
          exact hnone
      log := hlog.trans h.log
      stage := ht.2.trans hstage }

theorem readAt_bytes {d : Disk} {offset : Int} {n : Nat} {b : Bytes}
    (h : d.readAt offset n = .ok b) : b = (d.logBytes.drop offset.toNat).take n := by
  unfold readAt at h
  cases hd : d.log with
  | none =>
      rw [hd] at h
      cases h
  | some c =>
      rw [hd] at h
      dsimp only at h
      split_ifs at h
      rw [logBytes, hd]
      exact (Except.ok.inj h).symm

/-- A tame call: what is held is kept, and what is answered is what the disk says. -/
theorem safe_sys_tame {c : Op} (hc : EvidenceStore.tame c = true) (hnone : J none)
    {o : EvidenceStore} {s : Watched} (h : Holds J nodeId keyId log .idle o s) :
    (sys c).Safe (faulty limit) (fun _ => True) (fun r o' t =>
      Holds J nodeId keyId log .idle o' t ∧
        ∀ a, r = .ok a → ∃ time, handle limit time c s.disk = (.ok a, t.disk)) o s := by
  refine safe_sys_faulty fun r t ht => ⟨h.tame hc hnone ht ?_, ?_⟩
  · rw [h.stage]
    exact tame_stage hc
  · rintro a rfl
    rcases ht.1 with hr | hr
    · exact hr
    · obtain ⟨e, he⟩ := hr.error
      cases he

/-- What a cut leaves. -/
theorem truncate_cases (d : Disk) (offset : Int) : (d.truncate limit offset).2 = d ∨
    0 ≤ offset ∧ (offset ≤ d.logBytes.length ∨ offset ≤ limit) ∧
      (d.truncate limit offset).2 = { d with log := some (resize d.logBytes offset.toNat) } := by
  cases hd : d.log with
  | none =>
      left
      rw [truncate, hd]
  | some b =>
      have hbytes : d.logBytes = b := by rw [logBytes, hd]; rfl
      rw [truncate, hd, hbytes]
      dsimp only
      split_ifs with hlow hneg hroom
      · exact .inl rfl
      · exact .inl rfl
      · exact .inr ⟨not_lt.mp hneg, hroom, rfl⟩
      · exact .inl rfl
      · exact .inl rfl

/-- A cut that may fail is made or not. -/
theorem truncate_answer {offset : Int} {d d' : Disk} {r : Except Exn Unit}
    (h : (∃ time, handle limit time (.truncateLog offset) d = (r, d')) ∨
      Failure limit (.truncateLog offset) d r d') : d' = d ∨ d' = (d.truncate limit offset).2 := by
  rcases h with ⟨time, h⟩ | h
  · exact .inr (congrArg Prod.snd h).symm
  · cases h with
    | plain d _ => exact .inl rfl
    | truncateLog hd => exact .inr (congrArg Prod.snd hd).symm

end Calls

/-! ## What a recovery keeps -/

/-- A relation of the store and the outside that the calls of a recovery keep, other than the
cut, and that the changes of what the object remembers keep. -/
structure Tolerates {σ : Type} (w : World Fs σ) (K : EvidenceStore → σ → Prop) : Prop where
  tame : ∀ c, tame c = true → (sys c).Keeps w K
  object : ∀ f : EvidenceStore → EvidenceStore, (∀ o, (f o).nodeId = o.nodeId) →
    (∀ o, (f o).keyId = o.keyId) → (∀ o, (f o).lockHeld = o.lockHeld) →
      (modify f : StoreM Unit).Keeps w K

section Methods

variable {py : Interp} {σ : Type} {w : World Fs σ} {K : EvidenceStore → σ → Prop}
  (hK : Tolerates w K)

omit hK in
theorem keeps_requireLock : (requireLock).Keeps w K := by
  refine keeps_self.bind fun o => ?_
  split_ifs
  · exact keeps_pure _
  · exact keeps_raise _

include hK

theorem keeps_remember (st : NodeState) : (remember st).Keeps w K := by
  refine Keeps.bind (hK.object _ ?_ ?_ ?_) fun _ => keeps_pure _
  all_goals exact fun _ => rfl

theorem keeps_readState : (readState py).Keeps w K := by
  refine keeps_requireLock.bind fun _ => keeps_self.bind fun o => ?_
  split
  · exact keeps_pure _
  · refine (hK.tame .readState rfl).attempt.bind fun r => ?_
    split
    · exact keeps_raise _
    · exact keeps_remember hK _
    · exact (keeps_ofExcept _).bind fun _ => keeps_remember hK _

theorem keeps_writeState (st : NodeState) : (writeState py st).Keeps w K :=
  (hK.tame .now rfl).bind fun _ => (keeps_ofExcept _).bind fun _ =>
    (hK.tame (.replaceState _) rfl).bind fun _ =>
      hK.object _ (fun _ => rfl) (fun _ => rfl) fun _ => rfl

theorem keeps_lastLoggedRecord : (lastLoggedRecord py).Keeps w K := by
  refine keeps_self.bind fun o => (hK.tame .readLog rfl).attempt.bind fun r => ?_
  split
  · exact keeps_raise _
  · exact keeps_pure _
  · exact keeps_ofExcept _

theorem keeps_dropJournal : (dropJournal).Keeps w K := (hK.tame .unlinkJournal rfl).suppress

theorem keeps_discardJournal (action : Action) : (discardJournal action).Keeps w K :=
  (keeps_dropJournal hK).bind fun _ => keeps_pure _

theorem keeps_completeCommit (e : JournalEntry) : (completeCommit py e).Keeps w K := by
  refine keeps_self.bind fun o => (keeps_readState hK).bind fun st => ?_
  split_ifs
  · exact (keeps_writeState hK _).bind fun _ => (keeps_dropJournal hK).bind fun _ => keeps_pure _
  · exact (keeps_dropJournal hK).bind fun _ => keeps_pure _

theorem keeps_checkStateAgainstLog (report : RecoveryReport) :
    (checkStateAgainstLog py report).Keeps w K := by
  refine keeps_self.bind fun o => (keeps_readState hK).bind fun st => ?_
  split_ifs
  · exact keeps_pure _
  · refine ((keeps_lastLoggedRecord hK).bind fun r => keeps_pure _).bind fun n => ?_
    split
    · exact keeps_raise _
    · split_ifs
      · exact keeps_raise _
      · refine (keeps_lastLoggedRecord hK).bind fun tail => ?_
        split
        · exact keeps_pure _
        · exact (keeps_writeState hK _).bind fun _ => keeps_pure _
      · exact keeps_pure _

/-- A recovery keeps what the replay of its journal keeps. -/
theorem keeps_recover (hreplay : (replayIfPresent py).Keeps w K) : (recover py).Keeps w K :=
  keeps_requireLock.bind fun _ => hreplay.bind fun report =>
    (keeps_checkStateAgainstLog hK report).bind fun report => by
      refine Keeps.bind (hK.object _ ?_ ?_ ?_) fun _ => keeps_pure _
      all_goals exact fun _ => rfl

end Methods

/-! ## Recovery keeps the log -/

section Replay

variable {py : Interp} {J : Option Bytes → Prop} {nodeId keyId : Str} {log : Bytes} {limit : Nat}

theorem tolerates_holds (hnone : J none) :
    Tolerates (faulty limit) (Holds J nodeId keyId log .idle) where
  tame c hc o s h := safe_sys_faulty fun r t ht => by
    refine h.tame hc hnone ht ?_
    rw [h.stage]
    exact tame_stage hc
  object f hnode hkey hlock := keeps_modify fun o s h =>
    { h with
      nodeId := (hnode o).trans h.nodeId
      keyId := (hkey o).trans h.keyId
      lockHeld := (hlock o).trans h.lockHeld }

/-- A size that is read at all is the size of the log. -/
theorem safe_logSize_faulty (hnone : J none) {o : EvidenceStore} {s : Watched}
    (h : Holds J nodeId keyId log .idle o s) :
    (logSize).Safe (faulty limit) (fun _ => True)
      (fun r o' t => Holds J nodeId keyId log .idle o' t ∧ ∀ n, r = .ok n → n = log.length) o s := by
  refine safe_bind_cases (safe_sys_tame rfl hnone h) (fun e o' t ht => ?_) fun size o' t ht => ?_
  · exact ⟨ht.1, fun n hn => nomatch hn⟩
  · obtain ⟨hk, hsize⟩ := ht
    obtain ⟨time, hr⟩ := hsize size rfl
    obtain ⟨hr, hd⟩ := Prod.mk.inj hr
    refine ⟨trivial, hk, fun n hn => ?_⟩
    rw [← Except.ok.inj hn, ← Except.ok.inj hr, ← hk.log, ← hd, logBytes]
    cases s.disk.log <;> rfl

/-- A session over a log of which a recovery makes one of these. -/
def Faces (py : Interp) (limit : Nat) (nodeId keyId : Str) (P : Bytes → Prop) (o : EvidenceStore)
    (s : Watched) : Prop :=
  ∃ log, Holds (Prospect py limit nodeId P log) nodeId keyId log .idle o s

variable {P : Bytes → Prop}

theorem tolerates_faces : Tolerates (faulty limit) (Faces py limit nodeId keyId P) where
  tame c hc o s h := by
    obtain ⟨log, h⟩ := h
    exact ((tolerates_holds (prospect_none h.journal.here)).tame c hc).safe h fun _ _ _ ht => ⟨log, ht⟩
  object f hnode hkey hlock o s h := by
    obtain ⟨log, h⟩ := h
    exact ((tolerates_holds (prospect_none h.journal.here)).object f hnode hkey hlock).safe h
      fun _ _ _ ht => ⟨log, ht⟩

theorem line_ne_nil {record : Str} {line : Bytes} (h : encoded (record ++ [lf]) = .ok line) :
    line ≠ [] := by
  rw [encoded] at h
  split at h
  · cases h
  · next b hb =>
      obtain ⟨-, rfl⟩ := Utf8.encode_eq_some.mp hb
      obtain rfl := Except.ok.inj h
      rw [Utf8.encodeAll_append]
      exact List.append_ne_nil_of_right_ne_nil _ (by decide)

/-- The line that a journal names is a record and a line feed. -/
theorem record_of_readJournal {b : Bytes} {e : JournalEntry}
    (h : readJournal py nodeId b = .ok (.entry e)) : ∃ record, e.line = record ++ [lf] := by
  unfold readJournal at h
  split_ifs at h
  obtain ⟨reading, -, h⟩ := bind_eq_ok.mp h
  cases reading with
  | unreadable => cases h
  | value v =>
      cases v with
      | dict data =>
          simp only [journalOf] at h
          split_ifs at h
          · obtain ⟨sequence, -, h⟩ := bind_eq_ok.mp h
            obtain ⟨offset, -, h⟩ := bind_eq_ok.mp h
            obtain rfl := Journal.entry.inj (Except.ok.inj h)
            exact ⟨_, rfl⟩
          · cases h
      | list xs =>
          simp only [journalOf] at h
          split_ifs at h
          cases h
      | _ => cases h

/-- A journal whose record was to be at the end of the log is quiet. -/
theorem quiet_of_end {b : Bytes} {e : JournalEntry} (he : readJournal py nodeId b = .ok (.entry e))
    (hend : e.offset = log.length) : Quiet py nodeId log (some b) := by
  rintro b' ⟨⟩ e' he' line hline
  obtain rfl := Journal.entry.inj (Except.ok.inj (he.symm.trans he'))
  obtain ⟨record, hrecord⟩ := record_of_readJournal he
  rw [hrecord] at hline
  exact .inl ⟨line_ne_nil hline, hend⟩

/-- A journal that is one file or gone. -/
def Only (b : Bytes) (journal : Option Bytes) : Prop := ∀ b' ∈ journal, b' = b

theorem only_none (b : Bytes) : Only b none := by
  rintro b' ⟨⟩

section Settling

variable {b : Bytes} {e : JournalEntry} (he : readJournal py nodeId b = .ok (.entry e))
  (hp : Prospect py limit nodeId P log (some b))
include he hp

/-- A journal that may only be dropped still has the same prospect. -/
theorem Only.prospect {journal : Option Bytes} (h : Only b journal) :
    Prospect py limit nodeId P log journal := by
  rintro log' (rfl | ⟨b', hb', hcut⟩)
  · exact hp.here
  · obtain rfl := h b' hb'
    exact hp log' (.inr ⟨b', rfl, hcut⟩)

theorem faces_of_only {o : EvidenceStore} {s : Watched}
    (h : Holds (Only b) nodeId keyId log .idle o s) : Faces py limit nodeId keyId P o s :=
  ⟨log, { h with journal := Only.prospect he hp h.journal }⟩

/-- The cut of a journal whose record is not in the log. -/
theorem safe_truncate_faces (hout : Settled log e → e.offset = log.length) {o : EvidenceStore}
    {s : Watched} (h : Holds (Only b) nodeId keyId log .idle o s) :
    (truncateEvidence e.offset).Safe (faulty limit) (fun _ => True)
      (fun _ => Faces py limit nodeId keyId P) o s := by
  refine @safe_sys_faulty limit (.truncateLog e.offset) o s _ ?_
  rintro r t ⟨hr, hstage⟩
  rw [h.stage] at hstage
  have hsame : t.disk = s.disk → Faces py limit nodeId keyId P o t := fun hd =>
    faces_of_only he hp { h with journal := hd ▸ h.journal, log := hd ▸ h.log, stage := hstage }
  rcases truncate_answer hr with hd | hd
  · exact hsame hd
  rcases truncate_cases s.disk e.offset with hkept | ⟨hpos, hreach, hcut⟩
  · exact hsame (hd.trans hkept)
  rw [hcut, h.log] at hd
  have hjournal : Only b t.disk.journal := by
    rw [hd]
    exact h.journal
  have hlog : t.disk.logBytes = resize log e.offset.toNat := by
    rw [hd]
    rfl
  by_cases hsettled : Settled log e
  · -- the cut is at the end, so the log stays
    have hstays : resize log e.offset.toNat = log := by
      rw [hout hsettled, Int.toNat_natCast, resize_of_le le_rfl, List.take_length]
    exact faces_of_only he hp
      { h with journal := hjournal, log := hlog.trans hstays, stage := hstage }
  · have hlength : e.offset = (resize log e.offset.toNat).length := by
      rw [resize, List.length_append, List.length_take, List.length_replicate]
      omega
    have hhere : P (resize log e.offset.toNat) :=
      hp _ (.inr ⟨b, rfl, e, he, hsettled, hpos, h.log ▸ hreach, rfl⟩)
    exact ⟨resize log e.offset.toNat,
      { h with
        journal := Only.prospect he ((quiet_of_end he hlength).prospect hhere) hjournal
        log := hlog
        stage := hstage }⟩

/-- Undoing the append of a journal whose record is not in the log. -/
theorem safe_undoAppend_faces (hout : Settled log e → e.offset = log.length) {o : EvidenceStore}
    {s : Watched} (h : Holds (Only b) nodeId keyId log .idle o s) (size : Nat) :
    (undoAppend e size).Safe (faulty limit) (fun _ => True)
      (fun _ => Faces py limit nodeId keyId P) o s := by
  have hread : (preserveDiscarded e.offset (size - e.offset).toNat).Keeps (faulty limit)
      (Holds (Only b) nodeId keyId log .idle) := by
    unfold preserveDiscarded
    split_ifs
    · exact keeps_pure _
    · exact (((tolerates_holds (only_none b)).tame (.readLogAt _ _) rfl).bind fun _ =>
        keeps_pure _).suppress
  refine safe_bind_cases (R := fun _ => Holds (Only b) nodeId keyId log .idle) (hread o s h)
    (fun x o' t ht => faces_of_only he hp ht) fun _ o₁ s₁ h₁ => ?_
  refine safe_bind_cases (R := fun _ => Faces py limit nodeId keyId P)
    (safe_truncate_faces he hp hout h₁) (fun x o' t ht => ht) fun _ o₂ s₂ h₂ => ?_
  exact ((keeps_dropJournal tolerates_faces).bind fun _ => keeps_pure _) o₂ s₂ h₂

/-- Settling a journal. -/
theorem safe_settle_faces {o : EvidenceStore} {s : Watched}
    (h : Holds (Only b) nodeId keyId log .idle o s) :
    (settle py e).Safe (faulty limit) (fun _ => True) (fun _ => Faces py limit nodeId keyId P) o s := by
  refine safe_bind_cases (safe_logSize_faulty (only_none b) h)
    (fun x o' t ht => faces_of_only he hp ht.1) fun n o₁ s₁ h₁ => ?_
  obtain ⟨h₁, hn⟩ := h₁
  obtain rfl := hn n rfl
  rw [safe_bind, safe_ofExcept]
  refine ⟨trivial, ?_⟩
  cases hline : encoded e.line with
  | error x => exact faces_of_only he hp h₁
  | ok line =>
      rw [Then]
      split_ifs with hin
      · refine safe_bind_cases (safe_sys_tame rfl (only_none b) h₁)
          (fun x o' t ht => faces_of_only he hp ht.1) fun written o₂ s₂ h₂ => ?_
        obtain ⟨h₂, hread⟩ := h₂
        obtain ⟨time, hr⟩ := hread written rfl
        split_ifs with hfound
        · exact keeps_completeCommit tolerates_faces e o₂ s₂ (faces_of_only he hp h₂)
        · -- what stands there is not the record
          refine safe_undoAppend_faces he hp (fun hsettled => ?_) h₂ _
          rcases hsettled line hline with ⟨-, hend⟩ | ⟨-, htake, -⟩
          · exact hend
          · refine absurd ?_ hfound
            rw [readAt_bytes (Prod.mk.inj hr).1, h₁.log, htake]
      · -- the log does not reach as far as the record
        refine safe_undoAppend_faces he hp (fun hsettled => ?_) h₁ _
        rcases hsettled line hline with ⟨-, hend⟩ | ⟨-, -, hwithin⟩
        · exact hend
        · exact absurd hwithin hin

end Settling

/-- Replaying the journal that is there. -/
theorem safe_replayJournal_faces {o : EvidenceStore} {s : Watched} {b : Bytes}
    (h : Holds (Prospect py limit nodeId P log) nodeId keyId log .idle o s)
    (hb : s.disk.journal = some b) :
    (replayJournal py b).Safe (faulty limit) (fun _ => True) (fun _ => Faces py limit nodeId keyId P) o s := by
  unfold replayJournal
  rw [safe_bind, safe_self]
  refine ⟨trivial, ?_⟩
  rw [Then, safe_bind, safe_ofExcept, h.nodeId]
  refine ⟨trivial, ?_⟩
  cases hread : readJournal py nodeId b with
  | error x => exact ⟨log, h⟩
  | ok content =>
      cases content with
      | unreadable => exact keeps_discardJournal tolerates_faces _ o s ⟨log, h⟩
      | foreign => exact keeps_discardJournal tolerates_faces _ o s ⟨log, h⟩
      | entry e =>
          have hp : Prospect py limit nodeId P log (some b) := hb ▸ h.journal
          refine safe_settle_faces hread hp { h with journal := ?_ }
          rw [hb]
          rintro b' ⟨⟩
          rfl

theorem keeps_replayIfPresent :
    (replayIfPresent py).Keeps (faulty limit) (Faces py limit nodeId keyId P) := by
  rintro o s ⟨log, h⟩
  unfold replayIfPresent
  rw [safe_bind, safe_attempt]
  refine (safe_sys_tame (c := .readJournal) rfl (prospect_none h.journal.here) h).weaken
    fun r o' t _ ht => ?_
  obtain ⟨hk, hr⟩ := ht
  cases r with
  | error x => exact keeps_discardJournal tolerates_faces _ o' t ⟨log, hk⟩
  | ok content =>
      cases content with
      | none => exact ⟨trivial, log, hk⟩
      | some b =>
          obtain ⟨time, hr⟩ := hr (some b) rfl
          obtain ⟨hr, hd⟩ := Prod.mk.inj hr
          apply safe_replayJournal_faces hk
          rw [← hd]
          exact Except.ok.inj hr

/-- A recovery makes of a log what may be made of it. -/
theorem keeps_recover_faces : (recover py).Keeps (faulty limit) (Faces py limit nodeId keyId P) :=
  keeps_recover tolerates_faces keeps_replayIfPresent

end Replay

/-! ## Opening -/

section Opening

variable {py : Interp} {nodeId keyId : Str} {P : Bytes → Prop} {limit : Nat}

/-- A lock that is taken, refused or not there to be taken leaves the files alone. -/
theorem lock_answer {s t : Watched} {r : Except Exn Unit} (h : (faulty limit).answers .lock s r t) :
    t.disk.logBytes = s.disk.logBytes ∧ t.disk.journal = s.disk.journal ∧
      (s.stage = .idle → t.stage = .idle) := by
  obtain ⟨hr, hstage⟩ := h
  have hkept : s.stage = .idle → t.stage = .idle := by
    intro hs
    rw [hstage, hs]
    rfl
  rcases hr with ⟨time, hr⟩ | hr
  · rw [handle] at hr
    split_ifs at hr
    all_goals
      obtain ⟨-, hd⟩ := Prod.mk.inj hr
      rw [← hd]
      exact ⟨rfl, rfl, hkept⟩
  · generalize hd : t.disk = d' at hr ⊢
    cases hr with
    | plain d _ | busy d | refused d => exact ⟨rfl, rfl, hkept⟩

/-- Opening a fresh store makes of the log what may be made of it. -/
theorem safe_enter_faulty {o : EvidenceStore} (hnode : o.nodeId = nodeId) (hkey : o.keyId = keyId)
    (hlock : o.lockHeld = false) {s : Watched} (hs : Paused py limit nodeId P s) :
    (enter py).Safe (faulty limit) (fun _ => True) (fun r o' t =>
      Paused py limit nodeId P t ∧ (r = .ok () → Faces py limit nodeId keyId P o' t)) o s := by
  obtain ⟨log, hs⟩ := hs
  have hmove : ∀ {r : Except Exn Unit} {t : Watched}, (faulty limit).answers .lock s r t →
      Rests (Prospect py limit nodeId P log) log .idle t := by
    intro r t ht
    obtain ⟨hlog, hjournal, hstage⟩ := lock_answer ht
    exact ⟨hjournal ▸ hs.journal, hlog.trans hs.log, hstage hs.stage⟩
  rw [enter, safe_bind, acquire, safe_bind, safe_self]
  refine ⟨trivial, ?_⟩
  rw [Then, hlock, if_neg Bool.false_ne_true, safe_bind]
  refine @safe_sys_faulty limit .lock o s _ fun r t ht => ?_
  have hrests := hmove ht
  cases r with
  | error e => exact ⟨⟨log, hrests⟩, fun hr => by cases hr⟩
  | ok u =>
      rw [Then, safe_modify]
      refine ⟨trivial, ?_⟩
      rw [Then]
      have hheld : Faces py limit nodeId keyId P { o with lockHeld := true } t :=
        ⟨log, hrests, rfl, hnode, hkey⟩
      refine safe_bind_cases (R := fun _ => Faces py limit nodeId keyId P)
        (keeps_recover_faces _ _ hheld) (fun e o' t ht => ?_) fun report o' t ht => ?_
      · obtain ⟨log', ht⟩ := ht
        exact ⟨⟨log', ht.toRests⟩, fun hr => by cases hr⟩
      · obtain ⟨log', ht⟩ := ht
        exact ⟨trivial, ⟨log', ht.toRests⟩, fun _ => ⟨log', ht⟩⟩

end Opening

end EvidenceStore

end IcsDeception
