import IcsDeception.Recovery
import Mathlib.Logic.Function.Basic
import Mathlib.Logic.Relation

/-!
# The lock of a store that fails to open

Entering a store takes the lock and then recovers. When recovery raises, the `with`
statement does not run its exit, and the lock stays with the store object. The module
says exactly on which disks this happens, and what holds for a process that only meets
the others.
-/

namespace IcsDeception

open Text Json Calendar Method NodeState

namespace EvidenceStore

open Disk

variable {py : Interp} {o : EvidenceStore} {d : Disk}

/-- Recovery raises nothing once the lock has been taken. -/
def Opens (py : Interp) (o : EvidenceStore) (d : Disk) : Prop :=
  Openable py py.fileLimit { o with lockHeld := true } { d with locked := true }

/-- Entering the store either succeeds, or raises with the lock not held by the store. -/
def EntersCleanly (py : Interp) (o : EvidenceStore) (d : Disk) : Prop :=
  ∀ r o' d', (enter py).Ends (reliable py.fileLimit) o d r o' d' →
    r = .ok () ∨ o'.lockHeld = false

theorem safe_enter {limit : Nat} {w : World Fs Disk} (hw : Mild limit w) {C : Disk → Prop}
    {Q : Except Exn Unit → EvidenceStore → Disk → Prop} (ho : o.lockHeld = false) :
    (enter py).Safe w C Q o d ↔ C d ∧
      if d.locked then Q (.error .stateLock) o d
      else C { d with locked := true } ∧
        (recover py).Safe w C (fun r => Q (r.map fun _ => ())) { o with lockHeld := true }
          { d with locked := true } := by
  simp only [enter, safe_bind, safe_acquire hw ho]
  refine and_congr_right fun _ => ?_
  cases d.locked with
  | true => exact Iff.rfl
  | false =>
      simp only [Bool.false_eq_true, if_false, Then, safe_bind]
      refine and_congr_right fun _ => ⟨fun H => ?_, fun H => ?_⟩
      · refine H.weaken fun r o' d' _ h => ?_
        cases r with
        | error e => exact h
        | ok report => exact h.2
      · refine H.weaken fun r o' d' hc h => ?_
        cases r with
        | error e => exact h
        | ok report => exact ⟨hc, h⟩

/-- On a disk on which recovery raises nothing, entering with a free lock succeeds. -/
theorem enter_of_opens (ho : o.lockHeld = false) (hd : d.locked = false) (h : Opens py o d)
    {r : Except Exn Unit} {o' : EvidenceStore} {d' : Disk}
    (he : (enter py).Ends (reliable py.fileLimit) o d r o' d') :
    r = .ok () ∧ o'.lockHeld = true ∧ d'.locked = true := by
  have hs : (enter py).Safe (reliable py.fileLimit) (fun _ => True)
      (fun r o' d' => r = .ok () ∧ o'.lockHeld = true ∧ d'.locked = true) o d := by
    rw [safe_enter (mild_reliable _) ho, hd]
    refine ⟨trivial, trivial, ?_⟩
    exact safe_recover_of_openable (mild_reliable _) (fun b => steady_reliable _ _) rfl h
      fun report o₁ d₁ h₁ h₂ => ⟨rfl, h₁, h₂⟩
  exact hs.ends he

/-- On every other disk it raises, and the lock stays taken. -/
theorem enter_of_not_opens (ho : o.lockHeld = false) (hd : d.locked = false) (h : ¬ Opens py o d)
    {r : Except Exn Unit} {o' : EvidenceStore} {d' : Disk}
    (he : (enter py).Ends (reliable py.fileLimit) o d r o' d') :
    r ≠ .ok () ∧ o'.lockHeld = true ∧ d'.locked = true := by
  have hs : (enter py).Safe (reliable py.fileLimit) (fun _ => True)
      (fun r o' d' => r ≠ .ok () ∧ o'.lockHeld = true ∧ d'.locked = true) o d := by
    rw [safe_enter (mild_reliable _) ho, hd]
    refine ⟨trivial, trivial, ?_⟩
    exact safe_recover_of_not_openable (mild_reliable _) (fun b => steady_reliable _ _) rfl h
      fun ex o₁ d₁ h₁ h₂ => ⟨by simp [Except.map], h₁, h₂⟩
  exact hs.ends he

/-- With the lock taken by someone else, entering raises and leaves everything as it is. -/
theorem enter_of_locked (ho : o.lockHeld = false) (hd : d.locked = true)
    {r : Except Exn Unit} {o' : EvidenceStore} {d' : Disk}
    (he : (enter py).Ends (reliable py.fileLimit) o d r o' d') :
    r = .error .stateLock ∧ o' = o ∧ d' = d := by
  have hs : (enter py).Safe (reliable py.fileLimit) (fun _ => True)
      (fun r o' d' => r = .error .stateLock ∧ o' = o ∧ d' = d) o d := by
    rw [safe_enter (mild_reliable _) ho, hd]
    exact ⟨trivial, rfl, rfl, rfl⟩
  exact hs.ends he

theorem entersCleanly_iff (ho : o.lockHeld = false) :
    EntersCleanly py o d ↔ d.locked = true ∨ Opens py o d := by
  cases hd : d.locked with
  | true =>
      refine ⟨fun _ => Or.inl rfl, fun _ r o' d' he => Or.inr ?_⟩
      rw [(enter_of_locked ho hd he).2.1, ho]
  | false =>
      constructor
      · intro H
        by_contra hn
        have hn : ¬ Opens py o d := fun h => hn (Or.inr h)
        obtain ⟨⟨r, o'⟩, d', he⟩ := Prog.exists_ends (reliable_responsive py.fileLimit) (enter py o) d
        obtain ⟨hr, hl, -⟩ := enter_of_not_opens ho hd hn he
        rcases H r o' d' he with h | h
        · exact hr h
        · exact absurd (hl.symm.trans h) (by decide)
      · rintro (h | h) r o' d' he
        · cases h
        · exact Or.inl (enter_of_opens ho hd h he).1

section Sessions

variable {ι : Type}

/-- A process with its store objects, and the one whose `with` block is executing. -/
structure Process (ι : Type) where
  disk : Disk
  stores : ι → EvidenceStore
  inside : Option ι

/-- What a process does next. -/
inductive Event (ι : Type)
  | opening (i : ι)
  | body
  | closing

/-- The sessions of a process. A body may do anything that leaves the lock alone. -/
inductive Process.Step [DecidableEq ι] (py : Interp) : Process ι → Event ι → Process ι → Prop
  | opened {p : Process ι} {i : ι} {o : EvidenceStore} {d : Disk} (hp : p.inside = none)
      (he : (enter py).Ends (reliable py.fileLimit) (p.stores i) p.disk (.ok ()) o d) :
      Step py p (.opening i) ⟨d, Function.update p.stores i o, some i⟩
  | failed {p : Process ι} {i : ι} {ex : Exn} {o : EvidenceStore} {d : Disk} (hp : p.inside = none)
      (he : (enter py).Ends (reliable py.fileLimit) (p.stores i) p.disk (.error ex) o d) :
      Step py p (.opening i) ⟨d, Function.update p.stores i o, none⟩
  | body {p : Process ι} {i : ι} {o : EvidenceStore} {d : Disk} (hp : p.inside = some i)
      (ho : o.lockHeld = (p.stores i).lockHeld) (hd : d.locked = p.disk.locked) :
      Step py p .body ⟨d, Function.update p.stores i o, some i⟩
  | closed {p : Process ι} {i : ι} {r : Except Exn Unit} {o : EvidenceStore} {d : Disk}
      (hp : p.inside = some i)
      (he : exit.Ends (reliable py.fileLimit) (p.stores i) p.disk r o d) :
      Step py p .closing ⟨d, Function.update p.stores i o, none⟩

/-- The lock is held by the store whose block is executing, and by no other. -/
def Process.Disciplined (p : Process ι) : Prop :=
  p.disk.locked = p.inside.isSome ∧ ∀ i, (p.stores i).lockHeld = true ↔ p.inside = some i

/-- An event that opens a store does so on a disk on which recovery raises nothing. -/
def Process.Meets (py : Interp) (p : Process ι) : Event ι → Prop
  | .opening i => Opens py (p.stores i) p.disk
  | _ => True

theorem Process.Disciplined.lockHeld_eq_false {p : Process ι} (h : p.Disciplined)
    (hp : p.inside = none) (i : ι) : (p.stores i).lockHeld = false := by
  rw [← Bool.not_eq_true, h.2 i, hp]
  simp

variable [DecidableEq ι]

/-- The invariant of one step. -/
theorem Process.Disciplined.step {p p' : Process ι} {ev : Event ι} (h : p.Disciplined)
    (hm : p.Meets py ev) (hs : p.Step py ev p') : p'.Disciplined := by
  cases hs with
  | @opened i o d hp he =>
      have hd : p.disk.locked = false := by rw [h.1, hp]; rfl
      obtain ⟨-, ho, hl⟩ := enter_of_opens (h.lockHeld_eq_false hp i) hd hm he
      refine ⟨hl, fun j => ?_⟩
      by_cases hj : j = i
      · subst hj
        simp [ho]
      · have := h.lockHeld_eq_false hp j
        simp [Function.update_of_ne hj, this, Ne.symm hj]
  | @failed i ex o d hp he =>
      have hd : p.disk.locked = false := by rw [h.1, hp]; rfl
      have hr := (enter_of_opens (h.lockHeld_eq_false hp i) hd hm he).1
      cases hr
  | @body i o d hp ho hd =>
      refine ⟨hd.trans (by rw [h.1, hp]), fun j => ?_⟩
      by_cases hj : j = i
      · subst hj
        simp [ho, h.2, hp]
      · simp [Function.update_of_ne hj, h.2, hp]
  | @closed i r o d hp he =>
      have hl : (p.stores i).lockHeld = true := (h.2 i).mpr hp
      have hq : o.lockHeld = false ∧ d.locked = false := by
        have hs : exit.Safe (reliable py.fileLimit) (fun _ => True)
            (fun _ o d => o.lockHeld = false ∧ d.locked = false) (p.stores i) p.disk := by
          rw [exit, safe_release (mild_reliable _) hl]
          exact ⟨trivial, trivial, rfl, rfl⟩
        exact hs.ends he
      refine ⟨hq.2, fun j => ?_⟩
      by_cases hj : j = i
      · subst hj
        simp [hq.1]
      · simp [Function.update_of_ne hj, h.2, hp, Ne.symm hj]

/-- A run of a process in which every open meets a disk on which recovery raises nothing. -/
def Process.Run (py : Interp) : Process ι → Process ι → Prop :=
  Relation.ReflTransGen fun p p' => ∃ ev, p.Meets py ev ∧ p.Step py ev p'

theorem Process.Disciplined.run {p p' : Process ι} (h : p.Disciplined) (hr : p.Run py p') :
    p'.Disciplined := by
  induction hr with
  | refl => exact h
  | tail _ hs ih =>
      obtain ⟨ev, hm, hs⟩ := hs
      exact ih.step hm hs

end Sessions

/-- Entering a store leaves the lock with a store that failed to open exactly when the lock
was free and recovery raises on what is on disk; and in every run of sessions that never
meets such a disk the lock is held only inside a `with` block and no open is refused. -/
theorem lock_discipline (py : Interp) :
    (∀ (o : EvidenceStore) (d : Disk), o.lockHeld = false →
      (EntersCleanly py o d ↔ d.locked = true ∨ Opens py o d)) ∧
    ∀ (ι : Type) [DecidableEq ι] (p p' : Process ι), p.Disciplined → p.Run py p' →
      p'.Disciplined ∧
        (p'.inside = none → ∀ i, Opens py (p'.stores i) p'.disk → ∀ r o' d',
          (enter py).Ends (reliable py.fileLimit) (p'.stores i) p'.disk r o' d' → r = .ok ()) := by
  refine ⟨fun o d ho => entersCleanly_iff ho, fun ι _ p p' hp hr => ?_⟩
  have h := hp.run hr
  refine ⟨h, fun hin i ho r o' d' he => ?_⟩
  have hd : p'.disk.locked = false := by rw [h.1, hin]; rfl
  exact (enter_of_opens (h.lockHeld_eq_false hin i) hd ho he).1

/-- A record line with the three fields that the store reads. -/
def recordLine (nodeId : String) (sequence : String) (eventHash : Str) : Str :=
  lit "\x7b\"node_id\":\"" ++ lit nodeId ++ lit "\",\"sequence\":" ++ lit sequence ++
    lit ",\"event_hash\":\"" ++ eventHash ++ lit "\"\x7d"

/-- The hash of one character. -/
def sampleHash (c : Char) : Str := List.replicate 64 (cp c)

/-- The state of node `n` at a sequence, as its file holds it. -/
def sampleState (sequence : Nat) : NodeState :=
  ⟨lit "n", .str (lit "k"), sequence, some (sampleHash 'a')⟩

/-- The bytes of a state file of node `n`. -/
def sampleStateFile (sequence : Nat) : Bytes :=
  match fileBytes .reference (sampleState sequence) .first with
  | .ok b => b
  | .error _ => []

/-- The first record of node `n`, and a record of another node. -/
def firstLines : Str :=
  recordLine "n" "1" (sampleHash 'b') ++ [lf] ++ recordLine "m" "1" (sampleHash 'c') ++ [lf]

/-- These lines and the second record of `n`. -/
def sampleLines : Str := firstLines ++ recordLine "n" "2" (sampleHash 'a') ++ [lf]

/-- The bytes of these lines, and what a write that was cut off has left. -/
def sampleLog : Bytes := Utf8.encodeAll (sampleLines ++ lit "\x7b\"node_id\":\"n\"")

theorem loadState_file (nodeId keyId : Str) {b : Bytes} (h : d.state = some b) :
    loadState py (create nodeId keyId) d = ofFile py nodeId b := by
  simp only [loadState, create, h]

theorem lastLogged_file (nodeId : Str) {b : Bytes} (h : d.log = some b) :
    lastLogged py nodeId d = scanLog py nodeId b := by
  rw [lastLogged, h]

theorem sampleLog_last :
    scanLog .reference (lit "n") sampleLog = .ok (some ⟨2, sampleHash 'a'⟩) := by
  decide +kernel

/-- The sample file is read as its state. -/
theorem ofFile_sample {sequence : Nat} (h : (ofFile .reference (lit "n")
      (sampleStateFile sequence)).toOption.map (fun st => (st.lastSequence, st.lastEventHash)) =
        some ((sequence : Int), some (sampleHash 'a'))) :
    ∃ st, ofFile .reference (lit "n") (sampleStateFile sequence) = .ok st ∧
      st.lastSequence = sequence ∧ st.lastEventHash = some (sampleHash 'a') := by
  obtain ⟨st, hs, heq⟩ := eq_ok_of_toOption h
  exact ⟨st, hs, congrArg Prod.fst heq, congrArg Prod.snd heq⟩

theorem ofFile_first : ∃ st, ofFile .reference (lit "n") (sampleStateFile 1) = .ok st ∧
    st.lastSequence = 1 ∧ st.lastEventHash = some (sampleHash 'a') :=
  ofFile_sample (by decide +kernel)

theorem ofFile_second : ∃ st, ofFile .reference (lit "n") (sampleStateFile 2) = .ok st ∧
    st.lastSequence = 2 ∧ st.lastEventHash = some (sampleHash 'a') :=
  ofFile_sample (by decide +kernel)

/-- A journal of the append of a record to a log. -/
def sampleJournal (lines : Str) (sequence : Nat) (record : Str) (eventHash : Str) : Bytes :=
  match dump Style.default 0 (Value.ofMembers (journalMembers (lit "n") (lit "k") sequence eventHash
      lines.length record (lit "2026-01-01T00:00:00Z"))) with
  | .ok text => Utf8.encodeAll text
  | .error _ => []

/-- What a crash in the third append of node `n` has left: its journal, and a part of its
record. -/
def leftoverDisk : Disk :=
  ⟨some (sampleStateFile 2),
    some (sampleJournal sampleLines 3 (recordLine "n" "3" (sampleHash 'd')) (sampleHash 'd')),
    some sampleLog, false⟩

/-- A state at the last record of a log without a journal can be opened. -/
theorem opens_level (hj : d.journal = none) {st : NodeState} (hs : loadState py o d = .ok st)
    {r : Logged} (hlast : lastLogged py o.nodeId d = .ok (some r))
    (heq : st.lastSequence = r.sequence) : Opens py o d := by
  have hsettles : Settles py py.fileLimit { o with lockHeld := true } { d with locked := true }
      (.ok st) { d with locked := true } := hs ▸ .absent hj
  exact ⟨st, _, hsettles, .inr ⟨r, hlast, heq.le, fun hlt => absurd heq hlt.ne⟩⟩

/-- The offset and the line of a journal that is an entry. -/
def entryPlace : Except Exn Journal → Option (Int × Str)
  | .ok (.entry e) => some (e.offset, e.line)
  | _ => none

theorem eq_entry {r : Except Exn Journal} {offset : Int} {line : Str}
    (h : entryPlace r = some (offset, line)) :
    ∃ e, r = .ok (.entry e) ∧ e.offset = offset ∧ e.line = line := by
  unfold entryPlace at h
  split at h
  · next e =>
      obtain ⟨hoffset, hline⟩ := Prod.ext_iff.mp (Option.some.inj h)
      exact ⟨e, rfl, hoffset, hline⟩
  · cases h

/-- The journal of the third append is undone, and what is left can be opened. -/
theorem opens_leftover : Opens .reference (create (lit "n") (lit "k")) leftoverDisk := by
  have hplace : entryPlace (readJournal .reference (lit "n")
      (sampleJournal sampleLines 3 (recordLine "n" "3" (sampleHash 'd')) (sampleHash 'd'))) =
        some ((sampleLines.length : Int), recordLine "n" "3" (sampleHash 'd') ++ [lf]) := by
    decide +kernel
  obtain ⟨e, hj, hoffset, hline⟩ := eq_entry hplace
  obtain ⟨st, hfile, hseq, -⟩ := ofFile_second
  have hx : encoded e.line =
      .ok (Utf8.encodeAll (recordLine "n" "3" (sampleHash 'd') ++ [lf])) := by
    rw [hline]
    decide +kernel
  have hin : ¬ Written { leftoverDisk with locked := true } e.offset
      (Utf8.encodeAll (recordLine "n" "3" (sampleHash 'd') ++ [lf])) := by
    rw [hoffset]
    decide +kernel
  have hcut : CanTruncate Interp.reference.fileLimit { leftoverDisk with locked := true }
      e.offset := by
    rw [hoffset]
    exact ⟨rfl, Int.natCast_nonneg _, .inl (by decide +kernel)⟩
  have hlast : lastLogged .reference (lit "n")
      { truncated { leftoverDisk with locked := true } e.offset with journal := none } =
        .ok (some ⟨2, sampleHash 'a'⟩) := by
    rw [hoffset]
    decide +kernel
  have hs : loadState .reference { create (lit "n") (lit "k") with lockHeld := true }
      { leftoverDisk with locked := true } = .ok st := hfile
  refine ⟨st, _, hs ▸ .undone rfl hj hx hin hcut, .inr ⟨_, hlast, ?_, fun hlt => ?_⟩⟩
  · rw [hseq]
  · rw [hseq] at hlt
    exact absurd hlt (lt_irrefl _)

/-- A process with two stores of the node, on the disk that the crash has left. -/
def restartedProcess : Process Bool := ⟨leftoverDisk, fun _ => create (lit "n") (lit "k"), none⟩

theorem restartedProcess_disciplined : restartedProcess.Disciplined :=
  ⟨rfl, fun _ => by simp [restartedProcess, create]⟩

/-- The run of an open on a disk. -/
def entering (d : Disk) : (Except Exn Unit × EvidenceStore) × Disk :=
  (enter .reference (create (lit "n") (lit "k"))).exec
    (handle Interp.reference.fileLimit .first) d

theorem ends_entering (d : Disk) :
    (enter .reference).Ends (reliable Interp.reference.fileLimit) (create (lit "n") (lit "k")) d
      (entering d).1.1 (entering d).1.2 (entering d).2 :=
  Prog.ends_exec (w := reliable Interp.reference.fileLimit)
    (h := handle Interp.reference.fileLimit .first) (fun _ _ => ⟨_, rfl⟩) _ d

/-- A session of one store undoes the append that the crash has cut off, and after it the other
store opens. -/
theorem lock_discipline_restarted :
    EntersCleanly .reference (create (lit "n") (lit "k")) leftoverDisk ∧
      ∃ p', restartedProcess.Run .reference p' ∧ p'.inside = some false ∧ p'.Disciplined := by
  obtain ⟨hone, hrun⟩ := lock_discipline .reference
  refine ⟨(hone _ _ rfl).mpr (.inr opens_leftover), ?_⟩
  have he := ends_entering leftoverDisk
  obtain ⟨hok, hheld, -⟩ := enter_of_opens rfl rfl opens_leftover he
  rw [hok] at he
  obtain ⟨hjournal, hstate, hlast⟩ : (entering leftoverDisk).2.journal = none ∧
      (entering leftoverDisk).2.state = some (sampleStateFile 2) ∧
      lastLogged .reference (lit "n") (entering leftoverDisk).2 =
        .ok (some ⟨2, sampleHash 'a'⟩) := by
    decide +kernel
  generalize (entering leftoverDisk).1.2 = o at he hheld
  generalize (entering leftoverDisk).2 = d at he hjournal hstate hlast
  -- the session is closed, and only the lock changes
  obtain ⟨⟨r, o'⟩, d', hexit⟩ := Prog.exists_ends
    (reliable_responsive Interp.reference.fileLimit) (exit o) d
  have hunlocked : d' = { d with locked := false } := by
    have hs : exit.Safe (reliable Interp.reference.fileLimit) (fun _ => True)
        (fun _ _ d' => d' = { d with locked := false }) o d := by
      rw [exit, safe_release (mild_reliable _) hheld]
      exact ⟨trivial, trivial, rfl⟩
    exact hs.ends hexit
  subst hunlocked
  obtain ⟨st, hfile, hseq, -⟩ := ofFile_second
  have hs := (loadState_file (lit "n") (lit "k") hstate).trans hfile
  have hopens : Opens .reference (create (lit "n") (lit "k")) { d with locked := false } :=
    opens_level hjournal hs hlast hseq
  obtain ⟨⟨r', o''⟩, d'', hagain⟩ := Prog.exists_ends
    (reliable_responsive Interp.reference.fileLimit)
    (enter .reference (create (lit "n") (lit "k"))) { d with locked := false }
  obtain rfl := (enter_of_opens rfl rfl hopens hagain).1
  have hfirst : restartedProcess.Run .reference
      ⟨d, Function.update restartedProcess.stores true o, some true⟩ :=
    .single ⟨.opening true, opens_leftover, .opened rfl he⟩
  have hbody := hfirst.tail ⟨.body, trivial, .body rfl rfl rfl⟩
  have hclosed := hbody.tail ⟨.closing, trivial, .closed rfl hexit⟩
  have hopened := hclosed.tail ⟨.opening false, hopens, .opened rfl hagain⟩
  exact ⟨_, hopened, rfl, (hrun Bool _ _ restartedProcess_disciplined hopened).1⟩

/-- The disk of a node whose state file was left empty. -/
def emptyStateDisk : Disk := { Disk.empty with state := some [] }

/-- An empty state file makes the open fail with the lock kept, and the next open of a
fresh store is then refused. -/
theorem enter_keeps_lock_of_failed_open :
    ¬ EntersCleanly .reference (create (lit "n") (lit "k")) emptyStateDisk ∧
      ∃ o' d', (enter .reference).Ends (reliable Interp.reference.fileLimit)
          (create (lit "n") (lit "k")) emptyStateDisk (.error .stateCorruption) o' d' ∧
        ∃ o'' d'', (enter .reference).Ends (reliable Interp.reference.fileLimit)
          (create (lit "n") (lit "k")) d' (.error .stateLock) o'' d'' := by
  have he := fun (o : EvidenceStore) (d : Disk) => Prog.ends_exec
    (w := reliable Interp.reference.fileLimit) (h := handle Interp.reference.fileLimit ⟨0, by decide⟩)
    (fun c d => ⟨_, rfl⟩) (enter .reference o) d
  refine ⟨fun H => ?_, _, _, he _ _, _, _, he _ _⟩
  rcases H _ _ _ (he _ _) with h | h
  · cases h
  · cases h

end EvidenceStore

end IcsDeception
