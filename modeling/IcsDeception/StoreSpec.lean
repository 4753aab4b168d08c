import IcsDeception.EvidenceStore

/-!
# What the methods of the store do to a disk

For each system call and each method the condition under which it is safe, in terms of
the disk and the object before it. The later modules reason with these and never unfold
a method.

## Implementation notes

Only an append and a replacement of the state may fail in the worlds below, so what a
method without these two does is stated once, for every such world.
-/

namespace IcsDeception

open Text Json Calendar Method NodeState

namespace Disk

/-- The calls that may fail. -/
def risky : Op → Bool
  | .appendLog _ => true
  | .replaceState _ => true
  | _ => false

/-- In this world a call does what `handle` says. -/
structure Steady (limit : Nat) (w : World Fs Disk) (c : Op) : Prop where
  answers : ∀ d r d', w.answers c d r d' ↔ ∃ time, handle limit time c d = (r, d')
  tears : ∀ d d', w.tears c d d' ↔ Tear limit c d d'

/-- A world in which only the risky calls may fail. -/
def Mild (limit : Nat) (w : World Fs Disk) : Prop := ∀ c, risky c = false → Steady limit w c

theorem steady_reliable (limit : Nat) (c : Op) : Steady limit (reliable limit) c :=
  ⟨fun _ _ _ => Iff.rfl, fun _ _ => Iff.rfl⟩

theorem mild_reliable (limit : Nat) : Mild limit (reliable limit) :=
  fun c _ => steady_reliable limit c

end Disk

namespace EvidenceStore

open Disk

section Calls

variable {limit : Nat} {w : World Fs Disk} {C : Disk → Prop} {o : EvidenceStore} {d : Disk}

theorem safe_sys {c : Op} (hw : Steady limit w c)
    {Q : Except Exn c.Result → EvidenceStore → Disk → Prop} :
    (sys c).Safe w C Q o d ↔ C d ∧ (∀ d', Tear limit c d d' → C d') ∧
      ∀ time, C (handle limit time c d).2 ∧
        Q (handle limit time c d).1 o (handle limit time c d).2 := by
  unfold sys
  rw [safe_call]
  simp only [hw.tears]
  constructor
  · rintro ⟨h, ht, hq⟩
    exact ⟨h, ht, fun time => hq _ _ ((hw.answers _ _ _).mpr ⟨time, rfl⟩)⟩
  · rintro ⟨h, ht, hq⟩
    refine ⟨h, ht, fun r d' hr => ?_⟩
    obtain ⟨time, he⟩ := (hw.answers _ _ _).mp hr
    have := hq time
    rw [he] at this
    exact this

/-- A call that a crash cannot interrupt halfway and that does not depend on the time. -/
theorem safe_sys_fixed {c : Op} (hw : Steady limit w c) (hc : ∀ d d', ¬ Tear limit c d d')
    {p : Except Exn c.Result × Disk} (hp : ∀ time, handle limit time c d = p)
    {Q : Except Exn c.Result → EvidenceStore → Disk → Prop} :
    (sys c).Safe w C Q o d ↔ C d ∧ C p.2 ∧ Q p.1 o p.2 := by
  rw [safe_sys hw]
  simp only [hp, hc]
  constructor
  · exact fun h => ⟨h.1, h.2.2 ⟨0, by decide⟩⟩
  · exact fun h => ⟨h.1, fun _ ht => ht.elim, fun _ => h.2⟩

/-- A call that answers and leaves the disk alone. -/
theorem safe_sys_read {c : Op} (hw : Steady limit w c) (hc : ∀ d d', ¬ Tear limit c d d')
    {r : Except Exn c.Result} (hr : ∀ time, handle limit time c d = (r, d))
    {Q : Except Exn c.Result → EvidenceStore → Disk → Prop} :
    (sys c).Safe w C Q o d ↔ C d ∧ Q r o d := by
  rw [safe_sys_fixed hw hc hr]
  exact ⟨fun h => h.2, fun h => ⟨h.1, h⟩⟩

variable (hw : Mild limit w)
include hw

theorem safe_sys_lock {Q : Except Exn Unit → EvidenceStore → Disk → Prop} :
    (sys .lock).Safe w C Q o d ↔ C d ∧
      if d.locked then Q (.error .stateLock) o d
      else C { d with locked := true } ∧ Q (.ok ()) o { d with locked := true } := by
  cases hd : d.locked with
  | true =>
      rw [safe_sys_read (r := .error .stateLock) (hw .lock rfl) (by rintro _ _ ⟨⟩)
        fun _ => by simp [handle, hd]]
      simp
  | false =>
      rw [safe_sys_fixed (p := (.ok (), { d with locked := true })) (hw .lock rfl)
        (by rintro _ _ ⟨⟩) fun _ => by simp [handle, hd]]
      simp

theorem safe_sys_unlock {Q : Except Exn Unit → EvidenceStore → Disk → Prop} :
    (sys .unlock).Safe w C Q o d ↔
      C d ∧ C { d with locked := false } ∧ Q (.ok ()) o { d with locked := false } :=
  safe_sys_fixed (hw .unlock rfl) (by rintro _ _ ⟨⟩) fun _ => rfl

theorem safe_sys_now {Q : Except Exn Instant → EvidenceStore → Disk → Prop} :
    (sys .now).Safe w C Q o d ↔ C d ∧ ∀ time, Q (.ok time) o d := by
  rw [safe_sys (hw .now rfl)]
  constructor
  · exact fun h => ⟨h.1, fun time => (h.2.2 time).2⟩
  · rintro ⟨h, hq⟩
    refine ⟨h, ?_, fun time => ⟨h, hq time⟩⟩
    rintro d' ⟨⟩

theorem safe_sys_readState {Q : Except Exn (Option Bytes) → EvidenceStore → Disk → Prop} :
    (sys .readState).Safe w C Q o d ↔ C d ∧ Q (.ok d.state) o d :=
  safe_sys_read (hw .readState rfl) (by rintro _ _ ⟨⟩) fun _ => rfl

theorem safe_sys_readJournal {Q : Except Exn (Option Bytes) → EvidenceStore → Disk → Prop} :
    (sys .readJournal).Safe w C Q o d ↔ C d ∧ Q (.ok d.journal) o d :=
  safe_sys_read (hw .readJournal rfl) (by rintro _ _ ⟨⟩) fun _ => rfl

theorem safe_sys_readLog {Q : Except Exn (Option Bytes) → EvidenceStore → Disk → Prop} :
    (sys .readLog).Safe w C Q o d ↔ C d ∧ Q (.ok d.log) o d :=
  safe_sys_read (hw .readLog rfl) (by rintro _ _ ⟨⟩) fun _ => rfl

theorem safe_sys_statLog {Q : Except Exn (Option Nat) → EvidenceStore → Disk → Prop} :
    (sys .statLog).Safe w C Q o d ↔ C d ∧ Q (.ok (d.log.map List.length)) o d :=
  safe_sys_read (hw .statLog rfl) (by rintro _ _ ⟨⟩) fun _ => rfl

theorem safe_sys_readLogAt {offset : Int} {n : Nat}
    {Q : Except Exn Bytes → EvidenceStore → Disk → Prop} :
    (sys (.readLogAt offset n)).Safe w C Q o d ↔ C d ∧ Q (d.readAt offset n) o d :=
  safe_sys_read (hw (.readLogAt offset n) rfl) (by rintro _ _ ⟨⟩) fun _ => rfl

theorem safe_sys_createJournal {Q : Except Exn Unit → EvidenceStore → Disk → Prop} :
    (sys .createJournal).Safe w C Q o d ↔
      C d ∧ C { d with journal := some [] } ∧ Q (.ok ()) o { d with journal := some [] } :=
  safe_sys_fixed (hw .createJournal rfl) (by rintro _ _ ⟨⟩) fun _ => rfl

theorem safe_sys_writeJournal {b : Bytes} {Q : Except Exn Unit → EvidenceStore → Disk → Prop} :
    (sys (.writeJournal b)).Safe w C Q o d ↔
      C d ∧ (∀ p, p <+: b → C { d with journal := some p }) ∧
        Q (.ok ()) o { d with journal := some b } := by
  rw [safe_sys (hw (.writeJournal b) rfl)]
  simp only [handle]
  constructor
  · rintro ⟨h, ht, hq⟩
    exact ⟨h, fun p hp => ht _ (.journal d hp), (hq ⟨0, by decide⟩).2⟩
  · rintro ⟨h, ht, hq⟩
    refine ⟨h, ?_, fun _ => ⟨ht b List.prefix_rfl, hq⟩⟩
    rintro d' ⟨_, hp⟩
    exact ht _ hp

theorem safe_sys_unlinkJournal {Q : Except Exn Unit → EvidenceStore → Disk → Prop} :
    (sys .unlinkJournal).Safe w C Q o d ↔ C d ∧
      if d.journal.isSome then
        C { d with journal := none } ∧ Q (.ok ()) o { d with journal := none }
      else Q (.error .osError) o d := by
  cases hd : d.journal.isSome with
  | true =>
      rw [safe_sys_fixed (p := (.ok (), { d with journal := none })) (hw .unlinkJournal rfl)
        (by rintro _ _ ⟨⟩) fun _ => by simp [handle, hd]]
      simp
  | false =>
      rw [safe_sys_read (r := .error .osError) (hw .unlinkJournal rfl) (by rintro _ _ ⟨⟩)
        fun _ => by simp [handle, hd]]
      simp

theorem safe_sys_createLog {Q : Except Exn Unit → EvidenceStore → Disk → Prop} :
    (sys .createLog).Safe w C Q o d ↔ C d ∧
      if d.log.isSome then Q (.error .osError) o d
      else C { d with log := some [] } ∧ Q (.ok ()) o { d with log := some [] } := by
  cases hd : d.log.isSome with
  | true =>
      rw [safe_sys_read (r := .error .osError) (hw .createLog rfl) (by rintro _ _ ⟨⟩)
        fun _ => by simp [handle, hd]]
      simp
  | false =>
      rw [safe_sys_fixed (p := (.ok (), { d with log := some [] })) (hw .createLog rfl)
        (by rintro _ _ ⟨⟩) fun _ => by simp [handle, hd]]
      simp

theorem safe_sys_truncateLog {offset : Int} {Q : Except Exn Unit → EvidenceStore → Disk → Prop} :
    (sys (.truncateLog offset)).Safe w C Q o d ↔ C d ∧ C (d.truncate limit offset).2 ∧
      Q (d.truncate limit offset).1 o (d.truncate limit offset).2 :=
  safe_sys_fixed (hw (.truncateLog offset) rfl) (by rintro _ _ ⟨⟩) fun _ => rfl

end Calls

section Reading

variable {limit : Nat} {w : World Fs Disk} {C : Disk → Prop} {o : EvidenceStore} {d : Disk}
  {py : Interp}

/-- What reading the state gives: the state last known, or the one in the file. -/
def loadState (py : Interp) (o : EvidenceStore) (d : Disk) : Except Exn NodeState :=
  match o.state with
  | some st => .ok st
  | none =>
      match d.state with
      | none => .ok (zero o.nodeId o.keyId)
      | some b => ofFile py o.nodeId b

/-- The store after it has read the state. -/
def knowing (o : EvidenceStore) : Except Exn NodeState → EvidenceStore
  | .ok st => { o with state := some st }
  | .error _ => o

/-- The last complete record of a node on a disk. -/
def lastLogged (py : Interp) (nodeId : Str) (d : Disk) : Except Exn (Option Logged) :=
  match d.log with
  | none => .ok none
  | some b => scanLog py nodeId b

theorem knowing_eq_self {st : NodeState} (h : o.state = some st) : o.knowing (.ok st) = o := by
  cases o
  simp_all [knowing]

theorem safe_requireLock (hl : o.lockHeld = true)
    {Q : Except Exn Unit → EvidenceStore → Disk → Prop} :
    requireLock.Safe w C Q o d ↔ C d ∧ Q (.ok ()) o d := by
  simp [requireLock, safe_bind, Then, hl]

variable (hw : Mild limit w)
include hw

theorem safe_readState (hl : o.lockHeld = true)
    {Q : Except Exn NodeState → EvidenceStore → Disk → Prop} :
    (readState py).Safe w C Q o d ↔
      C d ∧ Q (loadState py o d) (o.knowing (loadState py o d)) d := by
  simp only [readState, safe_bind, safe_requireLock hl, Then, safe_self]
  cases hs : o.state with
  | some st => simp [loadState, hs, knowing_eq_self hs]
  | none =>
      simp only [safe_bind, safe_attempt, safe_sys_readState hw, Then]
      cases hd : d.state with
      | none => simp [loadState, hs, hd, remember, safe_bind, Then, knowing]
      | some b =>
          simp only [safe_bind, safe_ofExcept, loadState, hs, hd]
          cases hf : ofFile py o.nodeId b with
          | ok st => simp [Then, remember, safe_bind, knowing]
          | error e => simp [Then, knowing]

theorem safe_lastLoggedRecord {Q : Except Exn (Option Logged) → EvidenceStore → Disk → Prop} :
    (lastLoggedRecord py).Safe w C Q o d ↔ C d ∧ Q (lastLogged py o.nodeId d) o d := by
  simp only [lastLoggedRecord, safe_bind, safe_self, Then, safe_attempt, safe_sys_readLog hw,
    lastLogged]
  cases hd : d.log with
  | none => simp
  | some b => simp

theorem safe_lastLoggedSequence {Q : Except Exn (Option Int) → EvidenceStore → Disk → Prop} :
    (lastLoggedSequence py).Safe w C Q o d ↔
      C d ∧ Q ((lastLogged py o.nodeId d).map (Option.map Logged.sequence)) o d := by
  simp only [lastLoggedSequence, safe_bind, safe_lastLoggedRecord hw]
  cases lastLogged py o.nodeId d with
  | ok r => simp [Then, Except.map]
  | error e => simp [Then, Except.map]

theorem safe_logSize {Q : Except Exn Nat → EvidenceStore → Disk → Prop} :
    logSize.Safe w C Q o d ↔ C d ∧ Q (.ok d.logBytes.length) o d := by
  simp only [logSize, safe_bind, safe_sys_statLog hw, Then, safe_pure]
  cases hd : d.log with
  | none => simp [Disk.logBytes, hd]
  | some b => simp [Disk.logBytes, hd]

theorem safe_dropJournal {Q : Except Exn Unit → EvidenceStore → Disk → Prop} :
    dropJournal.Safe w C Q o d ↔
      C d ∧ C { d with journal := none } ∧ Q (.ok ()) o { d with journal := none } := by
  rw [dropJournal, safe_suppress, safe_sys_unlinkJournal hw]
  cases hd : d.journal with
  | some b => simp [forgive]
  | none =>
      have : { d with journal := none } = d := by
        cases d
        simp_all
      simp [forgive, isOsError, this]

end Reading

section Writing

variable {limit : Nat} {w : World Fs Disk} {C : Disk → Prop} {o : EvidenceStore} {d : Disk}
  {py : Interp}

/-- Writing the state where replacing the file does not fail. -/
theorem safe_writeState (hw : Mild limit w) (hr : ∀ b, Steady limit w (.replaceState b))
    {st : NodeState} {Q : Except Exn Unit → EvidenceStore → Disk → Prop} :
    (writeState py st).Safe w C Q o d ↔ C d ∧ OnWrite py st (fun e => Q (.error e) o d)
      fun b => C { d with state := some b } ∧
        Q (.ok ()) { o with state := some st } { d with state := some b } := by
  simp only [writeState, safe_bind, safe_sys_now hw, Then, safe_ofExcept]
  refine and_congr_right fun hc => forall_congr' fun time => ?_
  cases fileBytes py st time with
  | error e => simp [hc]
  | ok b =>
      simp only [hc, true_and, safe_sys_fixed (hr b) (by rintro _ _ ⟨⟩) fun _ => rfl, Then,
        safe_modify]
      tauto

end Writing

end EvidenceStore

end IcsDeception
