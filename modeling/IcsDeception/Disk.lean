import IcsDeception.Environment
import IcsDeception.Lib.Method

/-!
# The files of a store and the calls on them

The state file, the journal and the evidence log of one node, the advisory lock, and
the system calls that the store makes. `handle` is what a call does when it succeeds;
`reliable` is the world in which every call succeeds and a crash may leave any prefix
of what was being written.

## Implementation notes

The calls stand at the grain at which the store can be interrupted. Replacing the state
file is one call, because the new content is made in a temporary file and renamed.
Flushing, permissions, directories and the copies that are put aside before something
is discarded have no effect on these files and are left out.
-/

namespace IcsDeception

open Text Calendar

/-- What is on disk. A file that does not exist is `none`. -/
structure Disk where
  state : Option Bytes
  journal : Option Bytes
  log : Option Bytes
  locked : Bool
  deriving DecidableEq

/-- The system calls of a store. -/
inductive Op
  | lock
  | unlock
  | now
  | readState
  | replaceState (b : Bytes)
  | readJournal
  | createJournal
  | writeJournal (b : Bytes)
  | unlinkJournal
  | statLog
  | createLog
  | readLog
  | readLogAt (offset : Int) (length : Nat)
  | appendLog (b : Bytes)
  | truncateLog (offset : Int)

/-- What a call returns. -/
@[reducible] def Op.Result : Op → Type
  | .now => Instant
  | .readState => Option Bytes
  | .readJournal => Option Bytes
  | .readLog => Option Bytes
  | .statLog => Option Nat
  | .readLogAt _ _ => Bytes
  | .lock => Unit
  | .unlock => Unit
  | .replaceState _ => Unit
  | .createJournal => Unit
  | .writeJournal _ => Unit
  | .unlinkJournal => Unit
  | .createLog => Unit
  | .appendLog _ => Unit
  | .truncateLog _ => Unit

/-- The system calls as an interface. -/
abbrev Fs : Interface := Interface.fallible Op Exn Op.Result

namespace Disk

/-- No file exists and the lock is free. -/
def empty : Disk := ⟨none, none, none, false⟩

/-- The content of the log, empty when there is no file. -/
def logBytes (d : Disk) : Bytes := d.log.getD []

/-- The log with bytes at its end. -/
def extend (d : Disk) (b : Bytes) : Disk := { d with log := some (d.logBytes ++ b) }

/-- A file cut to a size, or filled with zeros up to it. -/
def resize (b : Bytes) (n : Nat) : Bytes := b.take n ++ List.replicate (n - b.length) 0

/-- `open(path, "r+b").truncate(offset)`. -/
def truncate (limit : Nat) (d : Disk) (offset : Int) : Except Exn Unit × Disk :=
  match d.log with
  | none => (.error .osError, d)
  | some b =>
      if offset < -2 ^ 63 then (.error .overflow, d)
      else if offset < 0 then (.error .osError, d)
      else if offset ≤ b.length ∨ offset ≤ limit then
        (.ok (), { d with log := some (resize b offset.toNat) })
      else if offset < 2 ^ 63 then (.error .osError, d)
      else (.error .overflow, d)

/-- `handle.seek(offset)` and `handle.read(length)` on the log. -/
def readAt (d : Disk) (offset : Int) (length : Nat) : Except Exn Bytes :=
  match d.log with
  | none => .error .osError
  | some b =>
      if offset < -2 ^ 63 then .error .valueError
      else if offset < 0 then .error .osError
      else if offset ≤ b.length ∨ offset < 2 ^ 63 then .ok ((b.drop offset.toNat).take length)
      else .error .valueError

/-- What a call does, at a given time. The file system takes files up to a limit. -/
def handle (limit : Nat) (time : Instant) : (o : Op) → Disk → Except Exn o.Result × Disk
  | .lock, d => if d.locked then (.error .stateLock, d) else (.ok (), { d with locked := true })
  | .unlock, d => (.ok (), { d with locked := false })
  | .now, d => (.ok time, d)
  | .readState, d => (.ok d.state, d)
  | .replaceState b, d => (.ok (), { d with state := some b })
  | .readJournal, d => (.ok d.journal, d)
  | .createJournal, d => (.ok (), { d with journal := some [] })
  | .writeJournal b, d => (.ok (), { d with journal := some b })
  | .unlinkJournal, d =>
      if d.journal.isSome then (.ok (), { d with journal := none }) else (.error .osError, d)
  | .statLog, d => (.ok (d.log.map List.length), d)
  | .createLog, d =>
      if d.log.isSome then (.error .osError, d) else (.ok (), { d with log := some [] })
  | .readLog, d => (.ok d.log, d)
  | .readLogAt offset length, d => (d.readAt offset length, d)
  | .appendLog b, d =>
      if (d.logBytes ++ b).length ≤ limit then (.ok (), d.extend b) else (.error .osError, d)
  | .truncateLog offset, d => d.truncate limit offset

/-- What a crash in the middle of a call may leave. -/
inductive Tear (limit : Nat) : Op → Disk → Disk → Prop
  | journal {b p : Bytes} (d : Disk) (hp : p <+: b) :
      Tear limit (.writeJournal b) d { d with journal := some p }
  | append {b p : Bytes} (d : Disk) (hp : p <+: b) (hl : (d.logBytes ++ p).length ≤ limit) :
      Tear limit (.appendLog b) d (d.extend p)

/-- The world in which every call succeeds. -/
def reliable (limit : Nat) : World Fs Disk where
  answers o d r d' := ∃ time, handle limit time o d = (r, d')
  tears := Tear limit

theorem reliable_responsive (limit : Nat) : (reliable limit).Responsive :=
  fun o d => ⟨_, _, ⟨⟨0, by decide⟩, rfl⟩⟩

theorem resize_of_le {b : Bytes} {n : Nat} (h : n ≤ b.length) : resize b n = b.take n := by
  rw [resize, Nat.sub_eq_zero_of_le h, List.replicate_zero, List.append_nil]

@[simp] theorem resize_append_left (b p : Bytes) : resize (b ++ p) b.length = b := by
  rw [resize_of_le (by simp), List.take_left]

@[simp] theorem extend_log (d : Disk) (b : Bytes) : (d.extend b).log = some (d.logBytes ++ b) := rfl

@[simp] theorem extend_journal (d : Disk) (b : Bytes) : (d.extend b).journal = d.journal := rfl

@[simp] theorem extend_state (d : Disk) (b : Bytes) : (d.extend b).state = d.state := rfl

@[simp] theorem extend_locked (d : Disk) (b : Bytes) : (d.extend b).locked = d.locked := rfl

end Disk

end IcsDeception
