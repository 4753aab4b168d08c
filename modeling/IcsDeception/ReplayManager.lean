import IcsDeception.Lib.Dict
import IcsDeception.Lib.Json.Value
import Mathlib.Logic.Relation

/-!
# The replay slot of the controller

`ReplayManager` keeps one replay job: the process and its description, under a lock. Calls
of `start`, `active` and `stop` and the threads that reap the earlier jobs take the lock in
any order, and processes exit at any moment, also between two statements of a critical
section. At most one process is alive, and the slot holds it.

## Implementation notes

Only one thread is behind the lock, so its position is part of the state and a step is one
statement of a critical section. `poll` may return `None` for a process that has exited,
because another thread may be waiting for it; it never reports a running one as finished.
What `stop` does behind the lock is to make the process exit, which may happen anyway. The
log file, the events and the arguments of the process are left out.
-/

namespace IcsDeception.ReplayManager

open Text Json

/-- The thread that runs `_reap` for a job. -/
inductive Reaper
  /-- The thread could not be started, or is about to be. -/
  | missing
  /-- In `proc.wait()`. -/
  | waiting
  /-- Behind `proc.wait()`, before the lock. -/
  | returned
  | locked
  deriving DecidableEq

/-- The description of a running job: `{**description, "pid": ..., "log_file": ...}`. -/
def summary (description : Dict Str Value) (pid : Nat) (logPath : Str) : Dict Str Value :=
  (description.store (lit "pid") (.int pid)).store (lit "log_file") (.str logPath)

/-- A process that `start` launched. -/
structure Job where
  pid : Nat
  description : Dict Str Value
  logPath : Str
  alive : Bool
  /-- `start` has returned `True` for it. -/
  started : Bool
  reaper : Reaper

/-- What `active` returns for a job. -/
def Job.summary (job : Job) : Dict Str Value :=
  ReplayManager.summary job.description job.pid job.logPath

/-- Where the thread behind the lock is. -/
inductive Critical
  /-- `start`, before it polls the slot. -/
  | start (description : Dict Str Value) (logPath : Str)
  /-- `start`, before the process is spawned. -/
  | starting (description : Dict Str Value) (logPath : Str)
  /-- `start`, behind the assignment to `_proc`. -/
  | spawned (description : Dict Str Value) (logPath : Str)
  /-- `start`, behind the assignment to `_active`. -/
  | described
  /-- `active`, before it polls the slot. -/
  | active
  /-- `active`, between the two assignments. -/
  | expired
  /-- `active`, before it returns. -/
  | reading
  /-- `_reap` of a job, before the comparison. -/
  | reap (job : Nat)
  /-- `_reap` of a job, between the two assignments. -/
  | reaping (job : Nat)
  | stop

/-- The state: the launched processes in order, `_proc`, `_active`, and the thread behind the
lock. -/
structure State where
  jobs : List Job
  proc : Option Nat
  active : Option (Dict Str Value)
  critical : Option Critical

/-- `ReplayManager.__init__`. -/
def State.init : State := ⟨[], none, none, none⟩

/-- A launched process is alive. -/
def State.Alive (s : State) (j : Nat) : Prop := ∃ job, s.jobs[j]? = some job ∧ job.alive = true

instance (s : State) (j : Nat) : Decidable (s.Alive j) :=
  decidable_of_iff (s.jobs[j]?.any Job.alive = true) (Option.any_eq_true _ _)

/-- The state after something happens to one job. -/
def State.modify (s : State) (j : Nat) (f : Job → Job) : State :=
  { s with jobs := s.jobs.modify j f }

/-- The process exits. -/
def Job.exit (job : Job) : Job := { job with alive := false }

/-- The thread of a job gets to a place. -/
def Job.reapedTo (reaper : Reaper) (job : Job) : Job := { job with reaper := reaper }

/-- The thread of a job is started, and `start` returns. -/
def Job.launch (job : Job) : Job := { job with started := true, reaper := .waiting }

/-- A process that has just been spawned. -/
def Job.spawn (description : Dict Str Value) (pid : Nat) (logPath : Str) : Job :=
  ⟨pid, description, logPath, true, false, .missing⟩

/-- What a step shows. -/
inductive Label
  | exit (job : Nat)
  | waited (job : Nat)
  | enter
  | statement
  | startReturned (ok : Bool)
  | startRaised
  | activeReturned (result : Option (Dict Str Value))
  | reap (job : Nat)
  | stopRead (proc : Option Nat)

/-- One step of the processes and threads. -/
inductive Step : State → Label → State → Prop
  /-- A process exits, by itself or because of `stop`. -/
  | exit {s : State} {j : Nat} (alive : s.Alive j) : Step s (.exit j) (s.modify j Job.exit)
  /-- `proc.wait()` returns in the thread of a job. -/
  | waited {s : State} {j : Nat} {job : Job} (found : s.jobs[j]? = some job)
      (dead : job.alive = false) (waiting : job.reaper = .waiting) :
      Step s (.waited j) (s.modify j (Job.reapedTo .returned))
  | enterStart {s : State} (free : s.critical = none) (description : Dict Str Value)
      (logPath : Str) : Step s .enter { s with critical := some (.start description logPath) }
  /-- `poll` returns `None`. -/
  | startRefused {s : State} {d : Dict Str Value} {l : Str} {j : Nat}
      (here : s.critical = some (.start d l)) (running : s.proc = some j) :
      Step s (.startReturned false) { s with critical := none }
  /-- The slot is empty, or `poll` returns a return code. -/
  | startFree {s : State} {d : Dict Str Value} {l : Str}
      (here : s.critical = some (.start d l)) (dead : ∀ j, s.proc = some j → ¬ s.Alive j) :
      Step s .statement { s with critical := some (.starting d l) }
  /-- The log file cannot be opened, or the process cannot be spawned. -/
  | startFailed {s : State} {d : Dict Str Value} {l : Str}
      (here : s.critical = some (.starting d l)) :
      Step s .startRaised { s with critical := none }
  | spawn {s : State} {d : Dict Str Value} {l : Str} (here : s.critical = some (.starting d l))
      (pid : Nat) :
      Step s .statement
        { s with
          jobs := s.jobs ++ [Job.spawn d pid l]
          proc := some s.jobs.length
          critical := some (.spawned d l) }
  | describe {s : State} {d : Dict Str Value} {l : Str} {j : Nat} {job : Job}
      (here : s.critical = some (.spawned d l)) (slot : s.proc = some j)
      (found : s.jobs[j]? = some job) :
      Step s .statement { s with active := some (summary d job.pid l), critical := some .described }
  | launched {s : State} {j : Nat} (here : s.critical = some .described)
      (slot : s.proc = some j) :
      Step s (.startReturned true) { s.modify j Job.launch with critical := none }
  /-- The thread of the job cannot be started. -/
  | unreaped {s : State} (here : s.critical = some .described) :
      Step s .startRaised { s with critical := none }
  | enterActive {s : State} (free : s.critical = none) :
      Step s .enter { s with critical := some .active }
  /-- `poll` returns a return code, and `_active` is cleared. -/
  | activeExpired {s : State} {j : Nat} (here : s.critical = some .active)
      (slot : s.proc = some j) (dead : ¬ s.Alive j) :
      Step s .statement { s with active := none, critical := some .expired }
  | activeCleared {s : State} (here : s.critical = some .expired) :
      Step s .statement { s with proc := none, critical := some .reading }
  /-- The slot is empty, or `poll` returns `None`. -/
  | activeKept {s : State} (here : s.critical = some .active) :
      Step s .statement { s with critical := some .reading }
  | activeReturned {s : State} (here : s.critical = some .reading) :
      Step s (.activeReturned (s.active.filter fun d => !d.isEmpty)) { s with critical := none }
  | enterReap {s : State} {j : Nat} {job : Job} (free : s.critical = none)
      (found : s.jobs[j]? = some job) (returned : job.reaper = .returned) :
      Step s (.reap j)
        { s.modify j (Job.reapedTo .locked) with critical := some (.reap j) }
  /-- The slot holds another process, or none. -/
  | reapKept {s : State} {j : Nat} (here : s.critical = some (.reap j)) (other : s.proc ≠ some j) :
      Step s (.reap j) { s with critical := none }
  | reapCleared {s : State} {j : Nat} (here : s.critical = some (.reap j))
      (slot : s.proc = some j) :
      Step s (.reap j) { s with proc := none, critical := some (.reaping j) }
  | reaped {s : State} {j : Nat} (here : s.critical = some (.reaping j)) :
      Step s (.reap j) { s with active := none, critical := none }
  | enterStop {s : State} (free : s.critical = none) :
      Step s .enter { s with critical := some .stop }
  | stopRead {s : State} (here : s.critical = some .stop) :
      Step s (.stopRead s.proc) { s with critical := none }

/-- A state that some interleaving reaches. -/
def Reachable (s : State) : Prop :=
  Relation.ReflTransGen (fun s s' => ∃ l, Step s l s') .init s

/-! ## The invariant -/

/-- What is known at a position behind the lock. -/
def Holds (s : State) : Option Critical → Prop
  | some (.starting _ _) => ∀ j, ¬ s.Alive j
  | some (.spawned d l) =>
      ∃ j job, s.proc = some j ∧ s.jobs[j]? = some job ∧ job.description = d ∧ job.logPath = l
  | some .expired => ∀ j, ¬ s.Alive j
  | some (.reap j) => ¬ s.Alive j
  | some (.reaping _) => s.proc = none
  | _ => True

/-- The description belongs to the process, except between two assignments. -/
def Settled : Option Critical → Prop
  | some (.spawned _ _) => False
  | some .expired => False
  | _ => True

/-- The slot holds the process that is alive, with its description. -/
structure Inv (s : State) : Prop where
  proc_lt : ∀ j, s.proc = some j → j < s.jobs.length
  alive_proc : ∀ j, s.Alive j → s.proc = some j
  active_eq : ∀ j job, s.proc = some j → s.jobs[j]? = some job → Settled s.critical →
    s.active = some job.summary
  returned_dead : ∀ (j : Nat) (job : Job), s.jobs[j]? = some job → job.reaper = .returned →
    job.alive = false
  holds : Holds s s.critical

theorem inv_init : Inv .init where
  proc_lt := fun _ h => nomatch h
  alive_proc := fun _ ⟨_, h, _⟩ => nomatch h
  active_eq := fun _ _ h _ _ => nomatch h
  returned_dead := fun _ _ h _ => nomatch h
  holds := trivial

/-- Another position behind the lock, with nothing else changed. -/
theorem Inv.goto {s : State} (hs : Inv s) {c : Option Critical} (hc : Holds s c)
    (hsettled : Settled c → Settled s.critical) : Inv { s with critical := c } where
  proc_lt := hs.proc_lt
  alive_proc := hs.alive_proc
  active_eq := fun j job hslot hfound h => hs.active_eq j job hslot hfound (hsettled h)
  returned_dead := hs.returned_dead
  holds := by
    cases c with
    | none => trivial
    | some c => cases c <;> exact hc

/-- A change of a job that keeps what it was launched with and does not revive it. -/
structure Fades (f : Job → Job) : Prop where
  description : ∀ job, (f job).description = job.description
  logPath : ∀ job, (f job).logPath = job.logPath
  pid : ∀ job, (f job).pid = job.pid
  alive : ∀ job, (f job).alive = true → job.alive = true

theorem getElem?_modify_inv {s : State} {i j : Nat} {f : Job → Job} {job : Job}
    (h : (s.modify i f).jobs[j]? = some job) :
    ∃ before, s.jobs[j]? = some before ∧ job = if i = j then f before else before := by
  simp only [State.modify, List.getElem?_modify, Option.map_eq_map, Option.map_eq_some_iff] at h
  obtain ⟨before, hbefore, rfl⟩ := h
  exact ⟨before, hbefore, by split_ifs <;> rfl⟩

theorem Fades.alive_modify {f : Job → Job} (hf : Fades f) {s : State} {i j : Nat}
    (h : (s.modify i f).Alive j) : s.Alive j := by
  obtain ⟨job, hjob, halive⟩ := h
  obtain ⟨before, hbefore, rfl⟩ := getElem?_modify_inv hjob
  refine ⟨before, hbefore, ?_⟩
  split_ifs at halive
  · exact hf.alive before halive
  · exact halive

/-- What happens to a job outside the lock keeps the invariant. -/
theorem Inv.modify {s : State} (hs : Inv s) {f : Job → Job} (hf : Fades f) {i : Nat}
    (hreturned : ∀ job, s.jobs[i]? = some job → (f job).reaper = .returned →
      (f job).alive = false) : Inv (s.modify i f) where
  proc_lt := fun j h => (hs.proc_lt j h).trans_eq (List.length_modify _ _ _).symm
  alive_proc := fun j h => hs.alive_proc j (hf.alive_modify h)
  active_eq := by
    intro j job hslot hfound hsettled
    obtain ⟨before, hbefore, rfl⟩ := getElem?_modify_inv hfound
    have hactive := hs.active_eq j before hslot hbefore hsettled
    refine hactive.trans (congrArg some ?_)
    split_ifs
    · rw [Job.summary, Job.summary, hf.description, hf.pid, hf.logPath]
    · rfl
  returned_dead := by
    intro j job hfound hreaper
    obtain ⟨before, hbefore, rfl⟩ := getElem?_modify_inv hfound
    split_ifs at hreaper ⊢ with hij
    · subst hij
      exact hreturned before hbefore hreaper
    · exact hs.returned_dead j before hbefore hreaper
  holds := by
    have hholds := hs.holds
    have hcritical : (s.modify i f).critical = s.critical := rfl
    rw [hcritical]
    cases hc : s.critical with
    | none => trivial
    | some c =>
        rw [hc] at hholds
        cases c with
        | starting d l => exact fun j h => hholds j (hf.alive_modify h)
        | spawned d l =>
            obtain ⟨j, job, hslot, hfound, hd, hl⟩ := hholds
            refine ⟨j, if i = j then f job else job, hslot, ?_, ?_, ?_⟩
            · simp only [State.modify, List.getElem?_modify, hfound, Option.map_eq_map,
                Option.map_some]
            · split_ifs
              · exact (hf.description job).trans hd
              · exact hd
            · split_ifs
              · exact (hf.logPath job).trans hl
              · exact hl
        | expired => exact fun j h => hholds j (hf.alive_modify h)
        | reap j => exact fun h => hholds (hf.alive_modify h)
        | reaping j => exact hholds
        | start d l => trivial
        | described => trivial
        | active => trivial
        | reading => trivial
        | stop => trivial

theorem fades_exit : Fades Job.exit :=
  ⟨fun _ => rfl, fun _ => rfl, fun _ => rfl, fun _ h => nomatch h⟩

theorem fades_reapedTo (reaper : Reaper) : Fades (Job.reapedTo reaper) :=
  ⟨fun _ => rfl, fun _ => rfl, fun _ => rfl, fun _ h => h⟩

theorem fades_launch : Fades Job.launch :=
  ⟨fun _ => rfl, fun _ => rfl, fun _ => rfl, fun _ h => h⟩

theorem Inv.dead_of_free {s : State} (hs : Inv s)
    (hdead : ∀ j, s.proc = some j → ¬ s.Alive j) (j : Nat) : ¬ s.Alive j := fun halive =>
  hdead j (hs.alive_proc j halive) halive

/-- A process that is spawned when none is alive. -/
theorem Inv.spawn {s : State} (hs : Inv s) (hdead : ∀ j, ¬ s.Alive j) (d : Dict Str Value)
    (pid : Nat) (l : Str) :
    Inv { s with
      jobs := s.jobs ++ [Job.spawn d pid l]
      proc := some s.jobs.length
      critical := some (.spawned d l) } where
  proc_lt := by
    rintro j ⟨⟩
    rw [List.length_append]
    exact Nat.lt_succ_self _
  alive_proc := by
    rintro j ⟨job, hfound, halive⟩
    rcases Nat.lt_or_ge j s.jobs.length with hlt | hge
    · have hold : s.jobs[j]? = some job := (List.getElem?_append_left hlt).symm.trans hfound
      exact absurd ⟨job, hold, halive⟩ (hdead j)
    · have hlength := (List.getElem?_eq_some_iff.mp hfound).1
      rw [List.length_append, List.length_singleton] at hlength
      exact congrArg some (by omega)
  active_eq := fun _ _ _ _ h => h.elim
  returned_dead := by
    intro j job hfound hreaper
    rcases Nat.lt_or_ge j s.jobs.length with hlt | hge
    · exact hs.returned_dead j job ((List.getElem?_append_left hlt).symm.trans hfound) hreaper
    · have hnew := (List.getElem?_append_right hge).symm.trans hfound
      obtain rfl := List.mem_singleton.mp (List.mem_of_getElem? hnew)
      cases hreaper
  holds := by
    refine ⟨s.jobs.length, Job.spawn d pid l, rfl, ?_, rfl, rfl⟩
    rw [List.getElem?_append_right (Nat.le_refl _), Nat.sub_self]
    rfl

/-- The slot is cleared when its process is dead. -/
theorem Inv.clear {s : State} (hs : Inv s) (hdead : ∀ j, ¬ s.Alive j) {c : Option Critical}
    (hc : Holds { s with proc := none } c) : Inv { s with proc := none, critical := c } where
  proc_lt := fun _ h => nomatch h
  alive_proc := fun j h => absurd h (hdead j)
  active_eq := fun _ _ h _ _ => nomatch h
  returned_dead := hs.returned_dead
  holds := by
    cases c with
    | none => trivial
    | some c => cases c <;> exact hc

/-- Every step keeps the invariant. -/
theorem Inv.step {s s' : State} {l : Label} (hs : Inv s) (h : Step s l s') : Inv s' := by
  have hholds := hs.holds
  cases h with
  | exit alive => exact hs.modify fades_exit fun _ _ _ => rfl
  | @waited j job found dead waiting =>
      apply hs.modify (fades_reapedTo .returned)
      intro job' hjob' _
      obtain rfl := Option.some.inj (found.symm.trans hjob')
      exact dead
  | enterStart free d l => exact hs.goto trivial fun _ => by rw [free]; trivial
  | startRefused here running => exact hs.goto trivial fun _ => by rw [here]; trivial
  | startFree here dead =>
      exact hs.goto (hs.dead_of_free dead) fun _ => by rw [here]; trivial
  | startFailed here => exact hs.goto trivial fun _ => by rw [here]; trivial
  | spawn here pid =>
      rw [here] at hholds
      exact hs.spawn hholds _ pid _
  | @describe d l j job here slot found =>
      rw [here] at hholds
      obtain ⟨i, job', hslot, hfound, hd, hl⟩ := hholds
      obtain rfl := Option.some.inj (slot.symm.trans hslot)
      obtain rfl := Option.some.inj (found.symm.trans hfound)
      refine ⟨hs.proc_lt, hs.alive_proc, ?_, hs.returned_dead, trivial⟩
      intro i job' hi hjob' _
      obtain rfl := Option.some.inj (slot.symm.trans hi)
      obtain rfl := Option.some.inj (found.symm.trans hjob')
      rw [Job.summary, hd, hl]
  | @launched j here slot =>
      have hmodified : Inv (s.modify j Job.launch) :=
        hs.modify fades_launch fun _ _ hreaper => nomatch hreaper
      exact hmodified.goto trivial fun _ => by
        change Settled s.critical
        rw [here]
        trivial
  | unreaped here => exact hs.goto trivial fun _ => by rw [here]; trivial
  | enterActive free => exact hs.goto trivial fun _ => by rw [free]; trivial
  | @activeExpired j here slot dead =>
      have hdead := hs.dead_of_free fun i hi => (Option.some.inj (slot.symm.trans hi)) ▸ dead
      exact ⟨hs.proc_lt, hs.alive_proc, fun _ _ _ _ h => h.elim, hs.returned_dead, hdead⟩
  | activeCleared here =>
      rw [here] at hholds
      exact hs.clear hholds trivial
  | activeKept here => exact hs.goto trivial fun _ => by rw [here]; trivial
  | activeReturned here => exact hs.goto trivial fun _ => by rw [here]; trivial
  | @enterReap j job free found returned =>
      have hmodified : Inv (s.modify j (Job.reapedTo .locked)) :=
        hs.modify (fades_reapedTo .locked) fun _ _ hreaper => nomatch hreaper
      apply hmodified.goto
      · intro halive
        obtain ⟨job', hjob', halive'⟩ := (fades_reapedTo .locked).alive_modify halive
        obtain rfl := Option.some.inj (found.symm.trans hjob')
        rw [hs.returned_dead j job found returned] at halive'
        cases halive'
      · intro _
        change Settled s.critical
        rw [free]
        trivial
  | reapKept here other => exact hs.goto trivial fun _ => by rw [here]; trivial
  | @reapCleared j here slot =>
      rw [here] at hholds
      have hdead := hs.dead_of_free fun i hi => (Option.some.inj (slot.symm.trans hi)) ▸ hholds
      exact hs.clear hdead rfl
  | reaped here =>
      rw [here] at hholds
      have hslot : s.proc = none := hholds
      exact ⟨hs.proc_lt, hs.alive_proc, fun j _ h => absurd (hslot.symm.trans h) (by simp),
        hs.returned_dead, trivial⟩
  | enterStop free => exact hs.goto trivial fun _ => by rw [free]; trivial
  | stopRead here => exact hs.goto trivial fun _ => by rw [here]; trivial

/-- Every reachable state keeps the invariant. -/
theorem inv_of_reachable {s : State} (h : Reachable s) : Inv s := by
  induction h with
  | refl => exact inv_init
  | tail _ hstep ih =>
      obtain ⟨l, hl⟩ := hstep
      exact ih.step hl

/-! ## One replay -/

theorem lookup_summary_pid (d : Dict Str Value) (pid : Nat) (l : Str) :
    (summary d pid l).lookup (lit "pid") = some (.int pid) := by
  rw [summary, Dict.lookup_store_ne _ (by decide), Dict.lookup_store_self]

theorem summary_ne_nil (d : Dict Str Value) (pid : Nat) (l : Str) : summary d pid l ≠ [] := by
  intro h
  have hlookup := lookup_summary_pid d pid l
  rw [h] at hlookup
  cases hlookup

/-- What a state and the steps from it have to be. -/
structure OneReplay (s : State) : Prop where
  /-- At most one launched process is alive. -/
  one : ∀ i j, s.Alive i → s.Alive j → i = j
  /-- A process that was started and is alive is in the slot. -/
  slot : ∀ j, s.Alive j → s.proc = some j
  /-- While it is alive, `active` returns its description with its pid. -/
  remembered : ∀ (j : Nat) (job : Job), s.jobs[j]? = some job → job.alive = true →
    ∀ result s', Step s (.activeReturned result) s' →
      result = some job.summary ∧ job.summary.lookup (lit "pid") = some (.int job.pid)
  /-- The thread of another job leaves the slot as it is. -/
  reap : ∀ i j, s.proc = some j → i ≠ j → ∀ s', Step s (.reap i) s' →
    s'.proc = some j ∧ s'.active = s.active

/-- In every interleaving at most one replay is alive, no started replay is forgotten while its
process is alive, and no late reaping clears the slot of a newer job. -/
theorem one_replay {s : State} (h : Reachable s) : OneReplay s where
  one := by
    have hs := inv_of_reachable h
    intro i j hi hj
    exact Option.some.inj ((hs.alive_proc i hi).symm.trans (hs.alive_proc j hj))
  slot := (inv_of_reachable h).alive_proc
  remembered := by
    have hs := inv_of_reachable h
    intro j job hfound halive result s' hstep
    refine ⟨?_, lookup_summary_pid _ _ _⟩
    cases hstep with
    | activeReturned here =>
        have hactive := hs.active_eq j job (hs.alive_proc j ⟨job, hfound, halive⟩) hfound
          (by rw [here]; trivial)
        have hkept : (!job.summary.isEmpty) = true := by
          rw [Bool.not_eq_true', List.isEmpty_eq_false_iff]
          exact summary_ne_nil _ _ _
        rw [hactive]
        exact Option.filter_some_pos hkept
  reap := by
    have hs := inv_of_reachable h
    have hholds := hs.holds
    intro i j hslot hne s' hstep
    cases hstep with
    | enterReap free found returned => exact ⟨hslot, rfl⟩
    | reapKept here other => exact ⟨hslot, rfl⟩
    | reapCleared here slot =>
        have hsame := Option.some.inj (slot.symm.trans hslot)
        exact absurd hsame hne
    | reaped here =>
        rw [here] at hholds
        have hnone : s.proc = none := hholds
        rw [hnone] at hslot
        cases hslot

/-- The first job has exited and a second one runs when the thread of the first gets the lock. -/
def lateReap : State where
  jobs := [⟨41, [], [], false, true, .locked⟩, ⟨42, [], [], true, true, .waiting⟩]
  proc := some 1
  active := some (summary [] 42 [])
  critical := some (.reap 0)

theorem reachable_lateReap : Reachable lateReap := by
  have hempty : ∀ j, State.init.proc = some j → ¬ State.init.Alive j := fun _ h => nomatch h
  refine .head ⟨_, .enterStart rfl [] []⟩ (.head ⟨_, .startFree rfl hempty⟩
    (.head ⟨_, .spawn rfl 41⟩ (.head ⟨_, .describe rfl rfl rfl⟩ (.head ⟨_, .launched rfl rfl⟩
    (.head ⟨_, .exit (j := 0) (by decide)⟩ (.head ⟨_, .waited (j := 0) rfl rfl rfl⟩
    (.head ⟨_, .enterStart rfl [] []⟩ (.head ⟨_, .startFree rfl ?_⟩ (.head ⟨_, .spawn rfl 42⟩
    (.head ⟨_, .describe rfl rfl rfl⟩ (.head ⟨_, .launched rfl rfl⟩
    (.single ⟨_, .enterReap (j := 0) rfl rfl rfl⟩))))))))))))
  rintro j ⟨⟩
  decide

theorem one_replay_lateReap : OneReplay lateReap := one_replay reachable_lateReap

end IcsDeception.ReplayManager
