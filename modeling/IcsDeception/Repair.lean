import IcsDeception.RecoveryOutcome
import IcsDeception.Signer

/-!
# The administrative repair

What `repair_from_log` and `repair_state_from_log` write, and exactly when they move the
state back.
-/

namespace IcsDeception

open Text Json Calendar Method NodeState

namespace EvidenceStore

open Disk

variable {py : Interp} {nodeId : Str} {r : Logged}

section Repairing

variable {limit : Nat} {w : World Fs Disk} {C : Disk → Prop} {o : EvidenceStore} {d : Disk}
  {st : NodeState} {Q : Except Exn NodeState → EvidenceStore → Disk → Prop}

theorem lastLogged_congr {d d' : Disk} (h : d'.log = d.log) :
    lastLogged py nodeId d' = lastLogged py nodeId d := by
  rw [lastLogged, lastLogged, h]

/-- The state that a record proves. -/
def provenBy (o : EvidenceStore) (r : Logged) : NodeState :=
  ⟨o.nodeId, .str o.keyId, r.sequence, some r.eventHash⟩

theorem writable_provenBy (h : lastLogged py nodeId d = .ok (some r)) :
    Writable py (provenBy o r) :=
  writable_of_short rfl (lastLogged_short h)

theorem safe_currentSequence (hw : Mild limit w) (hl : o.lockHeld = true)
    (hs : loadState py o d = .ok st) {Q : Except Exn Int → EvidenceStore → Disk → Prop} :
    (currentSequence py).Safe w C Q o d ↔ C d ∧ Q (.ok st.lastSequence) (o.knowing (.ok st)) d := by
  simp only [currentSequence, safe_bind, safe_attempt, safe_readState hw hl, hs, Then, safe_pure]
  tauto

theorem safe_repair_record (hw : Mild limit w) (hr : ∀ b, Steady limit w (.replaceState b))
    (hl : o.lockHeld = true) (hs : loadState py o d = .ok st) {r : Logged}
    (hlast : lastLogged py o.nodeId d = .ok (some r)) :
    (repairFromLog py).Safe w C Q o d ↔ C d ∧
      OnWrite py (provenBy o r) (fun e => Q (.error e) { o with state := none } d)
        fun b => C { d with state := some b } ∧
          Q (.ok (provenBy o r)) { o with state := some (provenBy o r) }
            { d with state := some b } := by
  simp only [repairFromLog, safe_bind, safe_self, Then, safe_requireLock hl,
    safe_lastLoggedRecord hw, hlast, safe_currentSequence hw hl hs, safe_pure, safe_modify,
    safe_writeState hw hr]
  simp only [← and_assoc, and_self]
  refine and_congr_right fun _ => onWrite_congr (fun _ => Iff.rfl) fun b => Iff.rfl

theorem safe_repair_empty (hw : Mild limit w) (hr : ∀ b, Steady limit w (.replaceState b))
    (hl : o.lockHeld = true) (hs : loadState py o d = .ok st)
    (hlast : lastLogged py o.nodeId d = .ok none) (hz : st.lastSequence = 0) :
    (repairFromLog py).Safe w C Q o d ↔ C d ∧
      OnWrite py (zero o.nodeId o.keyId) (fun e => Q (.error e) { o with state := none } d)
        fun b => C { d with state := some b } ∧
          Q (.ok (zero o.nodeId o.keyId)) { o with state := some (zero o.nodeId o.keyId) }
            { d with state := some b } := by
  simp only [repairFromLog, safe_bind, safe_self, Then, safe_requireLock hl,
    safe_lastLoggedRecord hw, hlast, safe_currentSequence hw hl hs, hz, ne_eq, not_true,
    if_false, safe_pure, safe_modify, safe_writeState hw hr]
  simp only [← and_assoc, and_self]
  refine and_congr_right fun _ => onWrite_congr (fun _ => Iff.rfl) fun b => Iff.rfl

theorem safe_repair_refused (hw : Mild limit w) (hl : o.lockHeld = true)
    (hs : loadState py o d = .ok st) (hlast : lastLogged py o.nodeId d = .ok none)
    (hz : st.lastSequence ≠ 0) :
    (repairFromLog py).Safe w C Q o d ↔
      C d ∧ Q (.error .stateDivergence) (o.knowing (.ok st)) d := by
  simp only [repairFromLog, safe_bind, safe_self, Then, safe_requireLock hl,
    safe_lastLoggedRecord hw, hlast, safe_currentSequence hw hl hs, ne_eq, hz, not_false_eq_true,
    if_true, safe_raise]
  tauto

theorem safe_repair_unreadable (hw : Mild limit w) (hl : o.lockHeld = true) {e : Exn}
    (hlast : lastLogged py o.nodeId d = .error e) :
    (repairFromLog py).Safe w C Q o d ↔ C d ∧ Q (.error e) o d := by
  simp only [repairFromLog, safe_bind, safe_self, Then, safe_requireLock hl,
    safe_lastLoggedRecord hw, hlast]
  tauto

end Repairing

section Outcome

variable {o : EvidenceStore} {d : Disk} {st : NodeState}

/-- How a repair ends on a log and at a state: with the state that the last record proves, with
the zero state when there is no record, or with an exception and the state file as it was. -/
inductive Repairs (py : Interp) (o : EvidenceStore) (d : Disk) (st : NodeState) :
    Except Exn NodeState → Disk → Prop
  | record {r : Logged} {time : Instant} {b : Bytes} {d' : Disk}
      (hlast : lastLogged py o.nodeId d = .ok (some r))
      (hb : fileBytes py (provenBy o r) time = .ok b) (hd : d'.state = some b) :
      Repairs py o d st (.ok (provenBy o r)) d'
  | fresh {time : Instant} {b : Bytes} {d' : Disk} (hlast : lastLogged py o.nodeId d = .ok none)
      (hz : st.lastSequence = 0) (hb : fileBytes py (zero o.nodeId o.keyId) time = .ok b)
      (hd : d'.state = some b) : Repairs py o d st (.ok (zero o.nodeId o.keyId)) d'
  | refused {e : Exn} {d' : Disk} (hlast : ∀ r, lastLogged py o.nodeId d ≠ .ok (some r))
      (hd : d'.state = d.state) : Repairs py o d st (.error e) d'

/-- The zero state can be written. -/
theorem writable_zero (nodeId keyId : Str) : Writable py (zero nodeId keyId) := by
  apply writable_of_short rfl
  have hzero : (Decimal.natText 0).length ≤ 1 := Decimal.natText_length_le Nat.one_pos (by decide)
  exact hzero.trans (by decide)

theorem safe_repair_repairs (hl : o.lockHeld = true) (hs : loadState py o d = .ok st) :
    (repairFromLog py).Safe (reliable py.fileLimit) (fun _ => True)
      (fun res o' d' => o'.lockHeld = true ∧ Repairs py o d st res d') o d := by
  have hw := mild_reliable py.fileLimit
  have hr : ∀ b, Steady py.fileLimit (reliable py.fileLimit) (.replaceState b) :=
    fun b => steady_reliable _ _
  cases hlast : lastLogged py o.nodeId d with
  | error e =>
      rw [safe_repair_unreadable hw hl hlast]
      exact ⟨trivial, hl, .refused (by simp [hlast]) rfl⟩
  | ok last =>
      cases last with
      | some r =>
          rw [safe_repair_record hw hr hl hs hlast]
          refine ⟨trivial, onWrite_of_writable (writable_provenBy hlast) fun time b hb => ?_⟩
          exact ⟨trivial, hl, .record hlast hb rfl⟩
      | none =>
          by_cases hz : st.lastSequence = 0
          · rw [safe_repair_empty hw hr hl hs hlast hz]
            refine ⟨trivial, onWrite_of_writable (writable_zero _ _) fun time b hb => ?_⟩
            exact ⟨trivial, hl, .fresh hlast hz hb rfl⟩
          · rw [safe_repair_refused hw hl hs hlast hz]
            exact ⟨trivial, hl, .refused (by simp [hlast]) rfl⟩

theorem Repairs.disk {res : Except Exn NodeState} {d' d'' : Disk} (h : Repairs py o d st res d')
    (hd : d''.state = d'.state) : Repairs py o d st res d'' := by
  cases h with
  | record hlast hb hfile => exact .record hlast hb (hd.trans hfile)
  | fresh hlast hz hb hfile => exact .fresh hlast hz hb (hd.trans hfile)
  | refused hlast hfile => exact .refused hlast (hd.trans hfile)

/-- A repair depends on the names that its store was made with, not on its memory. -/
theorem Repairs.store {o₁ : EvidenceStore} {res : Except Exn NodeState} {d' : Disk}
    (h : Repairs py o₁ d st res d') (hn : o₁.nodeId = o.nodeId) (hk : o₁.keyId = o.keyId) :
    Repairs py o d st res d' := by
  have hproven : ∀ r, provenBy o₁ r = provenBy o r := fun r => by rw [provenBy, provenBy, hn, hk]
  cases h with
  | record hlast hb hfile =>
      rw [hproven] at hb ⊢
      exact .record (hn ▸ hlast) hb hfile
  | fresh hlast hz hb hfile =>
      rw [hn, hk] at hb ⊢
      exact .fresh (hn ▸ hlast) hz hb hfile
  | refused hlast hfile => exact .refused (hn ▸ hlast) hfile

/-- On a log that ends with a record the state before does not matter. -/
theorem Repairs.of_record {d₁ : Disk} {st₁ : NodeState} {res : Except Exn NodeState} {d' : Disk}
    (h : Repairs py o d₁ st₁ res d') {r : Logged}
    (hlast : lastLogged py o.nodeId d = .ok (some r)) (hlog : d₁.log = d.log) :
    Repairs py o d st res d' := by
  have hsame : lastLogged py o.nodeId d₁ = .ok (some r) := (lastLogged_congr hlog).trans hlast
  cases h with
  | record hlast' hb hfile =>
      obtain rfl := Option.some.inj (Except.ok.inj (hsame.symm.trans hlast'))
      exact .record hlast hb hfile
  | fresh hlast' => cases hsame.symm.trans hlast'
  | refused hlast' => exact absurd hsame (hlast' r)

/-- A repair after the check of the state against the log ends as a repair without it: the
check changes the state file only when the log ends with a record. -/
theorem safe_check_repairs (hl : o.lockHeld = true) (hs : loadState py o d = .ok st)
    (report : RecoveryReport) :
    (checkStateAgainstLog py report).Safe (reliable py.fileLimit) (fun _ => True)
      (fun r o₁ d₁ => (repairFromLog py).Safe (reliable py.fileLimit) (fun _ => True)
        (fun res o' d' => o'.lockHeld = true ∧ Repairs py o d st res d') (o₁.noting r) d₁) o d := by
  have hw := mild_reliable py.fileLimit
  have hkeep : ∀ r : Except Exn RecoveryReport, (repairFromLog py).Safe (reliable py.fileLimit)
      (fun _ => True) (fun res o' d' => o'.lockHeld = true ∧ Repairs py o d st res d')
      (noting (o.knowing (.ok st)) r) d := by
    intro r
    have hrepairs := @safe_repair_repairs py (noting (o.knowing (.ok st)) r) d st
      (by cases r <;> exact hl) (by cases r <;> rfl)
    refine hrepairs.weaken fun res o' d' _ h => ⟨h.1, ?_⟩
    cases r <;> exact h.2.store rfl rfl
  by_cases hz : st.lastSequence = 0
  · rw [safe_check_zero hw hl hs hz]
    exact ⟨trivial, hkeep _⟩
  · by_cases hc : Covered py o.nodeId d st
    · rcases hc with hc | ⟨r, hr, hle⟩
      · exact absurd hc hz
      rcases hle.lt_or_eq with hlt | heq
      · rw [safe_check_adopt hw (fun b => steady_reliable _ _) hl hs hz hr hlt]
        refine ⟨trivial, fun time => ?_⟩
        cases fileBytes py (adopting py o st r) time with
        | error e => exact hkeep _
        | ok b =>
            have hrepairs := @safe_repair_repairs py
              (noting { o with state := some (adopting py o st r) } (.ok report))
              { d with state := some b } (adopting py o st r) hl rfl
            refine ⟨trivial, hrepairs.weaken fun res o' d' _ h => ⟨h.1, ?_⟩⟩
            have hstore : Repairs py o { d with state := some b } (adopting py o st r) res d' :=
              h.2.store rfl rfl
            exact hstore.of_record hr rfl
      · rw [safe_check_equal hw hl hs hz hr heq]
        exact ⟨trivial, hkeep _⟩
    · exact safe_check_uncovered hw hl hs hc trivial fun e => hkeep _

end Outcome

section Rewinding

variable {o : EvidenceStore} {d d₀ d₁ : Disk} {st st₁ : NodeState}

/-- The outcome of a repair that starts at a state: it raises and leaves the state file as
it is, or it writes a state that is not behind. -/
def Forward (py : Interp) (d : Disk) (st : NodeState) (r : Except Exn NodeState) (d' : Disk) :
    Prop :=
  (∃ e, r = .error e ∧ d'.state = d.state) ∨
    ∃ st' time b, r = .ok st' ∧ fileBytes py st' time = .ok b ∧ d'.state = some b ∧
      st.lastSequence ≤ st'.lastSequence

/-- Every run of a repair moves forward. -/
def NeverRewinds (py : Interp) (repair : StoreM NodeState) (o : EvidenceStore) (d : Disk)
    (st : NodeState) : Prop :=
  ∀ r o' d', repair.Ends (reliable py.fileLimit) o d r o' d' → Forward py d st r d'

/-- The log does not end behind a state. -/
def LogNotBehind (py : Interp) (nodeId : Str) (d : Disk) (st : NodeState) : Prop :=
  ∀ r, lastLogged py nodeId d = .ok (some r) → st.lastSequence ≤ r.sequence

theorem LogNotBehind.log (h : LogNotBehind py nodeId d st) (hlog : d₁.log = d.log) :
    LogNotBehind py nodeId d₁ st :=
  fun r hr => h r ((lastLogged_congr hlog).symm.trans hr)

/-- A repair that starts at a state that is not behind moves forward exactly if the log does not
end behind, and nothing was written before a repair that raises. -/
theorem Repairs.forward_iff {res : Except Exn NodeState} {d' : Disk}
    (h : Repairs py o d₁ st₁ res d') (hle : st.lastSequence ≤ st₁.lastSequence) :
    Forward py d₀ st res d' ↔
      LogNotBehind py o.nodeId d₁ st ∧ ∀ e, res = .error e → d₁.state = d₀.state := by
  cases h with
  | @record r time b _ hlast hb hfile =>
      constructor
      · rintro (⟨e, he, -⟩ | ⟨st', time', b', he, -, -, hforward⟩)
        · cases he
        · cases he
          refine ⟨fun r' hr' => ?_, fun e he => by cases he⟩
          obtain rfl := Option.some.inj (Except.ok.inj (hlast.symm.trans hr'))
          exact hforward
      · rintro ⟨hlog, -⟩
        exact .inr ⟨_, time, b, rfl, hb, hfile, hlog r hlast⟩
  | @fresh time b _ hlast hz hb hfile =>
      refine iff_of_true (.inr ⟨_, time, b, rfl, hb, hfile, hle.trans hz.le⟩) ⟨fun r hr => ?_, ?_⟩
      · cases hlast.symm.trans hr
      · exact fun e he => by cases he
  | @refused e _ hlast hfile =>
      constructor
      · rintro (⟨e', -, hkept⟩ | ⟨st', time', b', he, -⟩)
        · exact ⟨fun r hr => absurd hr (hlast r), fun _ _ => hfile.symm.trans hkept⟩
        · cases he
      · rintro ⟨-, hkept⟩
        exact .inl ⟨e, rfl, hfile.trans (hkept e rfl)⟩

theorem repairFromLog_iff (hl : o.lockHeld = true) (hs : loadState py o d = .ok st) :
    NeverRewinds py (repairFromLog py) o d st ↔ LogNotBehind py o.nodeId d st := by
  have hrepairs := safe_repair_repairs hl hs
  constructor
  · intro H
    obtain ⟨⟨res, o'⟩, d', he⟩ := Prog.exists_ends (reliable_responsive py.fileLimit)
      (repairFromLog py o) d
    exact (((hrepairs.ends he).2.forward_iff le_rfl).mp (H res o' d' he)).1
  · intro h res o' d' he
    exact ((hrepairs.ends he).2.forward_iff le_rfl).mpr ⟨h, fun _ _ => rfl⟩

end Rewinding

section Settling

variable {o : EvidenceStore} {d d₁ : Disk} {st st₁ : NodeState}

/-- Settling a journal does not take the state back. -/
theorem Settles.state {limit : Nat} {r : Except Exn NodeState}
    (h : Settles py limit o d r d₁) (hs : loadState py o d = .ok st) :
    ∃ st₁, r = .ok st₁ ∧ st.lastSequence ≤ st₁.lastSequence := by
  cases h with
  | absent => exact ⟨st, hs, le_rfl⟩
  | discarded => exact ⟨st, hs, le_rfl⟩
  | completed hb hj hx hin hs' hlt hwr =>
      obtain rfl := Except.ok.inj (hs.symm.trans hs')
      exact ⟨_, rfl, hlt.le⟩
  | alreadyCommitted hb hj hx hin hs' hlt =>
      obtain rfl := Except.ok.inj (hs.symm.trans hs')
      exact ⟨st, rfl, le_rfl⟩
  | undone => exact ⟨st, hs, le_rfl⟩

/-- The key of a settled state is one that a JSON text or the store has given. -/
theorem Settles.legible {limit : Nat} (ho : o.state = none)
    (h : Settles py limit o d (.ok st₁) d₁) : Legible st₁.keyId := by
  have hloaded : ∀ st, loadState py o d = .ok st → Legible st.keyId := by
    intro st hs
    obtain ⟨k, hk⟩ := loadState_keyId ho hs
    rw [hk]
    trivial
  generalize hr : Except.ok st₁ = r at h
  cases h with
  | absent => exact hloaded _ hr.symm
  | discarded => exact hloaded _ hr.symm
  | completed hb hj hx hin hs hlt hwr =>
      obtain rfl := Except.ok.inj hr
      exact legible_chooseKey (legible_of_readJournal hj) (hloaded _ hs)
  | alreadyCommitted hb hj hx hin hs hlt =>
      obtain rfl := Except.ok.inj hr
      exact hloaded _ hs
  | undone => exact hloaded _ hr.symm

/-- The state file that is kept is the one of before exactly if the state did not move. -/
theorem Kept.file_iff (ho : o.state = none) (h : Kept py o d (.ok st₁) d₁)
    (hs : loadState py o d = .ok st) (hlegible : Legible st₁.keyId) :
    d₁.state = d.state ↔ ¬ st.lastSequence < st₁.lastSequence := by
  rcases h with ⟨hr, hfile⟩ | ⟨st', st'', time, b, hs', hr, hlt, hb, hfile⟩
  · obtain rfl := Except.ok.inj (hr.trans hs)
    exact iff_of_true hfile (lt_irrefl _)
  · obtain rfl := Except.ok.inj hr
    obtain rfl := Except.ok.inj (hs.symm.trans hs')
    refine iff_of_false (fun hsame => hlt.ne ?_) (not_not.mpr hlt)
    -- the file that was written is read back at the later sequence
    have hread : ofFile py o.nodeId b = .ok st := by
      rw [loadState, ho] at hs
      rw [← hsame, hfile] at hs
      exact hs
    exact lastSequence_of_ofFile hlegible hb hread

/-- What settling the journal leaves is a log and a state from which a repair moves forward: the
log does not end behind the state, and if a commit was completed the log has a record. -/
structure SettlesForward (py : Interp) (o : EvidenceStore) (d : Disk) (st : NodeState) : Prop where
  settled : ∀ st₁ d₁, Settles py py.fileLimit o d (.ok st₁) d₁ →
    LogNotBehind py o.nodeId d₁ st ∧
      (st.lastSequence < st₁.lastSequence → ∃ r, lastLogged py o.nodeId d₁ = .ok (some r))
  unsettled : (∀ r d₁, ¬ Settles py py.fileLimit o d r d₁) → LogNotBehind py o.nodeId d st

/-- How the repair of the signer ends when the journal is settled. -/
def RepairsSettled (py : Interp) (o : EvidenceStore) (d : Disk) (st₁ : NodeState) (d₁ : Disk)
    (res : Except Exn NodeState) (d' : Disk) : Prop :=
  ∃ d₂, d₂.log = d₁.log ∧ Kept py o d (.ok st₁) d₂ ∧ Repairs py o d₂ st₁ res d'

variable (hl : o.lockHeld = true)
include hl

theorem safe_recover_settled (h : Settles py py.fileLimit o d (.ok st₁) d₁) :
    (recover py).Safe (reliable py.fileLimit) (fun _ => True)
      (fun _ o₂ d₂ => (repairFromLog py).Safe (reliable py.fileLimit) (fun _ => True)
        (fun res o' d' => o'.lockHeld = true ∧ RepairsSettled py o d st₁ d₁ res d') o₂ d₂) o d := by
  have hw := mild_reliable py.fileLimit
  rw [safe_recover hl]
  refine ⟨trivial, safe_replay_of_settles hw (fun b => steady_reliable _ _) hl h ?_⟩
  intro report o₁ d₂ ha
  simp only [Then]
  refine (safe_check_repairs (ha.lockHeld.trans hl) ha.state report).weaken ?_
  intro r o₂ d₃ _ hrepair
  refine hrepair.weaken fun res o' d' _ hres => ⟨hres.1, d₂, ha.log, ha.file, ?_⟩
  exact hres.2.store ha.nodeId ha.keyId

theorem safe_recover_unsettled (h : ∀ r d₁, ¬ Settles py py.fileLimit o d r d₁)
    (hs : loadState py o d = .ok st) :
    (recover py).Safe (reliable py.fileLimit) (fun _ => True)
      (fun _ o₂ d₂ => (repairFromLog py).Safe (reliable py.fileLimit) (fun _ => True)
        (fun res o' d' => o'.lockHeld = true ∧ Repairs py o d st res d') o₂ d₂) o d := by
  have hw := mild_reliable py.fileLimit
  rw [safe_recover hl]
  refine ⟨trivial, safe_replay_of_not_settles hw (fun b => steady_reliable _ _) hl h ?_⟩
  intro ex o₁ hl₁ hn hk hload
  simp only [Then]
  refine (safe_repair_repairs (hl₁.trans hl) (hload.trans hs)).weaken ?_
  exact fun res o' d' _ hres => ⟨hres.1, hres.2.store hn hk⟩

end Settling

section Administration

variable {o : EvidenceStore} {d : Disk} {st : NodeState}

/-- The repair of the signer: take the lock, recover whatever comes of it, rebuild the state,
give the lock back. -/
theorem safe_repairStateFromLog (ho : o.lockHeld = false) (hd : d.locked = false)
    {P : Except Exn NodeState → Disk → Prop}
    (hP : ∀ res d', P res d' → P res { d' with locked := false })
    (h : (recover py).Safe (reliable py.fileLimit) (fun _ => True)
      (fun _ o₂ d₂ => (repairFromLog py).Safe (reliable py.fileLimit) (fun _ => True)
        (fun res o' d' => o'.lockHeld = true ∧ P res d') o₂ d₂)
      { o with lockHeld := true } { d with locked := true }) :
    (EvidenceSigner.repairStateFromLog py).Safe (reliable py.fileLimit) (fun _ => True)
      (fun res _ d' => P res d') o d := by
  have hw := mild_reliable py.fileLimit
  simp only [EvidenceSigner.repairStateFromLog, safe_bind, safe_acquire hw ho, hd,
    Bool.false_eq_true, if_false, Then, safe_attempt, safe_suppress]
  refine ⟨trivial, trivial, h.weaken fun r o₂ d₂ _ hrepair => ?_⟩
  have hrelease : (repairFromLog py).Safe (reliable py.fileLimit) (fun _ => True) (fun res => (do
      release
      ofExcept res : StoreM NodeState).Safe (reliable py.fileLimit) (fun _ => True)
        fun res _ d' => P res d') o₂ d₂ := by
    refine hrepair.weaken fun res o' d' _ hres => ?_
    rw [safe_bind, safe_release hw hres.1]
    exact ⟨trivial, trivial, trivial, hP res d' hres.2⟩
  cases r with
  | error e => exact hrelease
  | ok report => exact ⟨trivial, hrelease⟩

theorem repairStateFromLog_iff (ho : o.lockHeld = false) (hfresh : o.state = none)
    (hd : d.locked = false) (hs : loadState py o d = .ok st) :
    NeverRewinds py (EvidenceSigner.repairStateFromLog py) o d st ↔
      SettlesForward py { o with lockHeld := true } { d with locked := true } st := by
  have hs' : loadState py { o with lockHeld := true } { d with locked := true } = .ok st := hs
  have hfresh' : ({ o with lockHeld := true } : EvidenceStore).state = none := hfresh
  have hsettled : ∀ {st₁ d₁}, Settles py py.fileLimit { o with lockHeld := true }
      { d with locked := true } (.ok st₁) d₁ →
      (EvidenceSigner.repairStateFromLog py).Safe (reliable py.fileLimit) (fun _ => True)
        (fun res _ d' => RepairsSettled py { o with lockHeld := true } { d with locked := true }
          st₁ d₁ res d') o d := fun h =>
    safe_repairStateFromLog ho hd
      (by
        rintro res d' ⟨d₂, hlog, hkept, hrepairs⟩
        exact ⟨d₂, hlog, hkept, hrepairs.disk rfl⟩)
      (safe_recover_settled rfl h)
  have hunsettled := fun h => safe_repairStateFromLog ho hd
    (fun res d' (hrepairs : Repairs py { o with lockHeld := true } { d with locked := true } st
      res d') => hrepairs.disk rfl) (safe_recover_unsettled rfl h hs')
  constructor
  · intro H
    obtain ⟨⟨res, o'⟩, d', he⟩ := Prog.exists_ends (reliable_responsive py.fileLimit)
      (EvidenceSigner.repairStateFromLog py o) d
    have hforward := H res o' d' he
    constructor
    · intro st₁ d₁ h
      obtain ⟨st₂, hst, hle⟩ := h.state hs'
      obtain rfl := Except.ok.inj hst
      obtain ⟨d₂, hlog, hkept, hrepairs⟩ := (hsettled h).ends he
      obtain ⟨hbehind, hfile⟩ := (hrepairs.forward_iff hle).mp hforward
      refine ⟨hbehind.log hlog.symm, fun hlt => ?_⟩
      cases hrepairs with
      | @record r _ _ _ hlast => exact ⟨r, (lastLogged_congr hlog).symm.trans hlast⟩
      | fresh _ hz =>
          have hpos := (hash_of_loadState hfresh hs).1
          omega
      | refused _ _ =>
          exact absurd hlt ((hkept.file_iff hfresh' hs' (h.legible hfresh')).mp (hfile _ rfl))
    · exact fun h => (((hunsettled h).ends he).forward_iff le_rfl |>.mp hforward).1
  · rintro ⟨hif, helse⟩ res o' d' he
    by_cases h : ∃ r d₁, Settles py py.fileLimit { o with lockHeld := true }
        { d with locked := true } r d₁
    · obtain ⟨r, d₁, h⟩ := h
      obtain ⟨st₁, rfl, hle⟩ := h.state hs'
      obtain ⟨d₂, hlog, hkept, hrepairs⟩ := (hsettled h).ends he
      obtain ⟨hbehind, hlast⟩ := hif st₁ d₁ h
      refine (hrepairs.forward_iff hle).mpr ⟨hbehind.log hlog, fun e he => ?_⟩
      refine (hkept.file_iff hfresh' hs' (h.legible hfresh')).mpr fun hlt => ?_
      obtain ⟨r, hr⟩ := hlast hlt
      cases hrepairs with
      | record => cases he
      | fresh => cases he
      | refused hno _ => exact hno r ((lastLogged_congr hlog).trans hr)
    · push Not at h
      exact (((hunsettled h).ends he).forward_iff le_rfl).mpr ⟨helse h, fun _ _ => rfl⟩

end Administration

/-- Both repairs move the state forward, or raise and leave it alone, exactly when the log does
not end with a record of the node behind the state. The log of the signer's repair is the one
that settling the journal leaves, and a commit that was completed needs a record in it. -/
theorem repair_never_rewinds_iff (py : Interp) (st : NodeState) :
    (∀ (o : EvidenceStore) (d : Disk), o.lockHeld = true → o.state = none →
      loadState py o d = .ok st →
      (NeverRewinds py (repairFromLog py) o d st ↔ LogNotBehind py o.nodeId d st)) ∧
    ∀ (s : EvidenceSigner) (d : Disk), d.locked = false → loadState py s.store d = .ok st →
      (NeverRewinds py (EvidenceSigner.repairStateFromLog py) s.store d st ↔
        SettlesForward py { s.store with lockHeld := true } { d with locked := true } st) :=
  ⟨fun _ _ hl _ hs => repairFromLog_iff hl hs, fun _ _ hd hs => repairStateFromLog_iff rfl rfl hd hs⟩

/-- A signer whose backend signs everything with one byte. -/
def sampleSigner : EvidenceSigner :=
  ⟨lit "n", lit "k", lit "ML-DSA-65", lit "SHA3-256", fun _ => .ok [1]⟩

/-- Taking the lock does not change what reading the state gives. -/
theorem loadState_locking (py : Interp) (o : EvidenceStore) (d : Disk) :
    loadState py { o with lockHeld := true } d = loadState py o d := rfl

/-- A journal whose record is in the log leaves the log as it is. -/
theorem Settles.log_of_written {py : Interp} {limit : Nat} {o : EvidenceStore} {d d₁ : Disk}
    {r : Except Exn NodeState} {b x : Bytes} {offset : Int} {line : Str}
    (h : Settles py limit o d r d₁) (hb : d.journal = some b)
    (hplace : entryPlace (readJournal py o.nodeId b) = some (offset, line))
    (hx : encoded line = .ok x) (hwritten : Written d offset x) : d₁.log = d.log := by
  cases h with
  | absent | discarded | completed | alreadyCommitted => rfl
  | @undone b' line' e hb' hj hx' hin =>
      obtain rfl := Option.some.inj (hb.symm.trans hb')
      obtain ⟨e', hj', hoffset, hline⟩ := eq_entry hplace
      obtain rfl := Journal.entry.inj (Except.ok.inj (hj.symm.trans hj'))
      rw [hline, hx] at hx'
      obtain rfl := Except.ok.inj hx'
      rw [hoffset] at hin
      exact absurd hwritten hin

/-- A disk after a crash between the second append and its commit: the state stands at 1, the
journal at 2, and the log holds the second record. -/
def interruptedDisk : Disk :=
  ⟨some (sampleStateFile 1),
    some (sampleJournal firstLines 2 (recordLine "n" "2" (sampleHash 'a')) (sampleHash 'a')),
    some (Utf8.encodeAll sampleLines), false⟩

theorem interruptedDisk_last :
    lastLogged .reference (lit "n") interruptedDisk = .ok (some ⟨2, sampleHash 'a'⟩) := by
  decide +kernel

theorem interruptedDisk_state : ∃ st, loadState .reference sampleSigner.store interruptedDisk =
    .ok st ∧ st.lastSequence = 1 := by
  have h : (loadState .reference sampleSigner.store interruptedDisk).toOption.map
      NodeState.lastSequence = some 1 := by
    decide +kernel
  exact eq_ok_of_toOption h

theorem Written.log {d d' : Disk} {offset : Int} {line : Bytes} (h : Written d offset line)
    (hlog : d'.log = d.log) : Written d' offset line := by
  have hbytes : d'.logBytes = d.logBytes := by rw [Disk.logBytes, Disk.logBytes, hlog]
  have hread : d'.readAt offset line.length = d.readAt offset line.length := by
    unfold readAt
    rw [hlog]
  exact ⟨hbytes ▸ h.1, hread ▸ h.2⟩

/-- However the journal of the sample disk is settled, the log is as it was. -/
theorem interruptedDisk_log {st₁ : NodeState} {d₁ : Disk} {limit : Nat}
    (h : Settles .reference limit { sampleSigner.store with lockHeld := true }
      { interruptedDisk with locked := true } (.ok st₁) d₁) : d₁.log = interruptedDisk.log := by
  have hplace : entryPlace (readJournal .reference (lit "n")
      (sampleJournal firstLines 2 (recordLine "n" "2" (sampleHash 'a')) (sampleHash 'a'))) =
        some ((firstLines.length : Int), recordLine "n" "2" (sampleHash 'a') ++ [lf]) := by
    decide +kernel
  have hencoded : encoded (recordLine "n" "2" (sampleHash 'a') ++ [lf]) =
      .ok (Utf8.encodeAll (recordLine "n" "2" (sampleHash 'a') ++ [lf])) := by
    decide +kernel
  have hwritten : Written interruptedDisk firstLines.length
      (Utf8.encodeAll (recordLine "n" "2" (sampleHash 'a') ++ [lf])) := by
    decide +kernel
  exact (h.log_of_written rfl hplace hencoded (hwritten.log rfl)).trans rfl

/-- After a crash between an append and its commit both repairs move forward. -/
theorem repair_never_rewinds_interrupted : ∃ st,
    loadState .reference sampleSigner.store interruptedDisk = .ok st ∧ st.lastSequence = 1 ∧
      NeverRewinds .reference (repairFromLog .reference)
        { sampleSigner.store with lockHeld := true } interruptedDisk st ∧
      NeverRewinds .reference (EvidenceSigner.repairStateFromLog .reference) sampleSigner.store
        interruptedDisk st := by
  obtain ⟨st, hs, hseq⟩ := interruptedDisk_state
  obtain ⟨hlocal, hsigner⟩ := repair_never_rewinds_iff .reference st
  have hs' := (loadState_locking .reference sampleSigner.store interruptedDisk).trans hs
  have hbehind : LogNotBehind .reference (lit "n") interruptedDisk st := by
    intro r hr
    rw [interruptedDisk_last] at hr
    obtain rfl := Option.some.inj (Except.ok.inj hr)
    rw [hseq]
    decide
  refine ⟨st, hs, hseq, (hlocal _ _ rfl rfl hs').mpr hbehind,
    (hsigner sampleSigner _ rfl hs).mpr ⟨?_, ?_⟩⟩
  · intro st₁ d₁ h
    have hlog := interruptedDisk_log h
    exact ⟨hbehind.log hlog, fun _ => ⟨_, (lastLogged_congr hlog).trans interruptedDisk_last⟩⟩
  · exact fun _ => hbehind.log rfl

/-- A log that has lost its last record: the state stands at 2, the log ends at 1. -/
def lossyDisk : Disk :=
  ⟨some (sampleStateFile 2), none,
    some (Utf8.encodeAll (recordLine "n" "1" (lit "ab") ++ [lf])), false⟩

theorem lossyDisk_state : ∃ st, loadState .reference sampleSigner.store lossyDisk = .ok st ∧
    st.lastSequence = 2 := by
  have h : (loadState .reference sampleSigner.store lossyDisk).toOption.map
      NodeState.lastSequence = some 2 := by
    decide +kernel
  exact eq_ok_of_toOption h

theorem lossyDisk_last :
    lastLogged .reference (lit "n") lossyDisk = .ok (some ⟨1, lit "ab"⟩) := by
  decide +kernel

/-- Both repairs take the state back from 2 to 1. -/
theorem repair_rewinds_lossy_log : ∃ st,
    loadState .reference sampleSigner.store lossyDisk = .ok st ∧ st.lastSequence = 2 ∧
      ¬ NeverRewinds .reference (repairFromLog .reference)
        { sampleSigner.store with lockHeld := true } lossyDisk st ∧
      ¬ NeverRewinds .reference (EvidenceSigner.repairStateFromLog .reference) sampleSigner.store
        lossyDisk st := by
  obtain ⟨st, hs, hseq⟩ := lossyDisk_state
  have hlt : (⟨1, lit "ab"⟩ : Logged).sequence < st.lastSequence := by rw [hseq]; decide
  refine ⟨st, hs, hseq, fun H => ?_, ?_⟩
  · have hs' := (loadState_locking .reference sampleSigner.store lossyDisk).trans hs
    have hle := (repairFromLog_iff rfl hs').mp H
    exact absurd (hle _ lossyDisk_last) (not_le.mpr hlt)
  · intro H
    have hsettled : Settles .reference Interp.reference.fileLimit
        { sampleSigner.store with lockHeld := true } { lossyDisk with locked := true } (.ok st)
        { lossyDisk with locked := true } := hs ▸ .absent rfl
    have hbehind := (((repairStateFromLog_iff rfl rfl rfl hs).mp H).settled _ _ hsettled).1
    exact absurd (hbehind _ lossyDisk_last) (not_le.mpr hlt)

end EvidenceStore

end IcsDeception
