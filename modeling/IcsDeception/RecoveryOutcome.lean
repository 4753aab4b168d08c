import IcsDeception.StateAgreement
import IcsDeception.StateFile

/-!
# What recovery leaves and what it reports

A recovery that returns leaves a disk at rest: no journal, and a state file whose sequence,
if it can be read at all, is zero or the one that the log ends with. Recovery on a disk at
rest changes nothing. The report tells of a journal, and of nothing else: when the state
adopts the end of the log, the report keeps the action that stood there before.

## Implementation notes

The state that a store has in memory need not come back from the file that it has written:
a journal may hold any value for the key and any text for the hash, and the reader refuses
most of them. `Mirrors` therefore speaks of the sequence only, and only of readers that
accept the file.
-/

namespace IcsDeception

open Text Json Calendar Method NodeState

namespace EvidenceStore

open Disk

variable {py : Interp} {limit : Nat} {w : World Fs Disk} {o : EvidenceStore} {d : Disk}

/-- A fresh store object that holds the lock. -/
def holding (nodeId keyId : Str) : EvidenceStore := { create nodeId keyId with lockHeld := true }

section Mirroring

/-- The state in memory can be written and read, and a fresh store that reads the disk finds
its sequence. -/
def Mirrors (py : Interp) (o : EvidenceStore) (d : Disk) : Prop :=
  ∀ st, loadState py o d = .ok st → Legible st.keyId ∧
    ∀ keyId st', loadState py (create o.nodeId keyId) d = .ok st' →
      st'.lastSequence = st.lastSequence

theorem loadState_fresh {o' : EvidenceStore} {d' : Disk} (ho : o.state = none)
    (ho' : o'.state = none) (hn : o'.nodeId = o.nodeId) (hd : d'.state = d.state) :
    ∀ st st', loadState py o d = .ok st → loadState py o' d' = .ok st' →
      st'.lastSequence = st.lastSequence := by
  intro st st' h h'
  simp only [loadState, ho] at h
  simp only [loadState, ho', hn, hd] at h'
  cases hb : d.state with
  | none =>
      simp only [hb] at h h'
      obtain rfl := Except.ok.inj h
      obtain rfl := Except.ok.inj h'
      rfl
  | some b =>
      simp only [hb] at h h'
      rw [Except.ok.inj (h.symm.trans h')]

theorem fromDict_keyId {nodeId : Str} {v : Value} {st : NodeState}
    (h : fromDict nodeId v = .ok st) : ∃ k, st.keyId = .str k := by
  cases v with
  | dict data =>
      rw [fromDict] at h
      obtain ⟨-, -, h⟩ := bind_eq_ok.mp h
      obtain ⟨node, -, h⟩ := bind_eq_ok.mp h
      obtain ⟨-, -, h⟩ := bind_eq_ok.mp h
      obtain ⟨key, -, h⟩ := bind_eq_ok.mp h
      obtain ⟨seq, -, h⟩ := bind_eq_ok.mp h
      obtain ⟨hash, -, h⟩ := bind_eq_ok.mp h
      obtain ⟨-, -, h⟩ := bind_eq_ok.mp h
      obtain ⟨-, -, h⟩ := bind_eq_ok.mp h
      obtain ⟨version, -, h⟩ := bind_eq_ok.mp h
      obtain ⟨-, -, h⟩ := bind_eq_ok.mp h
      obtain rfl := Except.ok.inj h
      exact ⟨key, rfl⟩
  | _ => cases h

/-- A state that was read from disk has a text for its key. -/
theorem loadState_keyId (ho : o.state = none) {st : NodeState} (h : loadState py o d = .ok st) :
    ∃ k, st.keyId = .str k := by
  simp only [loadState, ho] at h
  cases hb : d.state with
  | none =>
      simp only [hb] at h
      obtain rfl := Except.ok.inj h
      exact ⟨o.keyId, rfl⟩
  | some b =>
      simp only [hb] at h
      obtain ⟨reading, -, h⟩ := bind_eq_ok.mp h
      cases reading with
      | unreadable => cases h
      | value v => exact fromDict_keyId h

theorem mirrors_fresh (ho : o.state = none) : Mirrors py o d := by
  intro st h
  obtain ⟨k, hk⟩ := loadState_keyId ho h
  refine ⟨hk ▸ trivial, fun keyId st' h' => ?_⟩
  exact @loadState_fresh py o d (create o.nodeId keyId) d ho rfl rfl rfl st st' h h'

theorem Mirrors.disk {d' : Disk} (hm : Mirrors py o d) (hd : d'.state = d.state) :
    Mirrors py o d' := by
  intro st h
  have hsame : ∀ o', loadState py o' d' = loadState py o' d := by
    intro o'
    simp only [loadState, hd]
  rw [hsame] at h
  refine ⟨(hm st h).1, fun keyId st' h' => ?_⟩
  rw [hsame] at h'
  exact (hm st h).2 keyId st' h'

theorem Mirrors.knowing {st : NodeState} (hm : Mirrors py o d) (hs : loadState py o d = .ok st) :
    Mirrors py (o.knowing (.ok st)) d := by
  intro st' h
  obtain rfl : st = st' := Except.ok.inj h
  exact hm st hs

/-- What was just written is mirrored. -/
theorem mirrors_written {st : NodeState} (hk : Legible st.keyId) {time : Instant} {b : Bytes}
    (hb : fileBytes py st time = .ok b) (ho : o.state = some st) (hd : d.state = some b) :
    Mirrors py o d := by
  intro st' h
  simp only [loadState, ho] at h
  obtain rfl : st = st' := Except.ok.inj h
  refine ⟨hk, fun keyId st' h' => ?_⟩
  have hfile : ofFile py o.nodeId b = .ok st' := by
    simpa only [loadState, create, hd] using h'
  exact lastSequence_of_ofFile hk hb hfile

theorem legible_chooseKey {v : Value} (hv : Legible v) {st : NodeState} (hk : Legible st.keyId) :
    Legible (chooseKey py v o.keyId st) := by
  unfold chooseKey
  split_ifs
  · exact hv
  · exact hk
  · trivial

theorem legible_field {data : List (Key × Value)} (h : LegibleMembers data) (name : String) :
    Legible (Models.field data name) := by
  unfold Models.field
  cases hl : data.lookup (.str (lit name)) with
  | none => trivial
  | some v => exact legibleMembers_iff.mp h _ (mem_of_lookup hl)

/-- The key of a journal entry comes from a JSON text. -/
theorem legible_of_readJournal {nodeId : Str} {b : Bytes} {e : JournalEntry}
    (h : readJournal py nodeId b = .ok (.entry e)) : Legible e.keyId := by
  unfold readJournal at h
  split_ifs at h
  obtain ⟨reading, hread, h⟩ := bind_eq_ok.mp h
  cases reading with
  | unreadable => cases h
  | value v =>
      have hv : Legible v := by
        unfold readJson at hread
        split at hread
        · cases hread
        · next text _ =>
            cases hload : loads py.jsonLimit (universalNewlines text) with
            | ok u =>
                rw [hload] at hread
                obtain rfl := Reading.value.inj (Except.ok.inj hread)
                exact Hooks.keepsRead_legible.loadsWith hload
            | error e =>
                rw [hload] at hread
                cases e <;> cases hread
      cases v with
      | dict data =>
          simp only [journalOf] at h
          split_ifs at h
          · obtain ⟨sequence, -, h⟩ := bind_eq_ok.mp h
            obtain ⟨offset, -, h⟩ := bind_eq_ok.mp h
            obtain rfl := Journal.entry.inj (Except.ok.inj h)
            exact legible_field hv "key_id"
          · cases h
      | list xs =>
          simp only [journalOf] at h
          split_ifs at h
          cases h
      | _ => cases h

end Mirroring

section Replaying

variable (hw : Mild limit w) (hr : ∀ b, Steady limit w (.replaceState b))

/-- What has come of the journal when its replay returns. -/
structure Replayed (py : Interp) (o : EvidenceStore) (d : Disk) (report : RecoveryReport)
    (o' : EvidenceStore) (d' : Disk) : Prop where
  lockHeld : o'.lockHeld = o.lockHeld
  nodeId : o'.nodeId = o.nodeId
  journal : d'.journal = none
  found : report.journalFound = d.journal.isSome
  action : report.action = .none ↔ d.journal = none
  mirrors : Mirrors py o' d'
  unchanged : d.journal = none → o' = o ∧ d' = d

/-- The report on a journal that was there. -/
theorem replayed_of_found {report : RecoveryReport} {o' : EvidenceStore} {d' : Disk} {b : Bytes}
    (hb : d.journal = some b) (hf : report.journalFound = true) (ha : report.action ≠ .none)
    (hl : o'.lockHeld = o.lockHeld) (hn : o'.nodeId = o.nodeId) (hj : d'.journal = none)
    (hm : Mirrors py o' d') : Replayed py o d report o' d' where
  lockHeld := hl
  nodeId := hn
  journal := hj
  found := by rw [hf, hb]; rfl
  action := by simp [ha, hb]
  mirrors := hm
  unchanged h := by simp [hb] at h

include hw hr

theorem safe_completeCommit_replayed (hl : o.lockHeld = true) (hm : Mirrors py o d) {b : Bytes}
    (hb : d.journal = some b) {e : JournalEntry} (hk : Legible e.keyId) :
    (completeCommit py e).Safe w (fun _ => True)
      (fun r o' d' => ∀ report, r = .ok report → Replayed py o d report o' d') o d := by
  cases hs : loadState py o d with
  | error ex =>
      rw [safe_completeCommit_error hw hl hs]
      exact ⟨trivial, nofun⟩
  | ok st =>
      by_cases hlt : st.lastSequence < e.sequence
      · rw [safe_completeCommit hw hr hl hs hlt]
        refine ⟨trivial, fun time => ?_⟩
        cases hf : fileBytes py (committed py o e st) time with
        | error ex => exact nofun
        | ok file =>
            refine ⟨trivial, trivial, ?_⟩
            rintro report ⟨⟩
            refine replayed_of_found hb rfl (by simp [settledReport]) rfl rfl rfl ?_
            exact mirrors_written (legible_chooseKey hk (hm st hs).1) hf rfl rfl
      · rw [safe_completeCommit_done hw hl hs hlt]
        refine ⟨trivial, trivial, ?_⟩
        rintro report ⟨⟩
        refine replayed_of_found hb rfl (by simp [settledReport]) rfl rfl rfl ?_
        exact (hm.knowing hs).disk rfl

theorem safe_settle_replayed (hl : o.lockHeld = true) (hm : Mirrors py o d) {b : Bytes}
    (hb : d.journal = some b) {e : JournalEntry} (hk : Legible e.keyId) :
    (settle py e).Safe w (fun _ => True)
      (fun r o' d' => ∀ report, r = .ok report → Replayed py o d report o' d') o d := by
  cases hx : encoded e.line with
  | error ex =>
      rw [safe_settle_unencodable hw hx]
      exact ⟨trivial, nofun⟩
  | ok line =>
      by_cases hin : Written d e.offset line
      · rw [safe_settle_written hw hx hin]
        exact safe_completeCommit_replayed hw hr hl hm hb hk
      · by_cases hc : CanTruncate limit d e.offset
        · rw [safe_settle_unwritten hw hx hin hc, safe_undoAppend hw hc]
          refine ⟨trivial, trivial, trivial, ?_⟩
          rintro report ⟨⟩
          exact replayed_of_found hb rfl (by simp [settledReport]) rfl rfl rfl (hm.disk rfl)
        · exact safe_settle_error hw hx hin hc trivial fun _ => nofun

theorem safe_replay_replayed (hl : o.lockHeld = true) (hm : Mirrors py o d) :
    (replayIfPresent py).Safe w (fun _ => True)
      (fun r o' d' => ∀ report, r = .ok report → Replayed py o d report o' d') o d := by
  rw [safe_replayIfPresent hw]
  refine ⟨trivial, ?_⟩
  cases hb : d.journal with
  | none =>
      rintro report ⟨⟩
      refine ⟨rfl, rfl, hb, ?_, ?_, hm, fun _ => ⟨rfl, rfl⟩⟩
      · rw [hb]
        rfl
      · simp [RecoveryReport.start, hb]
  | some b =>
      dsimp only
      rw [safe_replayJournal]
      refine ⟨trivial, ?_⟩
      have hdiscard : ∀ action ≠ Action.none, (discardJournal action).Safe w (fun _ => True)
          (fun r o' d' => ∀ report, r = .ok report → Replayed py o d report o' d') o d := by
        intro action ha
        rw [safe_discardJournal hw]
        refine ⟨trivial, trivial, ?_⟩
        rintro report ⟨⟩
        exact replayed_of_found hb rfl ha rfl rfl rfl (hm.disk rfl)
      cases hj : readJournal py o.nodeId b with
      | error ex => exact nofun
      | ok j =>
          cases j with
          | unreadable => exact hdiscard _ (by decide)
          | «foreign» => exact hdiscard _ (by decide)
          | entry e => exact safe_settle_replayed hw hr hl hm hb (legible_of_readJournal hj)

end Replaying

section Checking

variable (hw : Mild limit w) (hr : ∀ b, Steady limit w (.replaceState b))
  {report : RecoveryReport} {st : NodeState}

/-- The log holds complete records beyond a state that is not at zero. -/
def Ahead (py : Interp) (o : EvidenceStore) (d : Disk) : Prop :=
  ∃ st r, loadState py o d = .ok st ∧ st.lastSequence ≠ 0 ∧
    lastLogged py o.nodeId d = .ok (some r) ∧ st.lastSequence < r.sequence

/-- A disk without a journal on which a fresh store of the node has nothing to adopt. -/
structure AtRest (py : Interp) (nodeId : Str) (d : Disk) : Prop where
  journal : d.journal = none
  ended : ∀ keyId st, loadState py (create nodeId keyId) d = .ok st →
    st.lastSequence = 0 ∨ ∃ r, lastLogged py nodeId d = .ok (some r) ∧
      st.lastSequence = r.sequence

/-- The sequence of the state is zero or stands in the last complete record. -/
def Level (py : Interp) (nodeId : Str) (d : Disk) (st : NodeState) : Prop :=
  st.lastSequence = 0 ∨
    ∃ r, lastLogged py nodeId d = .ok (some r) ∧ st.lastSequence = r.sequence

include hw

/-- Where nothing is to be adopted the check changes no file. -/
theorem safe_check_not_ahead (hl : o.lockHeld = true) (h : ¬ Ahead py o d) :
    (checkStateAgainstLog py report).Safe w (fun _ => True)
      (fun r _ d' => d' = d ∧ ∀ report', r = .ok report' → report' = report ∧
        ∃ st, loadState py o d = .ok st ∧ Level py o.nodeId d st) o d := by
  cases hs : loadState py o d with
  | error ex =>
      rw [safe_check_unreadable hw hl hs]
      exact ⟨trivial, rfl, nofun⟩
  | ok st =>
      by_cases hz : st.lastSequence = 0
      · rw [safe_check_zero hw hl hs hz]
        refine ⟨trivial, rfl, ?_⟩
        rintro report' ⟨⟩
        exact ⟨rfl, st, rfl, Or.inl hz⟩
      · by_cases hc : Covered py o.nodeId d st
        · rcases hc with hc | ⟨r, hlast, hle⟩
          · exact absurd hc hz
          have heq : st.lastSequence = r.sequence := by
            by_contra hne
            exact h ⟨st, r, hs, hz, hlast, lt_of_le_of_ne hle hne⟩
          rw [safe_check_equal hw hl hs hz hlast heq]
          refine ⟨trivial, rfl, ?_⟩
          rintro report' ⟨⟩
          exact ⟨rfl, st, rfl, Or.inr ⟨r, hlast, heq⟩⟩
        · exact safe_check_uncovered hw hl hs hc trivial fun e => ⟨rfl, nofun⟩

include hr

/-- Where there is something to adopt the check that returns has written it. -/
theorem safe_check_ahead (hl : o.lockHeld = true) (h : Ahead py o d) :
    (checkStateAgainstLog py report).Safe w (fun _ => True)
      (fun r _ d' => ∀ report', r = .ok report' → report' = report ∧
        ∃ st tail time b, loadState py o d = .ok st ∧
          lastLogged py o.nodeId d = .ok (some tail) ∧ st.lastSequence < tail.sequence ∧
          fileBytes py (adopting py o st tail) time = .ok b ∧ d' = { d with state := some b })
      o d := by
  obtain ⟨st, tail, hs, hz, hlast, hlt⟩ := h
  rw [safe_check_adopt hw hr hl hs hz hlast hlt]
  refine ⟨trivial, fun time => ?_⟩
  cases hf : fileBytes py (adopting py o st tail) time with
  | error e => exact nofun
  | ok b =>
      refine ⟨trivial, ?_⟩
      rintro report' ⟨⟩
      exact ⟨rfl, st, tail, time, b, hs, hlast, hlt, hf, rfl⟩

/-- A check that returns leaves a disk at rest. -/
theorem safe_check_atRest (hl : o.lockHeld = true) (hm : Mirrors py o d)
    (hj : d.journal = none) :
    (checkStateAgainstLog py report).Safe w (fun _ => True)
      (fun r _ d' => ∀ report', r = .ok report' → report' = report ∧ AtRest py o.nodeId d' ∧
        (¬ Ahead py o d → d' = d)) o d := by
  by_cases h : Ahead py o d
  · refine (safe_check_ahead hw hr hl h).weaken fun r o' d' _ hq report' hr' => ?_
    obtain ⟨rfl, st, tail, time, b, hs, hlast, -, hf, rfl⟩ := hq report' hr'
    refine ⟨rfl, ⟨hj, fun keyId st' h' => Or.inr ⟨tail, hlast, ?_⟩⟩, fun hn => absurd h hn⟩
    have hnull : Legible .null := trivial
    have hk : Legible (adopting py o st tail).keyId :=
      @legible_chooseKey py o .null hnull st (hm st hs).1
    exact lastSequence_of_ofFile hk hf h'
  · refine (safe_check_not_ahead hw hl h).weaken fun r o' d' _ hq report' hr' => ?_
    obtain ⟨rfl, hq⟩ := hq
    obtain ⟨rfl, st, hs, hlevel⟩ := hq report' hr'
    refine ⟨rfl, ⟨hj, fun keyId st' h' => ?_⟩, fun _ => rfl⟩
    have heq := (hm st hs).2 keyId st' h'
    rcases hlevel with hz | ⟨tail, hlast, htail⟩
    · exact Or.inl (heq.trans hz)
    · exact Or.inr ⟨tail, hlast, heq.trans htail⟩

end Checking

section Recovering

variable (hw : Mild limit w) (hr : ∀ b, Steady limit w (.replaceState b))
include hw hr

/-- A recovery that returns leaves a disk at rest, and reports exactly whether there was a
journal. -/
theorem safe_recover_atRest (hl : o.lockHeld = true) (ho : o.state = none) :
    (recover py).Safe w (fun _ => True)
      (fun r _ d' => ∀ report, r = .ok report → AtRest py o.nodeId d' ∧
        (report.action = .none ↔ d.journal = none) ∧
        (d.journal = none → ¬ Ahead py o d → d' = d)) o d := by
  rw [safe_recover hl]
  refine ⟨trivial, (safe_replay_replayed hw hr hl (mirrors_fresh ho)).weaken ?_⟩
  intro r o₁ d₁ _ hq
  cases r with
  | error e => exact nofun
  | ok report =>
      have hrep := hq report rfl
      simp only [Then]
      refine (safe_check_atRest hw hr (hrep.lockHeld.trans hl) hrep.mirrors hrep.journal).weaken ?_
      intro r' o₂ d₂ _ hq' report' hr'
      obtain ⟨rfl, hrest, hsame⟩ := hq' report' hr'
      refine ⟨hrep.nodeId ▸ hrest, hrep.action, fun hj hn => ?_⟩
      obtain ⟨rfl, rfl⟩ := hrep.unchanged hj
      exact hsame hn

omit hr in
/-- Recovery on a disk at rest changes nothing and finds no journal. -/
theorem safe_recover_of_atRest (hl : o.lockHeld = true) (ho : o.state = none)
    (h : AtRest py o.nodeId d) :
    (recover py).Safe w (fun _ => True)
      (fun r _ d' => d' = d ∧ ∀ report, r = .ok report → report.journalFound = false) o d := by
  have hn : ¬ Ahead py o d := by
    rintro ⟨st, tail, hs, hz, hlast, hlt⟩
    obtain ⟨st', hs'⟩ : ∃ st', loadState py (create o.nodeId o.keyId) d = .ok st' := by
      refine ⟨st, ?_⟩
      rw [← hs]
      simp only [loadState, ho, create]
    have heq := @loadState_fresh py o d (create o.nodeId o.keyId) d ho rfl rfl rfl st st' hs hs'
    rcases h.ended o.keyId st' hs' with h₀ | ⟨r, hr', h₀⟩
    · exact hz (heq.symm.trans h₀)
    · obtain rfl := Option.some.inj (Except.ok.inj (hlast.symm.trans hr'))
      omega
  rw [safe_recover_journalless hw hl h.journal]
  refine (safe_check_not_ahead hw hl hn).weaken fun r o' d' _ hq => ⟨hq.1, ?_⟩
  intro report hr'
  rw [(hq.2 report hr').1]
  rfl

/-- Without a journal, a log that is ahead of the state is adopted: the state file changes, and
the report says that there was nothing to do. -/
theorem safe_recover_ahead (hl : o.lockHeld = true) (ho : o.state = none) (hj : d.journal = none)
    (h : Ahead py o d) :
    (recover py).Safe w (fun _ => True)
      (fun r _ d' => r = .ok .start ∧ d'.state ≠ d.state) o d := by
  obtain ⟨st, tail, hs, hz, hlast, hlt⟩ := h
  obtain ⟨k, hk⟩ := loadState_keyId ho hs
  obtain ⟨k', hk'⟩ : ∃ k', (adopting py o st tail).keyId = .str k' := by
    simp only [adopting, chooseKey, Interp.truth, Bool.false_eq_true, if_false]
    split_ifs
    · exact ⟨k, hk⟩
    · exact ⟨o.keyId, rfl⟩
  rw [safe_recover_journalless hw hl hj, safe_check_adopt hw hr hl hs hz hlast hlt]
  refine ⟨trivial, onWrite_of_writable (writable_of_short hk' (lastLogged_short hlast)) ?_⟩
  intro time b hf
  refine ⟨trivial, rfl, fun hb => ?_⟩
  -- had the file not changed, the sequence read before would be the one written now
  have hfile : ofFile py o.nodeId b = .ok st := by
    simpa only [loadState, ho, ← hb] using hs
  have heq := lastSequence_of_ofFile (hk' ▸ trivial) hf hfile
  exact absurd heq hlt.ne

end Recovering

/-- A recovery that returns is a fixed point: on what it has left, recovery by another fresh
store of the node changes neither the log nor the state file, there is no journal, and if it
returns it has found none. -/
theorem recover_idempotent (py : Interp) (nodeId keyId keyId' : Str) (d d' d'' : Disk)
    (locked : Bool) (report : RecoveryReport) (r : Except Exn RecoveryReport)
    (o' o'' : EvidenceStore)
    (h : (recover py).Ends (reliable py.fileLimit) (holding nodeId keyId) d (.ok report) o' d')
    (h' : (recover py).Ends (reliable py.fileLimit) (holding nodeId keyId')
      { d' with locked := locked } r o'' d'') :
    d''.log = d'.log ∧ d''.state = d'.state ∧ d''.journal = none ∧
      ∀ report', r = .ok report' → report'.journalFound = false := by
  have hw := mild_reliable py.fileLimit
  have hr : ∀ b, Steady py.fileLimit (reliable py.fileLimit) (.replaceState b) :=
    fun b => steady_reliable _ _
  obtain ⟨hrest, -, -⟩ := (safe_recover_atRest hw hr rfl rfl).ends h report rfl
  have hrest' : AtRest py nodeId { d' with locked := locked } := ⟨hrest.journal, hrest.ended⟩
  obtain ⟨rfl, hfound⟩ := (safe_recover_of_atRest hw rfl rfl hrest').ends h'
  exact ⟨rfl, rfl, hrest.journal, hfound⟩

/-- The recovery of the disk that a crash in the third append has left. -/
def recovering (d : Disk) : (Except Exn RecoveryReport × EvidenceStore) × Disk :=
  (recover .reference (holding (lit "n") (lit "k"))).exec
    (handle Interp.reference.fileLimit .first) d

theorem ends_recovering (d : Disk) :
    (recover .reference).Ends (reliable Interp.reference.fileLimit) (holding (lit "n") (lit "k")) d
      (recovering d).1.1 (recovering d).1.2 (recovering d).2 :=
  Prog.ends_exec (w := reliable Interp.reference.fileLimit)
    (h := handle Interp.reference.fileLimit .first) (fun _ _ => ⟨_, rfl⟩) _ d

/-- The journal of an append that a crash has cut off is undone once: the log changes, and a
second recovery changes nothing. -/
theorem recover_idempotent_rolled_back :
    ∃ report o' d' r o'' d'',
      (recover .reference).Ends (reliable Interp.reference.fileLimit)
        (holding (lit "n") (lit "k")) { leftoverDisk with locked := true } (.ok report) o' d' ∧
      report.action = .rolledBackPartialAppend ∧ d'.logBytes = Utf8.encodeAll sampleLines ∧
      (recover .reference).Ends (reliable Interp.reference.fileLimit)
        (holding (lit "n") (lit "k")) { d' with locked := true } r o'' d'' ∧
      d''.log = d'.log ∧ d''.state = d'.state ∧ d''.journal = none ∧
      ∀ report', r = .ok report' → report'.journalFound = false := by
  have h := ends_recovering { leftoverDisk with locked := true }
  obtain ⟨haction, hlog⟩ :
      ((recovering { leftoverDisk with locked := true }).1.1.toOption.map RecoveryReport.action) =
          some .rolledBackPartialAppend ∧
        (recovering { leftoverDisk with locked := true }).2.logBytes = Utf8.encodeAll sampleLines := by
    decide +kernel
  generalize recovering { leftoverDisk with locked := true } = p at h haction hlog
  obtain ⟨⟨r₁, o'⟩, d'⟩ := p
  obtain ⟨report, rfl, hundone⟩ := eq_ok_of_toOption haction
  have h' := ends_recovering { d' with locked := true }
  exact ⟨report, o', d', _, _, _, h, hundone, hlog, h',
    recover_idempotent _ _ _ _ _ _ _ _ _ _ _ _ h h'⟩

/-- The files of the disk are not all as they were. -/
def Changed (d d' : Disk) : Prop :=
  d'.state ≠ d.state ∨ d'.log ≠ d.log ∨ d'.journal ≠ d.journal

/-- `recovery.action not in ("none", "")`: the sink counts the recovery. -/
def counted (report : RecoveryReport) : Bool :=
  !([lit "none", lit ""].contains report.action.text)

theorem counted_iff (report : RecoveryReport) : counted report = true ↔ report.action ≠ .none := by
  unfold counted
  cases report.action <;> decide

/-- A recovery that changes something is reported and counted, and one that changes nothing is
not. -/
def Visible (py : Interp) (nodeId keyId : Str) (d : Disk) : Prop :=
  ∀ report o' d',
    (recover py).Ends (reliable py.fileLimit) (holding nodeId keyId) d (.ok report) o' d' →
      (Changed d d' → counted report = true) ∧ (¬ Changed d d' → report.action = .none)

theorem not_visible_of_ahead {nodeId keyId : Str} (hj : d.journal = none)
    (ha : Ahead py (holding nodeId keyId) d) : ¬ Visible py nodeId keyId d := by
  intro H
  obtain ⟨⟨r, o'⟩, d', he⟩ := Prog.exists_ends (reliable_responsive py.fileLimit)
    (recover py (holding nodeId keyId)) d
  have hsafe := @safe_recover_ahead py _ _ (holding nodeId keyId) d (mild_reliable py.fileLimit)
    (fun b => steady_reliable _ _) rfl rfl hj ha
  obtain ⟨rfl, hne⟩ := hsafe.ends he
  have hcount := (H _ o' d' he).1 (Or.inl hne)
  exact absurd hcount (by decide)

/-- Recovery is visible exactly when there is a journal or nothing to adopt from the log. -/
theorem recover_visible_iff (py : Interp) (nodeId keyId : Str) (d : Disk) :
    Visible py nodeId keyId d ↔ d.journal ≠ none ∨ ¬ Ahead py (holding nodeId keyId) d := by
  have hw := mild_reliable py.fileLimit
  have hr : ∀ b, Steady py.fileLimit (reliable py.fileLimit) (.replaceState b) :=
    fun b => steady_reliable _ _
  constructor
  · intro H
    by_contra hn
    push Not at hn
    exact not_visible_of_ahead hn.1 hn.2 H
  · intro H report o' d' he
    obtain ⟨hrest, haction, hsame⟩ := (safe_recover_atRest hw hr rfl rfl).ends he report rfl
    rw [counted_iff]
    by_cases hj : d.journal = none
    · have hn : ¬ Ahead py (holding nodeId keyId) d := H.resolve_left fun h => h hj
      obtain rfl := hsame hj hn
      exact ⟨fun hc => by simp [Changed] at hc, fun _ => haction.mpr hj⟩
    · refine ⟨fun _ h => hj (haction.mp h), fun hc => absurd (Or.inr (Or.inr ?_)) hc⟩
      rw [hrest.journal]
      exact Ne.symm hj


/-- A state file at the first sequence. -/
def firstState : Str :=
  lit "\x7b\"node_id\":\"n\",\"key_id\":\"k\"," ++ lit "\"last_sequence\":1," ++
    lit "\"last_event_hash\":\"" ++ List.replicate 64 (cp 'a') ++
    lit "\",\"format_version\":\"1.0\"\x7d"

set_option maxRecDepth 100000 in
/-- A state at the first record and a log with a second one: the state is advanced, and the
report says that nothing was done. -/
theorem adoption_not_visible :
    ¬ Visible .reference (lit "n") (lit "k")
      ⟨some (Utf8.encodeAll firstState), none,
        some (Utf8.encodeAll (recordLine "n" "2" (lit "ab") ++ [lf])), true⟩ := by
  have hstate : ∃ st, loadState .reference (holding (lit "n") (lit "k"))
      ⟨some (Utf8.encodeAll firstState), none,
        some (Utf8.encodeAll (recordLine "n" "2" (lit "ab") ++ [lf])), true⟩ = .ok st ∧
          st.lastSequence = 1 :=
    eq_ok_of_toOption (by decide +kernel)
  obtain ⟨st, hs, hseq⟩ := hstate
  refine not_visible_of_ahead rfl ⟨st, ⟨2, lit "ab"⟩, hs, by omega, ?_, by simp [hseq]⟩
  decide +kernel

end EvidenceStore

end IcsDeception
