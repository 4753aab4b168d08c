import IcsDeception.LockDiscipline

/-!
# State and log after an open

The check that an open makes between the state and the log: the complete records of a
node in a log, what the scan of the log finds of them, and exactly when a successful
open leaves a state that stands at the last of them.
-/

namespace IcsDeception

open Text Json Calendar Method NodeState

namespace EvidenceStore

open Disk

section Records

variable {py : Interp} {nodeId : Str}

/-- The complete record of a node in a line, if the line is one. -/
def recordIn (py : Interp) (nodeId line : Str) : Option Logged :=
  match loads py.jsonLimit (strip line) with
  | .ok v => loggedOf nodeId v
  | .error _ => none

/-- The complete records of a node in the bytes of a log, in order. -/
def recordsOf (py : Interp) (nodeId : Str) (b : Bytes) : List Logged :=
  (logLines b).filterMap (recordIn py nodeId)

/-- The complete records of a node on a disk. -/
def records (py : Interp) (nodeId : Str) (d : Disk) : List Logged :=
  recordsOf py nodeId d.logBytes

theorem loads_nil (limit : Nat) : loads limit [] = .error .decode := rfl

theorem recordIn_of_blank {line : Str} (h : strip line = []) : recordIn py nodeId line = none := by
  rw [recordIn, h, loads_nil]

theorem scanLine_eq_ok {last last' : Option Logged} {line : Str}
    (h : scanLine py nodeId last line = .ok last') : last' = (recordIn py nodeId line).or last := by
  unfold scanLine at h
  split_ifs at h with hb
  · cases h
    rw [recordIn_of_blank hb]
    rfl
  · unfold recordIn
    cases hl : loads py.jsonLimit (strip line) with
    | ok v =>
        rw [hl] at h
        cases h
        rfl
    | error e =>
        rw [hl] at h
        cases e <;> cases h <;> rfl

theorem foldlM_scanLine {lines : List Str} {last last' : Option Logged}
    (h : lines.foldlM (scanLine py nodeId) last = .ok last') :
    last' = ((lines.filterMap (recordIn py nodeId)).getLast?).or last := by
  induction lines generalizing last with
  | nil =>
      simp only [List.foldlM_nil, pure, Except.pure, Except.ok.injEq] at h
      simp [h]
  | cons line rest ih =>
      rw [List.foldlM_cons] at h
      obtain ⟨m, hm, h⟩ := bind_eq_ok.mp h
      rw [ih h, scanLine_eq_ok hm]
      cases hr : recordIn py nodeId line with
      | none => simp [hr]
      | some r =>
          simp only [hr, List.filterMap_cons, Option.some_or]
          cases hf : rest.filterMap (recordIn py nodeId) with
          | nil => simp
          | cons a l => simp [List.getLast?_cons]

/-- A scan that returns gives the last complete record. -/
theorem lastLogged_eq_ok {d : Disk} {last : Option Logged}
    (h : lastLogged py nodeId d = .ok last) : last = (records py nodeId d).getLast? := by
  unfold lastLogged at h
  cases hl : d.log with
  | none =>
      rw [hl] at h
      cases h
      simp [records, Disk.logBytes, hl, recordsOf, logLines, Utf8.decodeReplace, Utf8.decode,
        universalNewlines, newlinesFrom, splitLines]
  | some b =>
      rw [hl] at h
      have := foldlM_scanLine h
      simpa [records, recordsOf, Disk.logBytes, hl] using this

end Records

section Short

variable {py : Interp} {nodeId : Str} {r : Logged}

theorem loggedOf_short {v : Value} {r : Logged}
    (hv : ∀ kvs, v = .dict kvs → ∀ p ∈ kvs, ShortInt p.2) (h : loggedOf nodeId v = some r) :
    (Decimal.natText r.sequence.natAbs).length ≤ maxDigits := by
  unfold loggedOf at h
  split at h
  case h_2 => cases h
  rename_i kvs
  split at h
  · rename_i n i hash hn hi hh
    split_ifs at h
    cases h
    exact hv kvs rfl _ (mem_of_lookup hi) i rfl
  · have hs : ∀ m : Nat, m < 10 ^ 1 → (Decimal.natText m).length ≤ maxDigits := fun m hm =>
      (Decimal.natText_length_le (by decide) hm).trans (by decide)
    split_ifs at h
    · cases h
      exact hs 1 (by decide)
    · cases h
      exact hs 0 (by decide)
  · cases h

theorem lastLogged_short {d : Disk} {r : Logged} (h : lastLogged py nodeId d = .ok (some r)) :
    (Decimal.natText r.sequence.natAbs).length ≤ maxDigits := by
  have hm : r ∈ records py nodeId d := List.mem_of_getLast? (lastLogged_eq_ok h).symm
  obtain ⟨line, -, hr⟩ := List.mem_filterMap.mp hm
  unfold recordIn at hr
  cases hl : loads py.jsonLimit (strip line) with
  | error e =>
      rw [hl] at hr
      cases hr
  | ok v =>
      rw [hl] at hr
      exact loggedOf_short (Hooks.keeps_shortInt.loadsWith hl).2 hr

/-- A state with a text as its key can be written when its sequence is short. -/
theorem writable_of_short {st : NodeState} {keyId : Str} (hk : st.keyId = .str keyId)
    (hs : (Decimal.natText st.lastSequence.natAbs).length ≤ maxDigits) : Writable py st := by
  refine ⟨?_, ⟨_, by rw [hk]; rfl⟩, hs⟩
  have hn : st.keyId.nest = 0 := by rw [hk]; rfl
  rw [hn]
  exact le_trans (by decide) py.dumpLimit_le

end Short

section Agreement

variable {py : Interp} {o : EvidenceStore} {d : Disk}

/-- A state stands at the last complete record of its node: there is none and the state is
the zero state, or the two agree on sequence and hash. -/
def Agrees (py : Interp) (nodeId : Str) (d : Disk) (st : NodeState) : Prop :=
  (records py nodeId d = [] ∧ st.lastSequence = 0 ∧ st.lastEventHash = none) ∨
    ∃ r, (records py nodeId d).getLast? = some r ∧ st.lastSequence = r.sequence ∧
      st.lastEventHash = some r.eventHash

/-- The next record gets a larger sequence than the last complete one, and links to it. -/
def Continues (py : Interp) (o : EvidenceStore) (d : Disk) : Prop :=
  ∀ r ∈ (records py o.nodeId d).getLast?, ∀ st sequence previous o' d',
    (allocate py).Ends (reliable py.fileLimit) o d (.ok (st, sequence, previous)) o' d' →
      r.sequence < sequence ∧ previous = r.eventHash

/-- Whenever the open succeeds, the state agrees with the log and the chain continues. -/
def OpensInAgreement (py : Interp) (o : EvidenceStore) (d : Disk) : Prop :=
  ∀ o' d', (enter py).Ends (reliable py.fileLimit) o d (.ok ()) o' d' →
    ∃ st, loadState py o' d' = .ok st ∧ Agrees py o'.nodeId d' st ∧ Continues py o' d'

/-- A state that was read has a hash exactly when its sequence is not zero. -/
theorem hash_of_fromDict {nodeId : Str} {v : Value} {st : NodeState}
    (h : fromDict nodeId v = .ok st) :
    0 ≤ st.lastSequence ∧ (st.lastSequence = 0 → st.lastEventHash = none) := by
  unfold fromDict at h
  split at h
  case h_2 => cases h
  obtain ⟨⟨⟩, -, h⟩ := bind_eq_ok.mp h
  obtain ⟨_, -, h⟩ := bind_eq_ok.mp h
  obtain ⟨⟨⟩, -, h⟩ := bind_eq_ok.mp h
  obtain ⟨_, -, h⟩ := bind_eq_ok.mp h
  obtain ⟨i, hi, h⟩ := bind_eq_ok.mp h
  obtain ⟨hash, -, h⟩ := bind_eq_ok.mp h
  obtain ⟨⟨⟩, -, h⟩ := bind_eq_ok.mp h
  obtain ⟨⟨⟩, hz, h⟩ := bind_eq_ok.mp h
  obtain ⟨_, -, h⟩ := bind_eq_ok.mp h
  obtain ⟨⟨⟩, -, h⟩ := bind_eq_ok.mp h
  simp only [pure, Except.pure, Except.ok.injEq] at h
  subst h
  constructor
  · unfold position at hi
    split at hi
    · split_ifs at hi with hneg
      cases hi
      exact not_lt.mp hneg
    · cases hi
  · intro h₀
    have hz : i = 0 → hash = none := by simpa [ensure] using hz
    exact hz h₀

theorem hash_of_ofFile {nodeId : Str} {b : Bytes} {st : NodeState}
    (h : ofFile py nodeId b = .ok st) :
    0 ≤ st.lastSequence ∧ (st.lastSequence = 0 → st.lastEventHash = none) := by
  obtain ⟨rd, -, h⟩ := bind_eq_ok.mp h
  cases rd with
  | unreadable => cases h
  | value v => exact hash_of_fromDict h

theorem hash_of_loadState {st : NodeState} (ho : o.state = none) (h : loadState py o d = .ok st) :
    0 ≤ st.lastSequence ∧ (st.lastSequence = 0 → st.lastEventHash = none) := by
  unfold loadState at h
  rw [ho] at h
  cases hd : d.state with
  | none =>
      rw [hd] at h
      cases h
      exact ⟨le_rfl, fun _ => rfl⟩
  | some b =>
      rw [hd] at h
      exact hash_of_ofFile h

theorem safe_allocate {limit : Nat} {w : World Fs Disk} (hw : Mild limit w) {C : Disk → Prop}
    {Q : Except Exn (NodeState × Int × Str) → EvidenceStore → Disk → Prop}
    (hl : o.lockHeld = true) {st : NodeState} (hs : loadState py o d = .ok st) :
    (allocate py).Safe w C Q o d ↔ C d ∧
      Q ((EventChain.expectedPreviousHash py o.nodeId (st.lastSequence + 1) st.lastEventHash).map
        fun previous => (st, st.lastSequence + 1, previous)) (o.knowing (.ok st)) d := by
  simp only [allocate, safe_bind, safe_self, Then, safe_requireLock hl, safe_readState hw hl, hs,
    safe_ofExcept]
  cases EventChain.expectedPreviousHash py o.nodeId (st.lastSequence + 1) st.lastEventHash with
  | ok previous => simp [Except.map]
  | error e => simp [Except.map]

/-- A state that agrees with the log makes the chain continue. -/
theorem continues_of_agrees (hl : o.lockHeld = true) {st : NodeState}
    (hs : loadState py o d = .ok st) (h₀ : st.lastSequence = 0 → st.lastEventHash = none)
    (h : Agrees py o.nodeId d st) : Continues py o d := by
  intro r hr st' sequence previous o' d' he
  rcases h with ⟨hnil, -, -⟩ | ⟨r', hr', hseq, hhash⟩
  · rw [hnil] at hr
    cases hr
  · obtain rfl : r = r' := Option.some.inj (hr.symm.trans hr')
    have hne : st.lastSequence ≠ 0 := fun hz => by
      rw [h₀ hz] at hhash
      cases hhash
    have hprev : EventChain.expectedPreviousHash py o.nodeId (st.lastSequence + 1)
        st.lastEventHash = .ok r.eventHash := by
      unfold EventChain.expectedPreviousHash
      rw [if_neg (by simpa [EventChain.firstSequence] using hne), hhash]
    have hsafe : (allocate py).Safe (reliable py.fileLimit) (fun _ => True)
        (fun res _ _ => res = .ok (st, st.lastSequence + 1, r.eventHash)) o d := by
      rw [safe_allocate (mild_reliable _) hl hs, hprev]
      exact ⟨trivial, rfl⟩
    have heq := hsafe.ends he
    simp only [Except.ok.injEq, Prod.mk.injEq] at heq
    obtain ⟨-, rfl, rfl⟩ := heq
    exact ⟨by omega, rfl⟩

theorem records_congr {nodeId : Str} {d' : Disk} (h : d'.log = d.log) :
    records py nodeId d' = records py nodeId d := by
  simp only [records, Disk.logBytes, h]

theorem agrees_congr {nodeId : Str} {d' : Disk} {st : NodeState} (h : d'.log = d.log) :
    Agrees py nodeId d' st ↔ Agrees py nodeId d st := by
  simp only [Agrees, records_congr h]

theorem agrees_of_last {nodeId : Str} {st : NodeState} {r : Logged}
    (hr : lastLogged py nodeId d = .ok (some r)) (hseq : st.lastSequence = r.sequence)
    (hhash : st.lastEventHash = some r.eventHash) : Agrees py nodeId d st :=
  Or.inr ⟨r, (lastLogged_eq_ok hr).symm, hseq, hhash⟩

/-- Without a journal an open is the check of the state against the log. -/
theorem safe_enter_journalless {limit : Nat} {w : World Fs Disk} (hw : Mild limit w)
    {C : Disk → Prop} {Q : Except Exn Unit → EvidenceStore → Disk → Prop}
    (ho : o.lockHeld = false) (hd : d.locked = false) (hj : d.journal = none) :
    (enter py).Safe w C Q o d ↔ C d ∧ C { d with locked := true } ∧
      (checkStateAgainstLog py .start).Safe w C
        (fun r o' d' => Q (r.map fun _ => ()) (o'.noting r) d') { o with lockHeld := true }
        { d with locked := true } := by
  rw [safe_enter hw ho, hd]
  simp only [Bool.false_eq_true, if_false]
  rw [safe_recover_journalless (d := { d with locked := true }) hw rfl hj]

/-- When the zero state meets no record and a state meets no record of its own sequence with
another hash, an open that succeeds leaves agreement. -/
theorem opensInAgreement_of (ho : o.lockHeld = false) (hd : d.locked = false)
    (hj : d.journal = none) {st : NodeState} (hs : loadState py o d = .ok st)
    (hst : 0 ≤ st.lastSequence ∧ (st.lastSequence = 0 → st.lastEventHash = none))
    (hzero : st.lastSequence = 0 → records py o.nodeId d = [])
    (hsame : ∀ r, lastLogged py o.nodeId d = .ok (some r) → st.lastSequence = r.sequence →
      st.lastEventHash = some r.eventHash) : OpensInAgreement py o d := by
  suffices hsafe : (enter py).Safe (reliable py.fileLimit) (fun _ => True)
      (fun r o' d' => r = .ok () →
        ∃ st, loadState py o' d' = .ok st ∧ Agrees py o'.nodeId d' st ∧ Continues py o' d') o d by
    exact fun o' d' he => hsafe.ends he rfl
  have hw := mild_reliable py.fileLimit
  have hs' : loadState py { o with lockHeld := true } { d with locked := true } = .ok st := hs
  rw [safe_enter_journalless hw ho hd hj]
  refine ⟨trivial, trivial, ?_⟩
  -- what is left to show of a state that the open ends with
  have hdone : ∀ (report : RecoveryReport) (st' : NodeState) (d' : Disk),
      (st'.lastSequence = 0 → st'.lastEventHash = none) → Agrees py o.nodeId d' st' →
      (((Except.ok report : Except Exn RecoveryReport).map fun _ => ()) = .ok () →
        ∃ st'', loadState py
            (noting { o with lockHeld := true, state := some st' } (.ok report)) d' = .ok st'' ∧
          Agrees py o.nodeId d' st'' ∧
            Continues py (noting { o with lockHeld := true, state := some st' } (.ok report)) d') :=
    fun report st' d' h₀ ha _ => ⟨st', rfl, ha, continues_of_agrees rfl rfl h₀ ha⟩
  by_cases hz : st.lastSequence = 0
  · rw [safe_check_zero hw rfl hs' hz]
    exact ⟨trivial, hdone _ st _ hst.2 (Or.inl ⟨hzero hz, hz, hst.2 hz⟩)⟩
  · by_cases hc : Covered py o.nodeId d st
    · rcases hc with hc | ⟨r, hr, hle⟩
      · exact absurd hc hz
      rcases hle.lt_or_eq with hlt | heq
      · rw [safe_check_adopt hw (fun b => steady_reliable _ _) rfl hs' hz hr hlt]
        refine ⟨trivial, fun time => ?_⟩
        cases fileBytes py _ time with
        | error e => exact fun h => by cases h
        | ok b =>
            have hpos : r.sequence ≠ 0 := by omega
            exact ⟨trivial, hdone _ _ _ (fun h => absurd h hpos)
              ((agrees_congr rfl).mpr (agrees_of_last hr rfl rfl))⟩
      · rw [safe_check_equal hw rfl hs' hz hr heq]
        exact ⟨trivial, hdone _ st _ hst.2 (agrees_of_last hr heq (hsame r hr heq))⟩
    · exact safe_check_uncovered hw rfl hs' hc trivial fun e h => by cases h

/-- An open that succeeds without a write leaves the state it has read. -/
theorem not_opensInAgreement {st : NodeState}
    (hsafe : (enter py).Safe (reliable py.fileLimit) (fun _ => True)
      (fun r o' d' => r = .ok () ∧ o'.nodeId = o.nodeId ∧ d'.log = d.log ∧
        loadState py o' d' = .ok st) o d)
    (hn : ¬ Agrees py o.nodeId d st) : ¬ OpensInAgreement py o d := by
  intro H
  obtain ⟨⟨r, o'⟩, d', he⟩ := Prog.exists_ends (reliable_responsive py.fileLimit) (enter py o) d
  obtain ⟨rfl, hid, hlog, hload⟩ := hsafe.ends he
  obtain ⟨st', hs', ha, -⟩ := H o' d' he
  obtain rfl : st = st' := Except.ok.inj (hload.symm.trans hs')
  rw [hid, agrees_congr hlog] at ha
  exact hn ha

theorem not_opensInAgreement_of_zero (ho : o.lockHeld = false) (hd : d.locked = false)
    (hj : d.journal = none) {st : NodeState} (hs : loadState py o d = .ok st)
    (hz : st.lastSequence = 0) (hh : st.lastEventHash = none)
    (hr : records py o.nodeId d ≠ []) : ¬ OpensInAgreement py o d := by
  refine @not_opensInAgreement _ _ _ st ?_ ?_
  · have hs' : loadState py { o with lockHeld := true } { d with locked := true } = .ok st := hs
    rw [safe_enter_journalless (mild_reliable _) ho hd hj,
      safe_check_zero (mild_reliable _) rfl hs' hz]
    exact ⟨trivial, trivial, trivial, rfl, rfl, rfl, rfl⟩
  · rintro (⟨h, -, -⟩ | ⟨r, -, -, h⟩)
    · exact hr h
    · rw [hh] at h
      cases h

theorem not_opensInAgreement_of_hash (ho : o.lockHeld = false) (hd : d.locked = false)
    (hj : d.journal = none) {st : NodeState} (hs : loadState py o d = .ok st)
    (hz : st.lastSequence ≠ 0) {r : Logged} (hr : lastLogged py o.nodeId d = .ok (some r))
    (heq : st.lastSequence = r.sequence) (hh : st.lastEventHash ≠ some r.eventHash) :
    ¬ OpensInAgreement py o d := by
  refine @not_opensInAgreement _ _ _ st ?_ ?_
  · have hs' : loadState py { o with lockHeld := true } { d with locked := true } = .ok st := hs
    rw [safe_enter_journalless (mild_reliable _) ho hd hj,
      safe_check_equal (mild_reliable _) rfl hs' hz hr heq]
    exact ⟨trivial, trivial, trivial, rfl, rfl, rfl, rfl⟩
  · have hlast := lastLogged_eq_ok hr
    rintro (⟨h, -, -⟩ | ⟨r', h, -, h'⟩)
    · rw [h] at hlast
      cases hlast
    · obtain rfl : r = r' := Option.some.inj (hlast.trans h)
      exact hh h'

end Agreement

/-- Without a journal, an open that succeeds leaves state and log in agreement exactly when
the log has no complete record of a node whose state is at zero, and the last complete
record does not carry the sequence of the state with another hash. -/
theorem open_agrees_iff (py : Interp) (nodeId keyId : Str) (state log : Option Bytes)
    (st : NodeState)
    (hs : loadState py (create nodeId keyId) ⟨state, none, log, false⟩ = .ok st) :
    OpensInAgreement py (create nodeId keyId) ⟨state, none, log, false⟩ ↔
      (st.lastSequence = 0 → records py nodeId ⟨state, none, log, false⟩ = []) ∧
        ∀ r, lastLogged py nodeId ⟨state, none, log, false⟩ = .ok (some r) →
          st.lastSequence = r.sequence → st.lastEventHash = some r.eventHash := by
  have hst := hash_of_loadState rfl hs
  constructor
  · intro H
    refine ⟨fun hz => ?_, fun r hr heq => ?_⟩
    · by_contra hne
      exact not_opensInAgreement_of_zero rfl rfl rfl hs hz (hst.2 hz) hne H
    · by_contra hne
      by_cases hz : st.lastSequence = 0
      · refine not_opensInAgreement_of_zero rfl rfl rfl hs hz (hst.2 hz) (fun h => ?_) H
        have hlast := lastLogged_eq_ok hr
        rw [show records py nodeId ⟨state, none, log, false⟩ = [] from h] at hlast
        cases hlast
      · exact not_opensInAgreement_of_hash rfl rfl rfl hs hz hr heq hne H
  · rintro ⟨hzero, hsame⟩
    exact opensInAgreement_of rfl rfl rfl hs hst hzero hsame

/-- A state at the last record of the log, and one that is behind it and adopts it. -/
theorem open_agrees_two :
    OpensInAgreement .reference (create (lit "n") (lit "k"))
        ⟨some (sampleStateFile 2), none, some sampleLog, false⟩ ∧
      OpensInAgreement .reference (create (lit "n") (lit "k"))
        ⟨some (sampleStateFile 1), none, some sampleLog, false⟩ := by
  obtain ⟨st₂, hfile₂, hseq₂, hhash₂⟩ := ofFile_second
  obtain ⟨st₁, hfile₁, hseq₁, -⟩ := ofFile_first
  have hs₂ : loadState .reference (create (lit "n") (lit "k"))
      ⟨some (sampleStateFile 2), none, some sampleLog, false⟩ = .ok st₂ :=
    (loadState_file _ _ rfl).trans hfile₂
  have hs₁ : loadState .reference (create (lit "n") (lit "k"))
      ⟨some (sampleStateFile 1), none, some sampleLog, false⟩ = .ok st₁ :=
    (loadState_file _ _ rfl).trans hfile₁
  have hlast : ∀ state r,
      lastLogged .reference (lit "n") ⟨state, none, some sampleLog, false⟩ = .ok (some r) →
        r = ⟨2, sampleHash 'a'⟩ := by
    intro state r hr
    rw [lastLogged_file _ rfl, sampleLog_last] at hr
    exact (Option.some.inj (Except.ok.inj hr)).symm
  constructor
  · refine (open_agrees_iff .reference (lit "n") (lit "k") _ _ st₂ hs₂).mpr ⟨?_, ?_⟩
    · exact fun h => absurd (hseq₂.symm.trans h) (by decide)
    · intro r hr _
      rw [hlast _ r hr]
      exact hhash₂
  · refine (open_agrees_iff .reference (lit "n") (lit "k") _ _ st₁ hs₁).mpr ⟨?_, ?_⟩
    · exact fun h => absurd (hseq₁.symm.trans h) (by decide)
    · intro r hr heq
      rw [hlast _ r hr, hseq₁] at heq
      exact absurd heq (by decide)

/-- The bytes of a log whose last record is another one than that of the state. -/
def otherLog : Bytes := Utf8.encodeAll (recordLine "n" "2" (sampleHash 'b') ++ [lf])

theorem otherLog_last :
    scanLog .reference (lit "n") otherLog = .ok (some ⟨2, sampleHash 'b'⟩) := by
  decide +kernel

/-- An open succeeds on a log that ends with the sequence of the state and another hash, and the
next record does not link to the last one; and it succeeds on a log with a record and no state
file, and the sequence is reused. -/
theorem open_disagrees :
    ¬ OpensInAgreement .reference (create (lit "n") (lit "k"))
        ⟨some (sampleStateFile 2), none, some otherLog, false⟩ ∧
      ¬ OpensInAgreement .reference (create (lit "n") (lit "k"))
        ⟨none, none, some otherLog, false⟩ := by
  have hlast : ∀ state, lastLogged .reference (lit "n") ⟨state, none, some otherLog, false⟩ =
      .ok (some ⟨2, sampleHash 'b'⟩) := fun _ => (lastLogged_file _ rfl).trans otherLog_last
  constructor
  · obtain ⟨st, hfile, hseq, hhash⟩ := ofFile_second
    have hs : loadState .reference (create (lit "n") (lit "k"))
        ⟨some (sampleStateFile 2), none, some otherLog, false⟩ = .ok st :=
      (loadState_file _ _ rfl).trans hfile
    refine not_opensInAgreement_of_hash rfl rfl rfl hs ?_ (hlast _) hseq ?_
    · exact fun h => absurd (hseq.symm.trans h) (by decide)
    · rw [hhash]
      decide
  · have hload : loadState .reference (create (lit "n") (lit "k"))
        ⟨none, none, some otherLog, false⟩ = .ok (zero (lit "n") (lit "k")) := rfl
    refine not_opensInAgreement_of_zero rfl rfl rfl hload rfl rfl fun h => ?_
    have hnone := lastLogged_eq_ok (hlast none)
    rw [show records .reference (lit "n") ⟨none, none, some otherLog, false⟩ = [] from h] at hnone
    cases hnone

end EvidenceStore

end IcsDeception
