import IcsDeception.ChainLog

/-!
# Crash safety of the evidence store

A node whose files are changed only by sessions of its stores, each of which opens, appends
any number of times and closes, while a crash may strike at any point: in the middle of
writing the journal, in the middle of an append, between any two calls, and during a
recovery. Every open succeeds and finds whole records that link one to the next, with every
record of which an append has returned among them.

## Implementation notes

`Durable` says what may be on disk when the records are the given ones. A record counts
once its line is in the log with its journal beside it, since a recovery completes it then;
a line that is there in part is cut off again.
-/

namespace IcsDeception

open Text Json Calendar Models EnvelopeRoundTrip Method NodeState Disk

namespace EvidenceStore

/-- What may be on disk when these are the records of a node. -/
inductive Durable (py : Interp) (nodeId : Str) (rs : List Entry) (d : Disk) : Prop
  /-- Nothing is under way, or a journal that is not complete. -/
  | settled (log : d.logBytes = logOf rs) (state : Recorded py nodeId rs d.state)
      (journal : Silent py nodeId d.journal)
  /-- An append has been announced, and a part of its line may be in the log. -/
  | torn {e : Entry} {key : Str} {p : Bytes} (log : d.log = some (logOf rs ++ p))
      (front : p <+: e.line) (part : p ≠ e.line) (scalar : Scalar e.record)
      (state : Recorded py nodeId rs d.state)
      (journal : Announced py nodeId key e (logOf rs).length d.journal)
  /-- The last record is in the log, its journal is still there, and the state may be behind. -/
  | landed {before : List Entry} {e : Entry} {key : Str} (records : rs = before ++ [e])
      (sequence : e.sequence = before.length + 1) (legal : Legal py nodeId e)
      (log : d.log = some (logOf rs))
      (state : Recorded py nodeId before d.state ∨ Recorded py nodeId rs d.state)
      (journal : Announced py nodeId key e (logOf before).length d.journal)

/-- A store within a session, with the records of its node. -/
structure Opened (py : Interp) (nodeId keyId : Str) (rs : List Entry) (o : EvidenceStore)
    (d : Disk) : Prop where
  lockHeld : o.lockHeld = true
  node : o.nodeId = nodeId
  key : o.keyId = keyId
  state : ∃ st, o.state = some st ∧ StandsAt rs st
  log : d.logBytes = logOf rs
  file : Recorded py nodeId rs d.state
  journal : d.journal = none
  locked : d.locked = true

section Recovering

variable {py : Interp} {nodeId keyId key : Str} {rs : List Entry} {e : Entry} {limit : Nat}
  {w : World Fs Disk} {o : EvidenceStore} {d : Disk}

theorem Durable.lock (h : Durable py nodeId rs d) (b : Bool) :
    Durable py nodeId rs { d with locked := b } := by
  cases h with
  | settled hlog hstate hjournal => exact .settled hlog hstate hjournal
  | torn hlog hfront hpart hscalar hstate hjournal =>
      exact .torn hlog hfront hpart hscalar hstate hjournal
  | landed hrs hsequence hlegal hlog hstate hjournal =>
      exact .landed hrs hsequence hlegal hlog hstate hjournal

theorem Opened.durable (h : Opened py nodeId keyId rs o d) : Durable py nodeId rs d :=
  .settled h.log h.file (h.journal ▸ silent_none)

/-- A store and a disk when the journal has been dealt with. -/
structure CaughtUp (py : Interp) (nodeId keyId : Str) (rs : List Entry) (o : EvidenceStore)
    (d : Disk) : Prop where
  lockHeld : o.lockHeld = true
  node : o.nodeId = nodeId
  key : o.keyId = keyId
  state : ∃ st, EvidenceStore.loadState py o d = .ok st ∧ StandsAt rs st
  log : d.logBytes = logOf rs
  file : Recorded py nodeId rs d.state
  journal : d.journal = none
  locked : d.locked = true

theorem CaughtUp.durable (h : CaughtUp py nodeId keyId rs o d) : Durable py nodeId rs d :=
  .settled h.log h.file (h.journal ▸ silent_none)

/-- A line that is there in part is not there. -/
theorem not_written {p : Bytes} (hlog : d.logBytes = logOf rs ++ p) (hfront : p <+: e.line)
    (hpart : p ≠ e.line) : ¬ Written d (logOf rs).length e.line := by
  rintro ⟨hlength, -⟩
  have hshort : p.length < e.line.length := by
    refine hfront.length_le.lt_of_ne fun heq => hpart ?_
    exact hfront.eq_of_length heq
  rw [hlog, List.length_append] at hlength
  omega

/-- A line behind the records is there. -/
theorem written_line (hlog : d.log = some (logOf rs ++ e.line)) :
    Written d (logOf rs).length e.line := by
  have hbytes : d.logBytes = logOf rs ++ e.line := by rw [logBytes, hlog]; rfl
  have hsome : d.log.isSome = true := by rw [hlog]; rfl
  refine ⟨by rw [hbytes, List.length_append]; omega, ?_⟩
  rw [readAt_of_within hsome (by omega) (by rw [hbytes, List.length_append]; omega), hbytes,
    Int.toNat_natCast, List.drop_left, List.take_length]

variable (hw : Mild limit w) (hr : ∀ b, Steady limit w (.replaceState b)) (hnode : Name nodeId)
include hw hr hnode

/-- Dealing with the journal of a durable disk. Whatever a crash leaves on the way is durable. -/
theorem safe_replay_durable (hl : o.lockHeld = true) (hn : o.nodeId = nodeId)
    (hk : o.keyId = keyId) (ho : o.state = none) (hd : d.locked = true)
    (h : Durable py nodeId rs d) :
    (replayIfPresent py).Safe w (Durable py nodeId rs)
      (fun r o' d' => (∃ report, r = .ok report) ∧ CaughtUp py nodeId keyId rs o' d') o d := by
  rw [safe_replayIfPresent hw]
  refine ⟨h, ?_⟩
  cases h with
  | settled hlog hstate hjournal =>
      have hdone : ∀ journal, Silent py nodeId journal →
          Durable py nodeId rs { d with journal := journal } :=
        fun journal hj => .settled hlog hstate hj
      have hreplayed : CaughtUp py nodeId keyId rs o { d with journal := none } :=
        ⟨hl, hn, hk, hstate.loadState hn ho, hlog, hstate, rfl, hd⟩
      cases hb : d.journal with
      | none =>
          refine ⟨⟨_, rfl⟩, ?_⟩
          rw [← hb] at hreplayed
          exact hreplayed
      | some b =>
          dsimp only
          rw [safe_replayJournal, hn, hjournal b hb]
          refine ⟨.settled hlog hstate hjournal, ?_⟩
          rw [safe_discardJournal hw]
          exact ⟨.settled hlog hstate hjournal, hdone none silent_none, ⟨_, rfl⟩, hreplayed⟩
  | @torn e key p hlog hfront hpart hscalar hstate hjournal =>
      obtain ⟨hname, b, hb, hentry⟩ := hjournal
      have hbytes : d.logBytes = logOf rs ++ p := by rw [logBytes, hlog]; rfl
      have hcan : CanTruncate limit d (e.journaled (logOf rs).length key).offset := by
        refine ⟨by rw [hlog]; rfl, Int.natCast_nonneg _, .inl ?_⟩
        change ((logOf rs).length : Int) ≤ _
        rw [hbytes, List.length_append]
        omega
      have hcut : truncated d (e.journaled (logOf rs).length key).offset =
          { d with log := some (logOf rs) } := by
        rw [truncated, hbytes]
        exact congrArg (fun b => { d with log := some b }) (resize_append_left _ _)
      have hstart : Durable py nodeId rs d :=
        .torn hlog hfront hpart hscalar hstate ⟨hname, b, hb, hentry⟩
      rw [hb]
      dsimp only
      rw [safe_replayJournal, hn, hentry]
      refine ⟨hstart, ?_⟩
      dsimp only
      rw [safe_settle_unwritten hw (encoded_line hscalar) (not_written hbytes hfront hpart) hcan,
        safe_undoAppend hw hcan, hcut]
      refine ⟨hstart, ?_, .settled rfl hstate silent_none, ⟨_, rfl⟩, ?_⟩
      · -- the line has been cut off, and the journal is still there
        refine .torn (p := []) ?_ List.nil_prefix ?_ hscalar hstate ⟨hname, b, hb, hentry⟩
        · rw [List.append_nil]
        · exact (List.ne_nil_of_length_pos (line_length_pos e)).symm
      · exact ⟨hl, hn, hk, hstate.loadState hn ho, rfl, hstate, rfl, hd⟩
  | @landed before e key hrs hsequence hlegal hlog hstate hjournal =>
      obtain ⟨hname, b, hb, hentry⟩ := hjournal
      have hstart : Durable py nodeId rs d :=
        .landed hrs hsequence hlegal hlog hstate ⟨hname, b, hb, hentry⟩
      have hbytes : d.logBytes = logOf rs := by rw [logBytes, hlog]; rfl
      have hwritten : Written d (e.journaled (logOf before).length key).offset e.line := by
        apply written_line
        rw [hlog, hrs, logOf_snoc]
      rw [hb]
      dsimp only
      rw [safe_replayJournal, hn, hentry]
      refine ⟨hstart, ?_⟩
      dsimp only
      rw [safe_settle_written hw (encoded_line hlegal.scalar) hwritten]
      rcases hstate with hstate | hstate
      · -- the state is behind the record
        obtain ⟨st, hst, hat⟩ := hstate.loadState hn ho
        have hbehind : st.lastSequence < (e.journaled (logOf before).length key).sequence := by
          change st.lastSequence < e.sequence
          rw [hat.sequence, hsequence]
          omega
        have hcommitted : committed py o (e.journaled (logOf before).length key) st =
            behind nodeId key e := by
          rw [committed, hn]
          exact congrArg (fun v => (⟨nodeId, v, e.sequence, some e.eventHash⟩ : NodeState))
            (chooseKey_name hname o.keyId st)
        rw [safe_completeCommit hw hr hl hst hbehind, hcommitted]
        refine ⟨hstart, onWrite_of_writable (writable_behind hlegal) fun time b' hb' => ?_⟩
        have hrecorded : Recorded py nodeId rs (some b') := by
          rw [hrs]
          exact recorded_behind hnode hname hlegal hsequence hb'
        refine ⟨.landed hrs hsequence hlegal hlog (.inr hrecorded) ⟨hname, b, hb, hentry⟩,
          .settled hbytes hrecorded silent_none, ⟨_, rfl⟩, ?_⟩
        have hstands : StandsAt rs (behind nodeId key e) := by
          rw [hrs]
          exact standsAt_behind hsequence
        exact ⟨hl, hn, hk, ⟨_, rfl, hstands⟩, hbytes, hrecorded, rfl, hd⟩
      · obtain ⟨st, hst, hat⟩ := hstate.loadState hn ho
        have hlevel : ¬ st.lastSequence < (e.journaled (logOf before).length key).sequence := by
          change ¬ st.lastSequence < e.sequence
          rw [hat.sequence, hsequence, hrs, List.length_append, List.length_singleton]
          omega
        rw [safe_completeCommit_done hw hl hst hlevel]
        exact ⟨hstart, .settled hbytes hstate silent_none, ⟨_, rfl⟩,
          ⟨hl, hn, hk, ⟨st, rfl, hat⟩, hbytes, hstate, rfl, hd⟩⟩

omit hr hnode in
/-- The state and the log are found to agree. -/
theorem safe_check_replayed {built : Str → Entry → Prop} (hchain : Succession py nodeId built rs)
    (h : CaughtUp py nodeId keyId rs o d) (report : RecoveryReport) :
    (checkStateAgainstLog py report).Safe w (Durable py nodeId rs)
      (fun r o' d' => (∃ report, r = .ok report) ∧ Opened py nodeId keyId rs o' d') o d := by
  obtain ⟨st, hst, hat⟩ := h.state
  have hopened : Opened py nodeId keyId rs (o.knowing (.ok st)) d :=
    ⟨h.lockHeld, h.node, h.key, ⟨st, rfl, hat⟩, h.log, h.file, h.journal, h.locked⟩
  by_cases hz : st.lastSequence = 0
  · rw [safe_check_zero hw h.lockHeld hst hz]
    exact ⟨h.durable, ⟨_, rfl⟩, hopened⟩
  · -- there is a last record, and it is the one that the scan finds
    have hne : rs ≠ [] := by
      rintro rfl
      exact hz hat.sequence
    have hlast : rs.getLast? = some (rs.getLast hne) := List.getLast?_eq_some_getLast hne
    have hlogged : lastLogged py o.nodeId d = .ok (some (rs.getLast hne).logged) := by
      have hscan := scanLog_logOf hchain.legal
      rw [hlast] at hscan
      rw [lastLogged, h.node]
      cases hd : d.log with
      | none =>
          have hempty := h.log
          rw [logBytes, hd] at hempty
          rw [← hempty] at hscan
          exact absurd hscan (by simp [scanLog, logLines, Utf8.decodeReplace, Utf8.decode,
            universalNewlines, newlinesFrom, splitLines, pure, Except.pure])
      | some b =>
          have hb := h.log
          rw [logBytes, hd] at hb
          obtain rfl : b = logOf rs := hb
          exact hscan
    have hsequence : st.lastSequence = (rs.getLast hne).logged.sequence := by
      rw [hat.sequence]
      exact (hchain.sequence_getLast? hlast).symm
    rw [safe_check_equal hw h.lockHeld hst hz hlogged hsequence]
    exact ⟨h.durable, ⟨_, rfl⟩, hopened⟩

/-- Opening a store on a durable disk. -/
theorem safe_enter_durable {built : Str → Entry → Prop} (hchain : Succession py nodeId built rs)
    (hd : d.locked = false) (h : Durable py nodeId rs d) :
    (enter py).Safe w (Durable py nodeId rs)
      (fun r o' d' => r = .ok () ∧ Opened py nodeId keyId rs o' d') (create nodeId keyId) d := by
  rw [safe_enter hw rfl, hd, if_neg Bool.false_ne_true]
  refine ⟨h, h.lock true, ?_⟩
  rw [safe_recover rfl]
  refine ⟨h.lock true, ?_⟩
  refine (safe_replay_durable hw hr hnode rfl rfl rfl rfl rfl (h.lock true)).weaken
    fun r o₁ d₁ _ ht => ?_
  obtain ⟨⟨report, rfl⟩, hreplayed⟩ := ht
  rw [Then]
  refine (safe_check_replayed hw hchain hreplayed report).weaken fun r o₂ d₂ _ ht => ?_
  obtain ⟨⟨report', rfl⟩, hopened⟩ := ht
  exact ⟨rfl, hopened.lockHeld, hopened.node, hopened.key, hopened.state, hopened.log,
    hopened.file, hopened.journal, hopened.locked⟩

end Recovering

/-! ## The append transaction -/

/-- What a store is given to build records with: each record is legal at its place. -/
def Builds (py : Interp) (nodeId : Str) (built : Str → Entry → Prop) (build : Build) : Prop :=
  ∀ sequence previous record eventHash, build sequence previous = .ok (record, eventHash) →
    built previous ⟨sequence, record, eventHash⟩ ∧ Legal py nodeId ⟨sequence, record, eventHash⟩

/-- Records that a node can have, within the limit of the file system. -/
structure Linked (py : Interp) (nodeId : Str) (built : Str → Entry → Prop) (limit : Nat)
    (rs : List Entry) : Prop where
  chain : Succession py nodeId built rs
  room : (logOf rs).length ≤ limit

/-- What a crash during an append leaves: the records, or one more. -/
def Survives (py : Interp) (nodeId : Str) (built : Str → Entry → Prop) (limit : Nat)
    (rs : List Entry) (d : Disk) : Prop :=
  Durable py nodeId rs d ∨
    ∃ e, Linked py nodeId built limit (rs ++ [e]) ∧ Durable py nodeId (rs ++ [e]) d

/-- The key that an append names, or the store's own. -/
theorem name_ownKey {keyId : Str} {k : Option Str} (hkey : Name keyId)
    (hk : ∀ n ∈ k, ShortText 128 n) : Name (ownKey k keyId) := by
  cases k with
  | none => exact hkey
  | some n =>
      rw [ownKey]
      split_ifs with hn
      · exact hkey
      · exact ⟨hn, hk n rfl⟩

theorem chooseKey_ownKey {py : Interp} {keyId : Str} {k : Option Str} (hkey : Name keyId)
    (st : NodeState) : chooseKey py (optionalText k) keyId st = .str (ownKey k keyId) := by
  have hown : chooseKey py .null keyId st = .str keyId := if_neg hkey.ne_nil
  cases k with
  | none => exact hown
  | some n =>
      rw [optionalText, ownKey]
      split_ifs with hn
      · rw [hn, chooseKey, if_neg (by rw [Interp.truth]; exact Bool.false_ne_true),
          if_neg hkey.ne_nil]
      · have htruth : py.truth (.str n) = true := by
          rw [Interp.truth, List.isEmpty_eq_false_iff.mpr hn]
          rfl
        exact if_pos htruth

/-- A crash in the middle of an append leaves a part of its line. -/
theorem tear_append {limit : Nat} {b : Bytes} {d d' : Disk} (h : Tear limit (.appendLog b) d d') :
    ∃ p, p <+: b ∧ (d.logBytes ++ p).length ≤ limit ∧ d' = d.extend p := by
  cases h with
  | append d hp hl => exact ⟨_, hp, hl, rfl⟩

section Appending

variable {py : Interp} {nodeId keyId : Str} {built : Str → Entry → Prop} {rs : List Entry}
  {e : Entry} {limit : Nat} {w : World Fs Disk} {C : Disk → Prop} {o : EvidenceStore} {d : Disk}
  (hw : Mild limit w)
include hw

/-- The size of the log, with a log made where there is none. -/
theorem safe_logOffset_crash (hC : C d) (hmade : C { d with log := some d.logBytes })
    {Q : Except Exn Nat → EvidenceStore → Disk → Prop}
    (h : Q (.ok d.logBytes.length) o { d with log := some d.logBytes }) :
    logOffset.Safe w C Q o d := by
  cases hd : d.log with
  | none =>
      have hbytes : d.logBytes = [] := by rw [logBytes, hd]; rfl
      rw [hbytes] at h hmade
      simp only [logOffset, safe_bind, safe_sys_statLog hw, hd, Option.map_none, Then,
        safe_sys_createLog hw, Option.isSome_none, Bool.false_eq_true, if_false,
        Option.map_some, List.length_nil, safe_pure]
      exact ⟨hC, hC, hmade, hmade, hmade, h⟩
  | some b =>
      have hbytes : d.logBytes = b := by rw [logBytes, hd]; rfl
      have hself : { d with log := some b } = d := by rw [← hd]
      rw [hbytes, hself] at h
      simp only [logOffset, safe_bind, safe_sys_statLog hw, hd, Option.map_some, Then, safe_pure]
      exact ⟨hC, hC, hC, h⟩

/-- Writing a journal: what a crash leaves of it says nothing or announces the record. -/
theorem safe_writeJournal_crash {offset : Nat} {k : Option Str} (hnode : Name o.nodeId)
    (hkey : Name (ownKey k o.keyId)) (hlegal : Legal py o.nodeId e) (hoffset : offset < 2 ^ 63)
    (hC : C d) (hsilent : ∀ j, Silent py o.nodeId j → C { d with journal := j })
    (hannounced : ∀ j, Announced py o.nodeId (ownKey k o.keyId) e offset j →
      C { d with journal := j })
    {Q : Except Exn Unit → EvidenceStore → Disk → Prop}
    (h : ∀ j, Announced py o.nodeId (ownKey k o.keyId) e offset j →
      Q (.ok ()) o { d with journal := j }) :
    (writeJournal py e.sequence e.eventHash offset e.record k).Safe w C Q o d := by
  simp only [writeJournal, safe_bind, safe_self, Then, safe_sys_now hw]
  refine ⟨hC, hC, fun time => ?_⟩
  obtain ⟨text, htext⟩ := dump_journalMembers o.nodeId (ownKey k o.keyId) e.eventHash e.record
    (time.text py.padYears ++ [cp 'Z']) (hlegal.sequence.trans (by decide))
    ((Decimal.natText_length_le (by decide) (hoffset.trans (by decide))).trans
      (by decide : 19 ≤ maxDigits))
  have hwritten := announced_written hnode hkey hlegal hoffset htext
  simp only [safe_sys_createJournal hw, Then, htext, safe_bind, safe_attempt,
    safe_sys_writeJournal hw, safe_pure]
  refine ⟨hC, hsilent _ silent_empty, hsilent _ silent_empty, fun p hp => ?_, hannounced _ hwritten,
    h _ hwritten⟩
  rcases silent_or_announced hnode hkey hlegal hoffset htext hp with hp | hp
  · exact hsilent _ hp
  · exact hannounced _ hp

/-- An append for which there is no room is undone, which takes away its journal. -/
theorem safe_rollback_full (hd : d.log = some (logOf rs)) (hC : C d)
    (hdropped : C { d with journal := none }) {Q : Except Exn Unit → EvidenceStore → Disk → Prop}
    (h : Q (.ok ()) o { d with journal := none }) :
    (rollback (logOf rs).length).Safe w C Q o d := by
  unfold rollback
  rw [safe_bind, safe_suppress, safe_bind, safe_sys_statLog hw, hd]
  refine ⟨hC, ?_⟩
  rw [Then, Option.map_some]
  dsimp only
  rw [if_neg (Nat.lt_irrefl _), safe_pure]
  refine ⟨hC, ?_⟩
  rw [forgive, Then, safe_dropJournal hw]
  exact ⟨hC, hdropped, h⟩

variable (hr : ∀ b, Steady limit w (.replaceState b)) (ha : ∀ b, Steady limit w (.appendLog b))
  (hnode : Name nodeId)
include hr ha hnode

/-- What stands behind the journal: the line is appended and the state committed, or the append
is undone for want of room. -/
theorem safe_append_announced {k : Option Str} {sequence : Int} {previous : Str} {st : NodeState}
    (hl : o.lockHeld = true) (hn : o.nodeId = nodeId) (hk : o.keyId = keyId)
    (hstate : ∃ st, o.state = some st ∧ StandsAt rs st) (hlinked : Linked py nodeId built limit rs)
    (hkey : Name (ownKey k keyId)) (hsequence : e.sequence = rs.length + 1)
    (hprevious : EventChain.expectedPreviousHash py nodeId e.sequence
      (rs.getLast?.map Entry.eventHash) = .ok previous)
    (hbuilt : built previous e) (hlegal : Legal py nodeId e) (hlog : d.log = some (logOf rs))
    (hfile : Recorded py nodeId rs d.state) (hlocked : d.locked = true)
    (hjournal : Announced py nodeId (ownKey k keyId) e (logOf rs).length d.journal)
    (hcommits : ∀ st, chooseKey py (optionalText k) keyId st = .str (ownKey k keyId)) :
    (appendPayload (logOf rs).length e.line >>= fun _ => self >>= fun o =>
      commitState py ⟨o.nodeId, chooseKey py (optionalText k) o.keyId st, e.sequence,
        some e.eventHash⟩ >>= fun _ => dropJournal >>= fun _ => pure (sequence, e.eventHash)).Safe w
      (Survives py nodeId built limit rs) (fun r o' d' =>
        (r = .ok (sequence, e.eventHash) ∧ Linked py nodeId built limit (rs ++ [e]) ∧
          Opened py nodeId keyId (rs ++ [e]) o' d') ∨
        ((∃ x, r = .error x) ∧ Opened py nodeId keyId rs o' d')) o d := by
  have hbytes : d.logBytes = logOf rs := by rw [logBytes, hlog]; rfl
  have hnil : ([] : Bytes) ≠ e.line := (List.ne_nil_of_length_pos (line_length_pos e)).symm
  have hstart : Survives py nodeId built limit rs d := by
    refine .inl (.torn (p := []) ?_ List.nil_prefix hnil hlegal.scalar hfile hjournal)
    rw [hlog, List.append_nil]
  have hlanded : ∀ d', d'.log = some (logOf (rs ++ [e])) → (logOf (rs ++ [e])).length ≤ limit →
      d'.journal = d.journal →
      (Recorded py nodeId rs d'.state ∨ Recorded py nodeId (rs ++ [e]) d'.state) →
        Survives py nodeId built limit rs d' := by
    intro d' hlog' hroom hj hs
    refine .inr ⟨e, ⟨.snoc hlinked.chain hsequence hprevious hbuilt hlegal, hroom⟩, ?_⟩
    exact .landed rfl hsequence hlegal hlog' hs (hj ▸ hjournal)
  rw [safe_bind, appendPayload, safe_bind, safe_attempt, safe_sys (ha e.line)]
  refine ⟨hstart, ?_, fun time => ?_⟩
  · -- a crash in the middle of the append
    intro d' ht
    obtain ⟨p, hp, hroom, rfl⟩ := tear_append ht
    rw [hbytes] at hroom
    by_cases hpart : p = e.line
    · refine hlanded _ ?_ ?_ rfl (.inl hfile)
      · rw [extend_log, hbytes, hpart, logOf_snoc]
      · rw [logOf_snoc, ← hpart]
        exact hroom
    · refine .inl (.torn ?_ hp hpart hlegal.scalar hfile hjournal)
      rw [extend_log, hbytes]
  · rw [handle, hbytes, ← logOf_snoc]
    split_ifs with hroom
    · have hextended : (d.extend e.line).log = some (logOf (rs ++ [e])) := by
        rw [extend_log, hbytes, logOf_snoc]
      have hsurvives := hlanded _ hextended hroom rfl (.inl hfile)
      refine ⟨hsurvives, hsurvives, ?_⟩
      dsimp only
      rw [Then, safe_bind, safe_self]
      refine ⟨hsurvives, ?_⟩
      rw [Then, safe_bind, commitState, safe_bind, safe_attempt, safe_writeState hw hr, hn, hk,
        hcommits]
      refine ⟨hsurvives, onWrite_of_writable (writable_behind hlegal) fun time b hb => ?_⟩
      have hrecorded := recorded_behind hnode hkey hlegal hsequence hb
      have hcommitted := hlanded { d.extend e.line with state := some b } hextended hroom rfl
        (.inr hrecorded)
      have hbytes' : (d.extend e.line).logBytes = logOf (rs ++ [e]) := by
        rw [logBytes, hextended]
        rfl
      have hsettled : Survives py nodeId built limit rs
          { d.extend e.line with state := some b, journal := none } :=
        .inr ⟨e, ⟨.snoc hlinked.chain hsequence hprevious hbuilt hlegal, hroom⟩,
          .settled hbytes' hrecorded silent_none⟩
      refine ⟨hcommitted, hcommitted, ?_⟩
      dsimp only
      rw [Then, safe_bind, safe_dropJournal hw]
      refine ⟨hcommitted, hsettled, ?_⟩
      rw [Then, safe_pure]
      refine ⟨hsettled, .inl ⟨rfl, ⟨.snoc hlinked.chain hsequence hprevious hbuilt hlegal, hroom⟩, ?_⟩⟩
      exact ⟨hl, rfl, rfl, ⟨_, rfl, standsAt_behind hsequence⟩, hbytes', hrecorded, rfl, hlocked⟩
    · have hsettled : Survives py nodeId built limit rs { d with journal := none } :=
        .inl (.settled hbytes hfile silent_none)
      refine ⟨hstart, ?_⟩
      rw [Then]
      dsimp only
      rw [safe_bind]
      apply safe_rollback_full hw hlog hstart hsettled
      refine ⟨hsettled, .inr ⟨⟨_, rfl⟩, ?_⟩⟩
      exact ⟨hl, hn, hk, hstate, hbytes, hfile, rfl, hlocked⟩

/-- The append transaction within a session. It returns with its record behind the others, or
raises with the records as they were, and a crash on the way leaves one or the other. -/
theorem safe_appendSigned_durable (hlimit : limit < 2 ^ 63) {build : Build} {k : Option Str}
    (hbuild : Builds py nodeId built build) (hkey : Name keyId) (hk : ∀ n ∈ k, ShortText 128 n)
    (hlinked : Linked py nodeId built limit rs) (h : Opened py nodeId keyId rs o d) :
    (appendSigned py build k).Safe w (Survives py nodeId built limit rs) (fun r o' d' =>
      (∃ e, r = .ok e.acknowledged ∧ Linked py nodeId built limit (rs ++ [e]) ∧
        Opened py nodeId keyId (rs ++ [e]) o' d') ∨
      ((∃ x, r = .error x) ∧ Opened py nodeId keyId rs o' d')) o d := by
  obtain ⟨st, hst, hat⟩ := h.state
  have hload : EvidenceStore.loadState py o d = .ok st := by rw [EvidenceStore.loadState, hst]
  have hstart : Survives py nodeId built limit rs d := .inl h.durable
  unfold appendSigned
  rw [safe_bind, safe_allocate hw h.lockHeld hload, knowing_eq_self hst, h.node, hat.sequence,
    hat.eventHash]
  refine ⟨hstart, ?_⟩
  cases hprevious : EventChain.expectedPreviousHash py nodeId (rs.length + 1)
      (rs.getLast?.map Entry.eventHash) with
  | error x => exact .inr ⟨⟨x, rfl⟩, h⟩
  | ok previous =>
      rw [Except.map, Then, safe_bind, safe_ofExcept]
      refine ⟨hstart, ?_⟩
      cases hb : build (rs.length + 1) previous with
      | error x => exact .inr ⟨⟨x, rfl⟩, h⟩
      | ok p =>
          obtain ⟨record, eventHash⟩ := p
          obtain ⟨hbuilt, hlegal⟩ := hbuild _ _ _ _ hb
          have hname : Name (ownKey k keyId) := name_ownKey hkey hk
          have hmade : ∀ j, Silent py nodeId j → Survives py nodeId built limit rs
              { d with log := some d.logBytes, journal := j } :=
            fun j hj => .inl (.settled (d := { d with log := some d.logBytes, journal := j }) h.log
              h.file hj)
          rw [Then, safe_bind]
          apply safe_logOffset_crash hw hstart (hmade d.journal (h.journal ▸ silent_none))
          rw [Then, safe_bind, h.log]
          have hoffset : (logOf rs).length < 2 ^ 63 := hlinked.room.trans_lt hlimit
          have hannounced : ∀ j, Announced py nodeId (ownKey k keyId)
              ⟨rs.length + 1, record, eventHash⟩ (logOf rs).length j →
                Survives py nodeId built limit rs { d with log := some (logOf rs), journal := j } := by
            intro j hj
            refine .inl (.torn (p := []) ?_ List.nil_prefix ?_ hlegal.scalar h.file hj)
            · rw [List.append_nil]
            · exact (List.ne_nil_of_length_pos (line_length_pos _)).symm
          rw [h.log] at hmade
          have hwrite := @safe_writeJournal_crash py ⟨rs.length + 1, record, eventHash⟩ limit w
            (Survives py nodeId built limit rs) o { d with log := some (logOf rs) } hw
            (logOf rs).length k (h.node ▸ hnode) (h.key ▸ hname) (h.node ▸ hlegal) hoffset
            (hmade d.journal (h.journal ▸ silent_none))
          rw [h.node, h.key] at hwrite
          refine hwrite hmade hannounced fun j hj => ?_
          rw [Then, safe_bind, safe_ofExcept, encoded_line hlegal.scalar]
          refine ⟨hannounced j hj, ?_⟩
          rw [Then]
          refine (safe_append_announced (d := { d with log := some (logOf rs), journal := j })
            (e := ⟨rs.length + 1, record, eventHash⟩) hw hr ha hnode
            h.lockHeld h.node h.key h.state hlinked hname rfl hprevious hbuilt hlegal rfl h.file
            h.locked hj (chooseKey_ownKey hkey)).weaken fun r o' d' _ ht => ?_
          rcases ht with ⟨hr, hrest⟩ | ht
          · exact .inl ⟨⟨rs.length + 1, record, eventHash⟩, hr, hrest⟩
          · exact .inr ht

end Appending

/-! ## Runs -/

/-- Where a node is: between two sessions, or within one. -/
inductive Phase
  | closed
  | opened (o : EvidenceStore)

/-- A crash in the middle of a step: the files stay as they are, and the lock is free when the
process is gone. -/
inductive Crash (py : Interp) (nodeId : Str) (builds : Build → Prop) : Phase → Disk → Disk → Prop
  | opening {keyId : Str} {d d' : Disk}
      (hc : (enter py (create nodeId keyId)).Crashes (reliable py.fileLimit) d d') :
      Crash py nodeId builds .closed d { d' with locked := false }
  | appending {o : EvidenceStore} {d d' : Disk} {build : Build} {k : Option Str}
      (hb : builds build) (hk : ∀ n ∈ k, ShortText 128 n)
      (hc : (appendSigned py build k o).Crashes (reliable py.fileLimit) d d') :
      Crash py nodeId builds (.opened o) d { d' with locked := false }
  | closing {o : EvidenceStore} {d d' : Disk}
      (hc : (EvidenceStore.exit o).Crashes (reliable py.fileLimit) d d') :
      Crash py nodeId builds (.opened o) d { d' with locked := false }

/-- The runs of a node whose files are absent at first, with what its appends have returned and
the number of crashes so far. -/
inductive Run (py : Interp) (nodeId : Str) (builds : Build → Prop) :
    Phase → Disk → List (Int × Str) → Nat → Prop
  | start : Run py nodeId builds .closed Disk.empty [] 0
  | opens {d d' : Disk} {acks : List (Int × Str)} {n : Nat} {keyId : Str} {r : Except Exn Unit}
      {o : EvidenceStore} (h : Run py nodeId builds .closed d acks n) (hkey : Name keyId)
      (he : (enter py).Ends (reliable py.fileLimit) (create nodeId keyId) d r o d') :
      Run py nodeId builds (.opened o) d' acks n
  | appends {o o' : EvidenceStore} {d d' : Disk} {acks : List (Int × Str)} {n : Nat} {build : Build}
      {k : Option Str} {a : Int × Str} (h : Run py nodeId builds (.opened o) d acks n)
      (hb : builds build) (hk : ∀ n ∈ k, ShortText 128 n)
      (he : (appendSigned py build k).Ends (reliable py.fileLimit) o d (.ok a) o' d') :
      Run py nodeId builds (.opened o') d' (acks ++ [a]) n
  | raises {o o' : EvidenceStore} {d d' : Disk} {acks : List (Int × Str)} {n : Nat} {build : Build}
      {k : Option Str} {x : Exn} (h : Run py nodeId builds (.opened o) d acks n)
      (hb : builds build) (hk : ∀ n ∈ k, ShortText 128 n)
      (he : (appendSigned py build k).Ends (reliable py.fileLimit) o d (.error x) o' d') :
      Run py nodeId builds (.opened o') d' acks n
  | closes {o o' : EvidenceStore} {d d' : Disk} {acks : List (Int × Str)} {n : Nat}
      {r : Except Exn Unit} (h : Run py nodeId builds (.opened o) d acks n)
      (he : (EvidenceStore.exit).Ends (reliable py.fileLimit) o d r o' d') :
      Run py nodeId builds .closed d' acks n
  | crashes {phase : Phase} {d d' : Disk} {acks : List (Int × Str)} {n : Nat}
      (h : Run py nodeId builds phase d acks n) (hc : Crash py nodeId builds phase d d') :
      Run py nodeId builds .closed d' acks (n + 1)

/-- The records of a node account for what its appends have returned: all of it is among them,
in this order, with at most one record more for each crash. -/
structure Accounts (py : Interp) (nodeId : Str) (built : Str → Entry → Prop) (limit : Nat)
    (acks : List (Int × Str)) (crashes : Nat) (rs : List Entry) : Prop extends
    Linked py nodeId built limit rs where
  sublist : acks.Sublist (rs.map Entry.acknowledged)
  length_le : rs.length ≤ acks.length + crashes

/-- What holds of the disk where a node is. -/
def Phase.Sound (py : Interp) (nodeId : Str) (rs : List Entry) (d : Disk) : Phase → Prop
  | .closed => Durable py nodeId rs d ∧ d.locked = false
  | .opened o => ∃ keyId, Name keyId ∧ Opened py nodeId keyId rs o d

section Runs

variable {py : Interp} {nodeId : Str} {built : Str → Entry → Prop} {builds : Build → Prop}
  {rs : List Entry} {limit : Nat} {acks : List (Int × Str)} {n : Nat}

theorem Accounts.append {e : Entry} (h : Accounts py nodeId built limit acks n rs)
    (hlinked : Linked py nodeId built limit (rs ++ [e])) :
    Accounts py nodeId built limit (acks ++ [e.acknowledged]) n (rs ++ [e]) where
  toLinked := hlinked
  sublist := by
    rw [List.map_append]
    exact h.sublist.append (List.Sublist.refl _)
  length_le := by
    have hlength := h.length_le
    simp only [List.length_append, List.length_singleton]
    omega

/-- A crash leaves the records, or one more of which nothing was returned. -/
theorem Accounts.survive {d : Disk} (h : Accounts py nodeId built limit acks n rs)
    (hd : Survives py nodeId built limit rs d) :
    ∃ rs', Accounts py nodeId built limit acks (n + 1) rs' ∧ Durable py nodeId rs' d := by
  have hlength := h.length_le
  rcases hd with hd | ⟨e, hlinked, hd⟩
  · exact ⟨rs, ⟨h.toLinked, h.sublist, by omega⟩, hd⟩
  · refine ⟨rs ++ [e], ⟨hlinked, ?_, ?_⟩, hd⟩
    · rw [List.map_append]
      exact h.sublist.trans (List.sublist_append_left _ _)
    · rw [List.length_append, List.length_singleton]
      omega

theorem durable_empty (py : Interp) (nodeId : Str) : Durable py nodeId [] Disk.empty :=
  .settled rfl (.inl ⟨rfl, rfl⟩) silent_none

/-- The release of the lock. -/
theorem safe_exit_durable {w : World Fs Disk} (hw : Mild limit w) {keyId : Str} {o : EvidenceStore}
    {d : Disk} (h : Opened py nodeId keyId rs o d) :
    (EvidenceStore.exit).Safe w (Durable py nodeId rs)
      (fun _ _ d' => Durable py nodeId rs d' ∧ d'.locked = false) o d := by
  rw [EvidenceStore.exit, safe_release hw h.lockHeld]
  exact ⟨h.durable, h.durable.lock false, h.durable.lock false, rfl⟩

theorem Survives.lock {d : Disk} (h : Survives py nodeId built limit rs d) (b : Bool) :
    Survives py nodeId built limit rs { d with locked := b } :=
  h.imp (fun h => h.lock b) fun ⟨e, hlinked, h⟩ => ⟨e, hlinked, h.lock b⟩

section Steps

variable (hnode : Name nodeId) (hbuild : ∀ build, builds build → Builds py nodeId built build)
  (hlinked : Linked py nodeId built py.fileLimit rs)
include hnode hlinked

/-- A step of a run: an open. -/
theorem safe_enter_run {keyId : Str} {d : Disk} (h : Phase.closed.Sound py nodeId rs d) :
    (enter py).Safe (reliable py.fileLimit) (Durable py nodeId rs)
      (fun r o' d' => r = .ok () ∧ Opened py nodeId keyId rs o' d') (create nodeId keyId) d :=
  safe_enter_durable (mild_reliable _) (fun _ => steady_reliable _ _) hnode hlinked.chain h.2 h.1

include hbuild in
/-- A step of a run: an append. -/
theorem safe_appendSigned_run {keyId : Str} {o : EvidenceStore} {d : Disk} {build : Build}
    {k : Option Str} (hb : builds build) (hk : ∀ n ∈ k, ShortText 128 n) (hkey : Name keyId)
    (h : Opened py nodeId keyId rs o d) :
    (appendSigned py build k).Safe (reliable py.fileLimit)
      (Survives py nodeId built py.fileLimit rs) (fun r o' d' =>
        (∃ e, r = .ok e.acknowledged ∧ Linked py nodeId built py.fileLimit (rs ++ [e]) ∧
          Opened py nodeId keyId (rs ++ [e]) o' d') ∨
        ((∃ x, r = .error x) ∧ Opened py nodeId keyId rs o' d')) o d :=
  safe_appendSigned_durable (mild_reliable _) (fun _ => steady_reliable _ _)
    (fun _ => steady_reliable _ _) hnode py.fileLimit_lt (hbuild build hb) hkey hk hlinked h

include hbuild in
/-- A crash in the middle of a step leaves the records, or one more, and a free lock. -/
theorem Crash.survives {phase : Phase} {d d' : Disk} (hc : Crash py nodeId builds phase d d')
    (h : phase.Sound py nodeId rs d) :
    Survives py nodeId built py.fileLimit rs d' ∧ d'.locked = false := by
  cases hc with
  | @opening keyId d d' hc =>
      have hd := (safe_enter_run hnode hlinked h).crashes hc
      exact ⟨.inl (hd.lock false), rfl⟩
  | appending hb hk hc =>
      obtain ⟨keyId, hkey, ho⟩ := h
      have hd := (safe_appendSigned_run hnode hbuild hlinked hb hk hkey ho).crashes hc
      exact ⟨hd.lock false, rfl⟩
  | closing hc =>
      obtain ⟨keyId, -, ho⟩ := h
      have hd := (safe_exit_durable (mild_reliable _) ho).crashes hc
      exact ⟨.inl (hd.lock false), rfl⟩

end Steps

/-- Every run is sound, for records that account for it. -/
theorem Run.sound (hnode : Name nodeId) (hbuild : ∀ build, builds build → Builds py nodeId built build)
    {phase : Phase} {d : Disk} (h : Run py nodeId builds phase d acks n) :
    ∃ rs, Accounts py nodeId built py.fileLimit acks n rs ∧ phase.Sound py nodeId rs d := by
  induction h with
  | start =>
      exact ⟨[], ⟨⟨.nil, Nat.zero_le _⟩, .slnil, le_rfl⟩, durable_empty py nodeId, rfl⟩
  | opens _ hkey he ih =>
      obtain ⟨rs, hacc, hd⟩ := ih
      obtain ⟨-, ho⟩ := (safe_enter_run hnode hacc.toLinked hd).ends he
      exact ⟨rs, hacc, _, hkey, ho⟩
  | appends _ hb hk he ih =>
      obtain ⟨rs, hacc, keyId, hkey, ho⟩ := ih
      rcases (safe_appendSigned_run hnode hbuild hacc.toLinked hb hk hkey ho).ends he with
        ⟨e, hr, hlinked, ho⟩ | ⟨⟨x, hr⟩, -⟩
      · obtain rfl := Except.ok.inj hr
        exact ⟨rs ++ [e], hacc.append hlinked, keyId, hkey, ho⟩
      · cases hr
  | raises _ hb hk he ih =>
      obtain ⟨rs, hacc, keyId, hkey, ho⟩ := ih
      rcases (safe_appendSigned_run hnode hbuild hacc.toLinked hb hk hkey ho).ends he with
        ⟨e, hr, -⟩ | ⟨-, ho⟩
      · cases hr
      · exact ⟨rs, hacc, keyId, hkey, ho⟩
  | closes _ he ih =>
      obtain ⟨rs, hacc, keyId, -, ho⟩ := ih
      exact ⟨rs, hacc, (safe_exit_durable (mild_reliable _) ho).ends he⟩
  | crashes _ hc ih =>
      obtain ⟨rs, hacc, hsound⟩ := ih
      obtain ⟨hd, hlock⟩ := hc.survives hnode hbuild hacc.toLinked hsound
      obtain ⟨rs', hacc', hdurable⟩ := hacc.survive hd
      exact ⟨rs', hacc', hdurable, hlock⟩

/-- Wherever a crash may strike, every later open succeeds. It finds a log of whole records that
link one to the next, the state at the last of them, and no journal; every append that has
returned has its record there, in order, and each crash has left at most one record more. -/
theorem crash_safe (hnode : Name nodeId)
    (hbuild : ∀ build, builds build → Builds py nodeId built build) {d : Disk}
    (hrun : Run py nodeId builds .closed d acks n) {keyId : Str}
    {r : Except Exn Unit} {o : EvidenceStore} {d' : Disk}
    (he : (enter py).Ends (reliable py.fileLimit) (create nodeId keyId) d r o d') :
    r = .ok () ∧ d'.journal = none ∧ ∃ rs, Succession py nodeId built rs ∧ d'.logBytes = logOf rs ∧
      (∃ st, o.state = some st ∧ StandsAt rs st) ∧
      acks.Sublist (rs.map Entry.acknowledged) ∧ rs.length ≤ acks.length + n := by
  obtain ⟨rs, hacc, hd⟩ := hrun.sound hnode hbuild
  obtain ⟨hok, ho⟩ := (safe_enter_run hnode hacc.toLinked hd).ends he
  exact ⟨hok, ho.journal, rs, hacc.chain, ho.log, ho.state, hacc.sublist, hacc.length_le⟩

end Runs

/-! ## A run with a crash -/

/-- How every call succeeds. -/
def answering (py : Interp) : (c : Op) → Disk → Except Exn c.Result × Disk :=
  handle py.fileLimit .first

/-- An append that a crash cuts off after twenty bytes. -/
def tornAppend (limit : Nat) : Op → Disk → Option Disk
  | .appendLog b, d =>
      if (d.logBytes ++ b.take 20).length ≤ limit then some (d.extend (b.take 20)) else none
  | _, _ => none

theorem tear_tornAppend {limit : Nat} {c : Op} {d t : Disk} (h : tornAppend limit c d = some t) :
    Tear limit c d t := by
  unfold tornAppend at h
  split at h
  · split_ifs at h with hroom
    obtain rfl := Option.some.inj h
    exact .append d (List.take_prefix 20 _) hroom
  · cases h

/-- Appends that return, one after another, and what they return. -/
def appendAll (py : Interp) (k : Option Str) :
    List Build → EvidenceStore → Disk → Option (List (Int × Str) × EvidenceStore × Disk)
  | [], o, d => some ([], o, d)
  | build :: rest, o, d =>
      match ((appendSigned py build k o).exec (answering py) d).1.1 with
      | .error _ => none
      | .ok a =>
          let p := (appendSigned py build k o).exec (answering py) d
          (appendAll py k rest p.1.2 p.2).map fun q => (a :: q.1, q.2)

/-- A session whose last append a crash cuts off, and what the others have returned. -/
def cutSession (py : Interp) (nodeId keyId : Str) (all : List Build) (last : Build) (d : Disk) :
    Option (List (Int × Str) × Disk) := do
  let p := (enter py (create nodeId keyId)).exec (answering py) d
  let (acks, o, d) ← appendAll py (some keyId) all p.1.2 p.2
  let d ← (appendSigned py last (some keyId) o).cut (answering py) (tornAppend py.fileLimit) d
  return (acks, { d with locked := false })

section Cut

variable {py : Interp} {nodeId keyId : Str} {builds : Build → Prop} {acks acks' : List (Int × Str)}
  {n : Nat} {d d' : Disk}

theorem run_appendAll {k : Option Str} (hk : ∀ n ∈ k, ShortText 128 n) {all : List Build}
    (hall : ∀ b ∈ all, builds b) {o o' : EvidenceStore}
    (hrun : Run py nodeId builds (.opened o) d acks n)
    (h : appendAll py k all o d = some (acks', o', d')) :
    Run py nodeId builds (.opened o') d' (acks ++ acks') n := by
  induction all generalizing o d acks acks' with
  | nil =>
      obtain ⟨rfl, rfl, rfl⟩ : [] = acks' ∧ o = o' ∧ d = d' := by simpa [appendAll] using h
      rwa [List.append_nil]
  | cons build rest ih =>
      rw [appendAll] at h
      have he : (appendSigned py build k).Ends (reliable py.fileLimit) o d
          ((appendSigned py build k o).exec (answering py) d).1.1
          ((appendSigned py build k o).exec (answering py) d).1.2
          ((appendSigned py build k o).exec (answering py) d).2 :=
        Prog.ends_exec (w := reliable py.fileLimit) (h := answering py) (fun _ _ => ⟨_, rfl⟩) _ d
      split at h
      · cases h
      · next a ha =>
          rw [ha] at he
          obtain ⟨⟨acks'', o'', d''⟩, hrest, heq⟩ := Option.map_eq_some_iff.mp h
          obtain ⟨rfl, rfl, rfl⟩ : a :: acks'' = acks' ∧ o'' = o' ∧ d'' = d' := by simpa using heq
          have hmore := ih (fun b hb => hall b (by simp [hb]))
            (hrun.appends (hall build (by simp)) hk he) hrest
          rwa [List.append_assoc] at hmore

/-- A session with a crash in its last append goes on a run. -/
theorem run_cutSession (hkey : Name keyId) {all : List Build} (hall : ∀ b ∈ all, builds b)
    {last : Build} (hlast : builds last) (hrun : Run py nodeId builds .closed d acks n)
    (h : cutSession py nodeId keyId all last d = some (acks', d')) :
    Run py nodeId builds .closed d' (acks ++ acks') (n + 1) := by
  have he := Prog.ends_exec (w := reliable py.fileLimit) (h := answering py)
    (fun _ _ => ⟨_, rfl⟩) (enter py (create nodeId keyId)) d
  obtain ⟨⟨acks'', o, d₁⟩, hall', h⟩ := Option.bind_eq_some_iff.mp h
  obtain ⟨d₂, hcut, h⟩ := Option.bind_eq_some_iff.mp h
  obtain ⟨rfl, rfl⟩ := Prod.mk.inj (Option.some.inj h)
  have hk : ∀ n ∈ some keyId, ShortText 128 n := by
    rintro n ⟨⟩
    exact hkey.short
  have hopened := run_appendAll hk hall (hrun.opens hkey he) hall'
  exact hopened.crashes (.appending hlast hk (Prog.crashes_cut (w := reliable py.fileLimit)
    (fun _ _ => ⟨_, rfl⟩) (fun _ _ _ => tear_tornAppend) hcut))

end Cut

/-- A record of node `n`. -/
def sampleEntry (sequence : Int) (digits : Str) : Entry where
  sequence := sequence
  record := lit "\x7b\"event_hash\":\"" ++ zeroHash ++ lit "\",\"node_id\":\"n\",\"sequence\":" ++
    digits ++ lit "\x7d"
  eventHash := zeroHash

/-- The first record. -/
def firstEntry : Entry := sampleEntry 1 (lit "1")

/-- The second record. -/
def secondEntry : Entry := sampleEntry 2 (lit "2")

/-- A builder that has these two records only. -/
def sampleBuild : Build := fun sequence _ =>
  if sequence = 1 then .ok (firstEntry.record, firstEntry.eventHash)
  else if sequence = 2 then .ok (secondEntry.record, secondEntry.eventHash)
  else .error .signer

set_option maxRecDepth 100000 in
theorem legal_firstEntry : Legal .unrolled (lit "n") firstEntry where
  scalar := by decide +kernel
  lf_notMem := by decide +kernel
  cr_notMem := by decide +kernel
  found := by decide +kernel
  digest := by decide +kernel
  length := by decide +kernel
  sequence := by decide

set_option maxRecDepth 100000 in
theorem legal_secondEntry : Legal .unrolled (lit "n") secondEntry where
  scalar := by decide +kernel
  lf_notMem := by decide +kernel
  cr_notMem := by decide +kernel
  found := by decide +kernel
  digest := by decide +kernel
  length := by decide +kernel
  sequence := by decide

theorem builds_sampleBuild :
    Builds .unrolled (lit "n") (fun _ e => e = firstEntry ∨ e = secondEntry) sampleBuild := by
  intro sequence previous record eventHash h
  rw [sampleBuild] at h
  split_ifs at h with hone htwo
  · obtain ⟨rfl, rfl⟩ := Prod.mk.inj (Except.ok.inj h)
    rw [hone]
    exact ⟨.inl rfl, legal_firstEntry⟩
  · obtain ⟨rfl, rfl⟩ := Prod.mk.inj (Except.ok.inj h)
    rw [htwo]
    exact ⟨.inr rfl, legal_secondEntry⟩

/-- In a reliable world every operation comes to an end. -/
theorem exists_ends (limit : Nat) {α : Type} (m : StoreM α) (o : EvidenceStore) (d : Disk) :
    ∃ r o' d', m.Ends (reliable limit) o d r o' d' := by
  obtain ⟨⟨r, o'⟩, d', he⟩ := Prog.exists_ends (reliable_responsive limit) (m o) d
  exact ⟨r, o', d', he⟩

/-- The disk of the sample session, and what its first append has returned. -/
def sampleCrash : Option (List (Int × Str) × Disk) :=
  cutSession .unrolled (lit "n") (lit "k") [sampleBuild] sampleBuild Disk.empty

/-- The bytes of the log behind the next open. -/
def reopenedLog (py : Interp) (nodeId keyId : Str) (d : Disk) : Bytes :=
  ((enter py (create nodeId keyId)).exec (answering py) d).2.logBytes

set_option maxRecDepth 100000 in
theorem sampleCrash_eq : sampleCrash.map (fun p => (p.1, p.2.logBytes,
      reopenedLog .unrolled (lit "n") (lit "k") p.2)) =
    some ([firstEntry.acknowledged], firstEntry.line ++ secondEntry.line.take 20,
      firstEntry.line) := by
  decide +kernel

/-- The first append returns, the second one is cut off by a crash, and the next open finds the
first record and undoes what there is of the second. -/
theorem crash_safe_sample : ∃ (d d' : Disk) (rs : List Entry),
    Run .unrolled (lit "n") (· = sampleBuild) .closed d [firstEntry.acknowledged] 1 ∧
      d.logBytes = firstEntry.line ++ secondEntry.line.take 20 ∧
      d'.journal = none ∧ d'.logBytes = firstEntry.line ∧ d'.logBytes = logOf rs ∧
      [firstEntry.acknowledged].Sublist (rs.map Entry.acknowledged) ∧ rs.length ≤ 2 := by
  have hnode : Name (lit "n") := ⟨by decide, by decide, by decide⟩
  have hkey : Name (lit "k") := ⟨by decide, by decide, by decide⟩
  have hbuild : ∀ build, build = sampleBuild →
      Builds .unrolled (lit "n") (fun _ e => e = firstEntry ∨ e = secondEntry) build := by
    rintro build rfl
    exact builds_sampleBuild
  obtain ⟨⟨acks, d⟩, hcut, heq⟩ := Option.map_eq_some_iff.mp sampleCrash_eq
  simp only [Prod.mk.injEq] at heq
  obtain ⟨rfl, htorn, hreopened⟩ := heq
  have hrun : Run .unrolled (lit "n") (· = sampleBuild) .closed d [firstEntry.acknowledged] 1 :=
    @run_cutSession _ _ _ (· = sampleBuild) _ _ _ _ _ hkey _ (by simp) _ rfl .start hcut
  have he := Prog.ends_exec (w := reliable Interp.unrolled.fileLimit) (h := answering .unrolled)
    (fun _ _ => ⟨_, rfl⟩) (enter .unrolled (create (lit "n") (lit "k"))) d
  obtain ⟨-, hjournal, rs, -, hlog, -, hacks, hlength⟩ := crash_safe hnode hbuild hrun he
  exact ⟨d, _, rs, hrun, htorn, hjournal, hreopened, hlog, hacks, hlength⟩

end EvidenceStore

end IcsDeception
