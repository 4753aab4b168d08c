import IcsDeception.JournalFile
import IcsDeception.Lib.TextFile

/-!
# A log of linked records

A log that a node has written holds its records one to a line, each with its place in the
chain and linked to the one before. What the scan of such a log finds, what the state file
of such a node holds, and what a journal can hold whose writing was cut short.
-/

namespace IcsDeception

open Text Json Calendar Models EnvelopeRoundTrip Method NodeState Disk

namespace NodeState

/-- A state behind a record is read back as it was written. -/
theorem ofFile_fileBytes {py : Interp} {st : NodeState} {k hash : Str} (hnode : st.nodeId ≠ [])
    (hscalar : Scalar st.nodeId) (hk : st.keyId = .str k) (hkey : k ≠ []) (hkscalar : Scalar k)
    (hpos : 0 < st.lastSequence) (hhash : st.lastEventHash = some hash) (hdigest : IsDigest hash)
    {time : Instant} {b : Bytes} (hb : fileBytes py st time = .ok b) :
    ofFile py st.nodeId b = .ok st := by
  obtain ⟨kvs, hread, hlookup⟩ := readJson_fileBytes hk hb
  have htext : ∀ s : Str, Scalar s → Style.indented.readBack s = s := fun s hs =>
    Style.readBack_eq_self fun _ => hs
  have hhashScalar : Scalar hash := (shortText_hash (validateHash_of_isDigest hdigest)).2
  have hversion : Style.indented.readBack formatVersion = formatVersion := htext _ (by decide)
  simp only [toDict, List.forall_mem_cons, hk, hhash, optionalText, Json.norm, htext _ hscalar,
    htext _ hkscalar, htext _ hhashScalar, hversion] at hlookup
  obtain ⟨hn, hkid, hseq, hlast, hver, -⟩ := hlookup
  have hne : st.lastSequence ≠ 0 := hpos.ne'
  rw [ofFile, hread]
  simp only [bind, Except.bind, fromDict, ensure, identifier, position, digest, Models.field, required,
    List.all_cons, List.all_nil, hn, hkid, hseq, hlast, hver, Option.isSome_some, Option.getD_some,
    Bool.and_true, if_true, if_neg hnode, if_neg hkey, if_neg (not_lt.mpr hpos.le), if_pos hdigest,
    hne, decide_true, false_or, Option.isNone_some, ne_eq, not_false_eq_true, true_or]
  obtain ⟨nodeId, keyId, sequence, last⟩ := st
  dsimp only at hk hhash ⊢
  rw [hk, hhash]
  rfl

end NodeState

namespace EvidenceStore

/-! ## Records -/

/-- A record with its place in the chain of its node. -/
structure Entry where
  sequence : Int
  record : Str
  eventHash : Str

/-- The line of a record, as bytes. -/
def Entry.line (e : Entry) : Bytes := Utf8.encodeAll (e.record ++ [lf])

/-- The record as the store finds it again. -/
def Entry.logged (e : Entry) : Logged := ⟨e.sequence, e.eventHash⟩

/-- What an append returns for the record. -/
def Entry.acknowledged (e : Entry) : Int × Str := (e.sequence, e.eventHash)

/-- A log that holds records, each on a line of its own. -/
def logOf (rs : List Entry) : Bytes := rs.flatMap Entry.line

/-- What a record must be for a node to find it again, and for a journal to hold it. -/
structure Legal (py : Interp) (nodeId : Str) (e : Entry) : Prop where
  scalar : Scalar e.record
  lf_notMem : lf ∉ e.record
  cr_notMem : cr ∉ e.record
  found : recordIn py nodeId e.record = some e.logged
  digest : IsDigest e.eventHash
  length : byteLength e.record ≤ 110000
  sequence : (Decimal.natText e.sequence.natAbs).length ≤ 19

/-- Records of a node that link one to the next, oldest first, each built for its place. -/
inductive Succession (py : Interp) (nodeId : Str) (built : Str → Entry → Prop) : List Entry → Prop
  | nil : Succession py nodeId built []
  | snoc {rs : List Entry} {e : Entry} {previous : Str} (hrs : Succession py nodeId built rs)
      (hsequence : e.sequence = rs.length + 1)
      (hprevious : EventChain.expectedPreviousHash py nodeId e.sequence
        (rs.getLast?.map Entry.eventHash) = .ok previous)
      (hbuilt : built previous e) (hlegal : Legal py nodeId e) : Succession py nodeId built (rs ++ [e])

section Scan

variable {py : Interp} {nodeId : Str} {built : Str → Entry → Prop} {rs : List Entry} {e : Entry}

theorem line_length_pos (e : Entry) : 0 < e.line.length := by
  rw [Entry.line, Utf8.encodeAll_append, List.length_append]
  exact Nat.lt_add_left _ (by decide)

theorem logOf_append (rs rs' : List Entry) : logOf (rs ++ rs') = logOf rs ++ logOf rs' :=
  List.flatMap_append

theorem logOf_snoc (rs : List Entry) (e : Entry) : logOf (rs ++ [e]) = logOf rs ++ e.line := by
  rw [logOf_append]
  exact congrArg (logOf rs ++ ·) (List.append_nil _)

theorem Succession.legal (h : Succession py nodeId built rs) : ∀ e ∈ rs, Legal py nodeId e := by
  induction h with
  | nil => exact fun e he => nomatch he
  | snoc _ _ _ _ hlegal ih =>
      intro e he
      rcases List.mem_append.mp he with he | he
      · exact ih e he
      · rw [List.mem_singleton.mp he]
        exact hlegal

/-- The last record of a chain carries the number of its records. -/
theorem Succession.sequence_getLast? (h : Succession py nodeId built rs) (he : e ∈ rs.getLast?) :
    e.sequence = rs.length := by
  cases h with
  | nil => cases he
  | snoc _ hsequence =>
      rw [List.getLast?_concat] at he
      obtain rfl := Option.some.inj he
      rw [hsequence, List.length_append]
      rfl

theorem encoded_line (h : Scalar e.record) : encoded (e.record ++ [lf]) = .ok e.line := by
  rw [encoded, Utf8.encode_of_scalar (scalar_append.mpr ⟨h, by decide⟩)]
  rfl

theorem logOf_eq_encodeAll (rs : List Entry) :
    logOf rs = Utf8.encodeAll ((rs.map Entry.record).flatMap fun s => s ++ [lf]) := by
  induction rs with
  | nil => rfl
  | cons e rs ih =>
      rw [List.map_cons, List.flatMap_cons, Utf8.encodeAll_append, ← ih]
      rfl

/-- A log of records is read back line by line. -/
theorem logLines_logOf (h : ∀ e ∈ rs, Legal py nodeId e) :
    logLines (logOf rs) = rs.map fun e => e.record ++ [lf] := by
  have hscalar : Scalar ((rs.map Entry.record).flatMap fun s => s ++ [lf]) := by
    intro c hc
    obtain ⟨s, hs, hc⟩ := List.mem_flatMap.mp hc
    obtain ⟨e, he, rfl⟩ := List.mem_map.mp hs
    exact scalar_append.mpr ⟨(h e he).scalar, by decide⟩ c hc
  have hcr : cr ∉ (rs.map Entry.record).flatMap fun s => s ++ [lf] := by
    intro hc
    obtain ⟨s, hs, hc⟩ := List.mem_flatMap.mp hc
    obtain ⟨e, he, rfl⟩ := List.mem_map.mp hs
    rcases List.mem_append.mp hc with hc | hc
    · exact (h e he).cr_notMem hc
    · exact absurd hc (by decide)
  rw [logLines, logOf_eq_encodeAll, Utf8.decodeReplace_encodeAll hscalar,
    universalNewlines_eq_self hcr, splitLines_flatMap, List.map_map]
  · rfl
  · intro s hs
    obtain ⟨e, he, rfl⟩ := List.mem_map.mp hs
    exact (h e he).lf_notMem

theorem recordIn_line (h : Legal py nodeId e) :
    recordIn py nodeId (e.record ++ [lf]) = some e.logged := by
  rw [recordIn, strip_append_lf]
  exact h.found

/-- A line with a record is read without an exception. -/
theorem scanLine_of_recordIn {last : Option Logged} {line : Str} {r : Logged}
    (h : recordIn py nodeId line = some r) : scanLine py nodeId last line = .ok (some r) := by
  have hne : strip line ≠ [] := by
    intro hblank
    rw [recordIn_of_blank hblank] at h
    cases h
  rw [scanLine, if_neg hne]
  rw [recordIn] at h
  cases hl : loads py.jsonLimit (strip line) with
  | error x =>
      rw [hl] at h
      cases h
  | ok v =>
      rw [hl] at h
      dsimp only at h ⊢
      rw [h]
      rfl

/-- The scan of such a log finds its last record. -/
theorem scanLog_logOf (h : ∀ e ∈ rs, Legal py nodeId e) :
    scanLog py nodeId (logOf rs) = .ok (rs.getLast?.map Entry.logged) := by
  rw [scanLog, logLines_logOf h]
  -- with a record to start from, so that the induction can go through
  have hfold : ∀ (rs : List Entry) (last : Option Logged), (∀ e ∈ rs, Legal py nodeId e) →
      (rs.map fun e => e.record ++ [lf]).foldlM (scanLine py nodeId) last =
        .ok ((rs.getLast?.map Entry.logged).or last) := by
    intro rs
    induction rs with
    | nil => exact fun last _ => rfl
    | cons e rs ih =>
        intro last hlegal
        obtain ⟨he, hrs⟩ := List.forall_mem_cons.mp hlegal
        rw [List.map_cons, List.foldlM_cons, scanLine_of_recordIn (recordIn_line he)]
        refine (ih (some e.logged) hrs).trans ?_
        rw [List.getLast?_cons]
        cases rs.getLast? <;> rfl
  rw [hfold rs none h, Option.or_none]

end Scan

/-! ## The state -/

/-- The name of a node or a key, as far as its length and its characters go. -/
structure Name (s : Str) : Prop where
  ne_nil : s ≠ []
  short : ShortText 128 s

/-- A state that stands at the last of some records. -/
structure StandsAt (rs : List Entry) (st : NodeState) : Prop where
  sequence : st.lastSequence = rs.length
  eventHash : st.lastEventHash = rs.getLast?.map Entry.eventHash

/-- The state file of a node that stands at the last of some records. There is none before the
first. -/
def Recorded (py : Interp) (nodeId : Str) (rs : List Entry) (file : Option Bytes) : Prop :=
  (file = none ∧ rs = []) ∨ ∃ b, file = some b ∧ ∃ st, ofFile py nodeId b = .ok st ∧ StandsAt rs st

/-- The state behind a record. -/
def behind (nodeId key : Str) (e : Entry) : NodeState :=
  ⟨nodeId, .str key, e.sequence, some e.eventHash⟩

section Position

variable {py : Interp} {nodeId key : Str} {rs : List Entry} {e : Entry}

/-- A store that remembers nothing finds the state in the file. -/
theorem Recorded.loadState {o : EvidenceStore} {d : Disk} (h : Recorded py nodeId rs d.state)
    (hnode : o.nodeId = nodeId) (ho : o.state = none) :
    ∃ st, loadState py o d = .ok st ∧ StandsAt rs st := by
  rw [EvidenceStore.loadState, ho]
  rcases h with ⟨hd, rfl⟩ | ⟨b, hd, st, hst, hat⟩
  · rw [hd]
    exact ⟨_, rfl, rfl, rfl⟩
  · rw [hd, hnode]
    exact ⟨st, hst, hat⟩

theorem standsAt_behind (hsequence : e.sequence = rs.length + 1) :
    StandsAt (rs ++ [e]) (behind nodeId key e) where
  sequence := by
    rw [List.length_append]
    exact hsequence
  eventHash := by
    rw [List.getLast?_concat]
    rfl

theorem writable_behind (h : Legal py nodeId e) : NodeState.Writable py (behind nodeId key e) := by
  refine ⟨?_, ⟨_, rfl⟩, h.sequence.trans (by decide)⟩
  have hlimit := py.dumpLimit_le
  simp only [behind, Value.nest]
  omega

/-- What is written for the state behind a record is read back. -/
theorem recorded_behind (hnode : Name nodeId) (hkey : Name key) (h : Legal py nodeId e)
    (hsequence : e.sequence = rs.length + 1) {time : Instant} {b : Bytes}
    (hb : fileBytes py (behind nodeId key e) time = .ok b) :
    Recorded py nodeId (rs ++ [e]) (some b) := by
  have hpos : 0 < (behind nodeId key e).lastSequence := by
    change 0 < e.sequence
    omega
  refine .inr ⟨b, rfl, behind nodeId key e, ?_, standsAt_behind hsequence⟩
  exact ofFile_fileBytes hnode.ne_nil hnode.short.2 rfl hkey.ne_nil hkey.short.2 hpos rfl h.digest hb

/-- A key that is named is the one that is written. -/
theorem chooseKey_name (hkey : Name key) (own : Str) (st : NodeState) :
    chooseKey py (.str key) own st = .str key := by
  have htruth : py.truth (.str key) = true := by
    rw [Interp.truth, List.isEmpty_eq_false_iff.mpr hkey.ne_nil]
    rfl
  exact if_pos htruth

end Position

/-! ## The journal -/

/-- The entry of a journal for a record that is to stand at an offset. -/
def Entry.journaled (e : Entry) (offset : Nat) (key : Str) : JournalEntry :=
  ⟨e.sequence, offset, e.record ++ [lf], e.eventHash, .str key⟩

/-- A journal that says nothing, if there is one. -/
def Silent (py : Interp) (nodeId : Str) (journal : Option Bytes) : Prop :=
  ∀ b, journal = some b → readJournal py nodeId b = .ok .unreadable

/-- A journal that announces a record. -/
structure Announced (py : Interp) (nodeId key : Str) (e : Entry) (offset : Nat)
    (journal : Option Bytes) : Prop where
  name : Name key
  entry : ∃ b, journal = some b ∧ readJournal py nodeId b = .ok (.entry (e.journaled offset key))

section Journal

variable {py : Interp} {nodeId key : Str} {e : Entry} {offset : Nat}

theorem silent_none : Silent py nodeId none := fun _ h => nomatch h

theorem silent_empty : Silent py nodeId (some []) := by
  rintro b ⟨⟩
  rfl

theorem journalFits (hnode : Name nodeId) (hkey : Name key) (h : Legal py nodeId e)
    (hoffset : offset < 2 ^ 63) (time : Instant) :
    JournalFits nodeId key e.eventHash e.record (time.text py.padYears ++ [cp 'Z']) e.sequence
      offset where
  nodeId := hnode.short
  keyId := hkey.short
  eventHash := shortText_hash (validateHash_of_isDigest h.digest)
  writtenAt := shortText_instant py time
  scalar := h.scalar
  length := h.length
  sequence := h.sequence
  offset := Decimal.natText_length_le (by decide) (hoffset.trans (by decide))

/-- A journal whose writing was cut short says nothing, or is complete. -/
theorem silent_or_announced (hnode : Name nodeId) (hkey : Name key) (h : Legal py nodeId e)
    (hoffset : offset < 2 ^ 63) {time : Instant} {text : Str}
    (ht : dump Style.default 0 (Value.ofMembers (journalMembers nodeId key e.sequence e.eventHash
      offset e.record (time.text py.padYears ++ [cp 'Z']))) = .ok text) {p : Bytes}
    (hp : p <+: Utf8.encodeAll text) :
    Silent py nodeId (some p) ∨ Announced py nodeId key e offset (some p) := by
  have hfits := journalFits hnode hkey h hoffset time
  have hwritable := hfits.writable
  have hbound : p.length ≤ maxJournalBytes := hp.length_le.trans (hfits.length_le ht)
  obtain ⟨q, r, hq, rfl⟩ := Utf8.exists_of_prefix_ascii (fun c hc => by
    rcases hwritable.printable ht c hc with hc | rfl
    · exact Nat.lt_trans hc.2 (by decide)
    · decide) hp
  by_cases hr : r = []
  · obtain rfl : text = q := by rw [hq, hr, List.append_nil]
    exact .inr ⟨hkey, _, rfl, hwritable.readJournal_text ht hbound⟩
  · left
    rintro b ⟨⟩
    rw [readJournal, if_neg (Nat.not_lt.mpr hbound), hwritable.readJson_torn ht hq hr]
    rfl

/-- A journal that was written to its end announces its record. -/
theorem announced_written (hnode : Name nodeId) (hkey : Name key) (h : Legal py nodeId e)
    (hoffset : offset < 2 ^ 63) {time : Instant} {text : Str}
    (ht : dump Style.default 0 (Value.ofMembers (journalMembers nodeId key e.sequence e.eventHash
      offset e.record (time.text py.padYears ++ [cp 'Z']))) = .ok text) :
    Announced py nodeId key e offset (some (Utf8.encodeAll text)) := by
  have hfits := journalFits hnode hkey h hoffset time
  exact ⟨hkey, _, rfl, hfits.writable.readJournal_text ht (hfits.length_le ht)⟩

end Journal

end EvidenceStore

end IcsDeception
