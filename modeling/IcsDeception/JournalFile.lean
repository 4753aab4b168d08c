import IcsDeception.Appending
import IcsDeception.EnvelopeRoundTrip
import IcsDeception.StateFile
import IcsDeception.Lib.Json.Shorter
import IcsDeception.Lib.Json.Torn

/-!
# What a journal is read back as

The journal of an append is read back as the entry that was written, unless it is too
large, and a piece from its front is read back as nothing.

The entry holds the text of the record between quotes, so everything outside ASCII is
escaped a second time. A character takes at most six characters for each byte that it has
in UTF-8, and a record that the signer builds is short enough for the bound on the journal
at that rate.
-/

namespace IcsDeception

open Text Json Calendar Models EnvelopeRoundTrip Method NodeState Disk

/-! ## Quoting in ASCII -/

namespace Json

/-- The worst rate of the ASCII escapes: six characters for a byte. -/
theorem escapeOne_ascii_length (c : CodePoint) :
    (escapeOne true c).length ≤ 6 * (Utf8.encodeOne c).length := by
  have hpos := Utf8.encodeOne_length_pos c
  rcases escapeOne_cases true c with ⟨e, he, -⟩ | ⟨he, -⟩ | ⟨he, hc, -⟩ | ⟨he, -⟩
  · rw [he, List.length_cons, List.length_singleton]
    omega
  · rw [he, unicodeEscape_length]
    omega
  · -- two units, and four bytes
    have hfour : (Utf8.encodeOne c).length = 4 := by
      rw [Utf8.encodeOne, if_neg (by omega), if_neg (by omega), if_neg (by omega)]
      rfl
    rw [he, List.length_append, unicodeEscape_length, unicodeEscape_length, hfour]
    decide
  · rw [he, List.length_singleton]
    omega

theorem escape_ascii_length (s : Str) : (escape true s).length ≤ 6 * byteLength s := by
  induction s with
  | nil => exact le_rfl
  | cons c s ih =>
      have hc := escapeOne_ascii_length c
      have hcons : escape true (c :: s) = escapeOne true c ++ escape true s := rfl
      rw [hcons, List.length_append, byteLength_cons]
      omega

/-- A quoted text takes at most six characters for each of its bytes. -/
theorem quote_ascii_length (s : Str) : (quote true s).length ≤ 6 * byteLength s + 2 := by
  have hescape := escape_ascii_length s
  rw [quote, List.length_cons, List.length_append, List.length_singleton]
  omega

theorem intText_length_le {i : Int} {n : Nat} (h : (Decimal.natText i.natAbs).length ≤ n) :
    (Decimal.intText i).length ≤ n + 1 := by
  rw [Decimal.intText]
  split_ifs
  · rw [List.length_cons]
    omega
  · omega

end Json

namespace EvidenceStore

/-! ## The text of a journal -/

/-- A short text takes at most twenty-four characters for each of its own, and two quotes. -/
theorem quote_shortText {n : Nat} {s : Str} (hs : ShortText n s) :
    (quote true s).length ≤ 24 * n + 2 := by
  have hquote := quote_ascii_length s
  have hbytes := byteLength_le s
  have hlength := hs.1
  omega

theorem journalMembers_keys (nodeId keyId eventHash record writtenAt : Str) (sequence : Int)
    (offset : Nat) :
    (journalMembers nodeId keyId sequence eventHash offset record writtenAt).map Prod.fst =
      [lit "node_id", lit "key_id", lit "sequence", lit "event_hash", lit "offset", lit "record",
        lit "written_at"] := rfl

set_option maxRecDepth 4000 in
theorem journalMembers_scalar (nodeId keyId eventHash record writtenAt : Str) (sequence : Int)
    (offset : Nat) :
    ∀ p ∈ journalMembers nodeId keyId sequence eventHash offset record writtenAt, Scalar p.1 := by
  have hkeys : ∀ k ∈ (journalMembers nodeId keyId sequence eventHash offset record
      writtenAt).map Prod.fst, Scalar k := by
    rw [journalMembers_keys]
    decide
  exact fun p hp => hkeys p.1 (List.mem_map_of_mem hp)

theorem journalMembers_nodup (nodeId keyId eventHash record writtenAt : Str) (sequence : Int)
    (offset : Nat) :
    ((journalMembers nodeId keyId sequence eventHash offset record writtenAt).map
      Prod.fst).Nodup := by
  rw [journalMembers_keys]
  decide

/-- The characters of a member of a journal. -/
def memberWidth : Value → Nat
  | .str s => (quote true s).length
  | .int i => (Decimal.intText i).length
  | _ => 0

theorem dump_member {nodeId keyId eventHash record writtenAt : Str} {sequence : Int} {offset : Nat}
    {p : Str × Value}
    (hp : p ∈ journalMembers nodeId keyId sequence eventHash offset record writtenAt) {t : Str}
    (ht : dump Style.default 1 p.2 = .ok t) : t.length = memberWidth p.2 := by
  have hflat : (∃ s, p.2 = .str s) ∨ ∃ i, p.2 = .int i := by
    revert p
    simp [journalMembers]
  rcases hflat with ⟨s, hs⟩ | ⟨i, hi⟩
  · rw [hs] at ht ⊢
    obtain rfl := Except.ok.inj ht
    rfl
  · rw [hi, dump, dumpInt] at ht
    split_ifs at ht
    obtain rfl := Except.ok.inj ht
    rw [hi]
    rfl

/-- What a journal holds is written, and read back as it is. -/
structure JournalWritable (nodeId keyId eventHash record : Str) (sequence : Int) (offset : Nat) :
    Prop where
  nodeId : Scalar nodeId
  keyId : Scalar keyId
  eventHash : Scalar eventHash
  record : Scalar record
  sequence : (Decimal.natText sequence.natAbs).length ≤ maxDigits
  offset : (Decimal.natText offset).length ≤ maxDigits

namespace JournalWritable

variable {nodeId keyId eventHash record writtenAt : Str} {sequence : Int} {offset : Nat}
  (h : JournalWritable nodeId keyId eventHash record sequence offset)
include h

theorem writable : Json.Writable Style.default (Value.ofMembers
    (journalMembers nodeId keyId sequence eventHash offset record writtenAt)) := by
  have hsequence := h.sequence
  have hoffset := h.offset
  refine writable_ofMembers (journalMembers_nodup ..) fun p hp =>
    ⟨journalMembers_scalar _ _ _ _ _ _ _ p hp, ?_⟩
  have hdigits : ∀ i : Int, (Decimal.natText i.natAbs).length ≤ maxDigits →
      Json.Writable Style.default (.int i) := fun i hi => hi
  revert p
  simp only [journalMembers, List.forall_mem_cons]
  exact ⟨trivial, trivial, hdigits _ hsequence, trivial, hdigits _ hoffset, trivial, trivial,
    by simp⟩

theorem printable {text : Str}
    (ht : dump Style.default 0 (Value.ofMembers
      (journalMembers nodeId keyId sequence eventHash offset record writtenAt)) = .ok text) :
    ∀ c ∈ text, PrintableLine c :=
  Style.printed_default.dump h.writable ht

/-- A journal that is not too large is read back as the entry that was written. -/
theorem readJournal_text {py : Interp} {text : Str}
    (ht : dump Style.default 0 (Value.ofMembers
      (journalMembers nodeId keyId sequence eventHash offset record writtenAt)) = .ok text)
    (hlength : (Utf8.encodeAll text).length ≤ maxJournalBytes) :
    readJournal py nodeId (Utf8.encodeAll text) =
      .ok (.entry ⟨sequence, offset, record ++ [lf], eventHash, .str keyId⟩) := by
  have hread : readJson py (Utf8.encodeAll (text ++ [])) = .ok (.value (Json.norm Style.default
      (Value.ofMembers
        (journalMembers nodeId keyId sequence eventHash offset record writtenAt)))) := by
    apply readJson_dump Style.printed_default h.writable
    · have hnest : (Value.ofMembers (journalMembers nodeId keyId sequence eventHash offset record
          writtenAt)).nest = 1 := rfl
      have hlimit := py.jsonLimit_le
      omega
    · exact ht
    · exact fun c hc => nomatch hc
  obtain ⟨kvs, hkvs, hlookup⟩ := @norm_fields Style.default _
    (journalMembers_nodup nodeId keyId eventHash record writtenAt sequence offset)
    (journalMembers_scalar nodeId keyId eventHash record writtenAt sequence offset)
  rw [List.append_nil, hkvs] at hread
  have htext : ∀ s : Str, Scalar s → Style.default.readBack s = s := fun s hs =>
    Style.readBack_eq_self fun _ => hs
  simp only [journalMembers, List.forall_mem_cons, Json.norm, htext _ h.nodeId,
    htext _ h.keyId, htext _ h.eventHash, htext _ h.record] at hlookup
  obtain ⟨hnode, hkey, hsequence, hhash, hoffset, hrecord, -⟩ := hlookup
  have hnamed : (requiredFields.all fun f => (kvs.lookup (.str f)).isSome) ∧
      isText nodeId (Models.field kvs "node_id") := by
    simp [requiredFields, Models.field, isText, hnode, hsequence, hhash, hoffset, hrecord]
  rw [readJournal, if_neg (Nat.not_lt.mpr hlength), hread]
  dsimp only [bind, Except.bind]
  rw [journalOf, if_pos hnamed]
  simp only [Models.field, hkey, hsequence, hhash, hoffset, hrecord]
  rfl

/-- A piece from the front of a journal is no JSON. -/
theorem readJson_torn {py : Interp} {text p r : Str}
    (ht : dump Style.default 0 (Value.ofMembers
      (journalMembers nodeId keyId sequence eventHash offset record writtenAt)) = .ok text)
    (hp : text = p ++ r) (hr : r ≠ []) :
    readJson py (Utf8.encodeAll p) = .ok .unreadable := by
  have hprinted : ∀ c ∈ p, PrintableLine c := fun c hc =>
    h.printable ht c (hp ▸ List.mem_append_left r hc)
  have hflat : ∀ q ∈ (journalMembers nodeId keyId sequence eventHash offset record writtenAt).map
      fun p => (Key.str p.1, p.2), q.2.Flat := by
    simp only [journalMembers, List.map_cons, List.map_nil, List.forall_mem_cons]
    exact ⟨trivial, trivial, trivial, trivial, trivial, trivial, trivial, by simp⟩
  have hload : loads py.jsonLimit p = .error .decode := by
    apply loads_torn Style.printed_default.valid h.writable (by simp [journalMembers]) hflat
    · have hnest : (Value.ofMembers (journalMembers nodeId keyId sequence eventHash offset record
          writtenAt)).nest = 1 := rfl
      have hlimit := py.jsonLimit_le
      exact hnest.le.trans (by omega)
    · exact ht
    · exact hp
    · exact hr
  rw [readJson, Utf8.decodeStrict_encodeAll (printableLine_scalar hprinted)]
  dsimp only
  rw [universalNewlines_eq_self (printableLine_cr hprinted), hload]

/-- Whatever part of a journal was written, the only entry that it can hold is the one that was
to be written. -/
theorem entry_eq {py : Interp} {text : Str}
    (ht : dump Style.default 0 (Value.ofMembers
      (journalMembers nodeId keyId sequence eventHash offset record writtenAt)) = .ok text)
    {b : Bytes} (hb : b <+: Utf8.encodeAll text) {e : JournalEntry}
    (he : readJournal py nodeId b = .ok (.entry e)) :
    e = ⟨sequence, offset, record ++ [lf], eventHash, .str keyId⟩ := by
  have hlength : b.length ≤ maxJournalBytes := by
    by_contra hlong
    rw [readJournal, if_pos (Nat.lt_of_not_le hlong)] at he
    cases he
  obtain ⟨p, r, hp, rfl⟩ := Utf8.exists_of_prefix_ascii (fun c hc => by
    rcases h.printable ht c hc with hc | rfl
    · exact Nat.lt_trans hc.2 (by decide)
    · decide) hb
  by_cases hr : r = []
  · obtain rfl : text = p := by rw [hp, hr, List.append_nil]
    rw [h.readJournal_text ht hlength] at he
    exact (Journal.entry.inj (Except.ok.inj he)).symm
  · rw [readJournal, if_neg (Nat.not_lt.mpr hlength), h.readJson_torn ht hp hr] at he
    cases he

end JournalWritable

/-- What a journal holds, within the bounds that the signer keeps. -/
structure JournalFits (nodeId keyId eventHash record writtenAt : Str) (sequence : Int)
    (offset : Nat) : Prop where
  nodeId : ShortText 128 nodeId
  keyId : ShortText 128 keyId
  eventHash : ShortText 65 eventHash
  writtenAt : ShortText 27 writtenAt
  scalar : Scalar record
  length : byteLength record ≤ 110000
  sequence : (Decimal.natText sequence.natAbs).length ≤ 19
  offset : (Decimal.natText offset).length ≤ 19

namespace JournalFits

variable {nodeId keyId eventHash record writtenAt : Str} {sequence : Int} {offset : Nat}
  (h : JournalFits nodeId keyId eventHash record writtenAt sequence offset)
include h

theorem writable : JournalWritable nodeId keyId eventHash record sequence offset where
  nodeId := h.nodeId.2
  keyId := h.keyId.2
  eventHash := h.eventHash.2
  record := h.scalar
  sequence := h.sequence.trans (by decide)
  offset := h.offset.trans (by decide)

/-- The journal is within the bound, with room to spare. -/
theorem length_le {text : Str}
    (ht : dump Style.default 0 (Value.ofMembers
      (journalMembers nodeId keyId sequence eventHash offset record writtenAt)) = .ok text) :
    (Utf8.encodeAll text).length ≤ maxJournalBytes := by
  have hlength := dump_ofMembers_length (by simp [journalMembers]) (fun p hp t => dump_member hp) ht
  have hnode := quote_shortText h.nodeId
  have hkey := quote_shortText h.keyId
  have hhash := quote_shortText h.eventHash
  have htime := quote_shortText h.writtenAt
  have hrecord := quote_ascii_length record
  have hbytes := h.length
  have hsequence := intText_length_le h.sequence
  have hoffset : (Decimal.intText offset).length ≤ 20 := intText_length_le h.offset
  have hnames : ∀ f ∈ (journalMembers nodeId keyId sequence eventHash offset record writtenAt).map
      Prod.fst, (quote true f).length ≤ 13 := by
    rw [journalMembers_keys]
    decide
  have hcomma : (lit ", ").length = 2 := by decide
  have hcolon : (lit ": ").length = 2 := by decide
  simp only [journalMembers, List.map_cons, List.map_nil, List.forall_mem_cons] at hnames
  simp only [journalMembers, List.map_cons, List.map_nil, List.sum_cons, List.sum_nil, memberWidth,
    Style.default, Style.newline, List.append_nil, List.length_nil, hcomma, hcolon] at hlength
  apply (byteLength_printableLine (h.writable.printable ht)).trans_le
  simp only [maxJournalBytes]
  omega

end JournalFits

/-! ## The journal of a record -/

/-- What `build_unsigned` returns is completed and written as one line. -/
theorem exists_line {py : Interp} {nodeId timestamp previousHash keyId algorithm hashName : Str}
    {sequence : Int} {event : Value} {unsigned : SignedEvent} {raw : Bytes}
    (hu : buildUnsigned py nodeId sequence timestamp previousHash event keyId algorithm hashName =
      .ok unsigned) (hraw : raw.length ≤ 4627) :
    ∃ e line, completed py unsigned raw = .ok e ∧ e.toJsonLine = .ok line ∧ Fits e ∧
      dump Style.compact 0 (Value.ofMembers e.toDict) = .ok line := by
  have hb := buildUnsigned_eq_ok.mp hu
  obtain ⟨hash, hhash, hdigest⟩ := hb.hash
  have hf := hb.fits hdigest hraw
  obtain ⟨line, hline⟩ := hf.encodable.dump 0 0
  exact ⟨_, line, bind_eq_ok.mpr ⟨hash, hhash, rfl⟩, toJsonLine_of_encodable hf.encodable hline, hf,
    hline⟩

/-- A record that the signer completes fits into a journal. -/
theorem journalFits_completed {py : Interp} {nodeId timestamp previousHash keyId algorithm
    hashName : Str} {sequence : Int} {event : Value} {unsigned e : SignedEvent} {raw : Bytes}
    {line : Str} {offset : Nat} {storeNode storeKey : Str}
    (hu : buildUnsigned py nodeId sequence timestamp previousHash event keyId algorithm hashName =
      .ok unsigned) (hraw : raw.length ≤ 4627)
    (he : completed py unsigned raw = .ok e) (hline : e.toJsonLine = .ok line)
    (hoffset : offset < 2 ^ 63) (hnode : validateIdentifier (.str storeNode) = .ok storeNode)
    (hkey : validateIdentifier (.str storeKey) = .ok storeKey) (time : Instant) :
    JournalFits storeNode storeKey e.eventHash line (time.text py.padYears ++ [cp 'Z']) e.sequence
      offset := by
  obtain ⟨e', line', he', hline', hf, ht⟩ := exists_line hu hraw
  obtain rfl := Except.ok.inj (he.symm.trans he')
  obtain rfl := Except.ok.inj (hline.symm.trans hline')
  exact
    { nodeId := shortText_identifier hnode
      keyId := shortText_identifier hkey
      eventHash := shortText_hash hf.eventHash
      writtenAt := shortText_instant py time
      scalar := fun c hc => (hf.encodable.plain ht c hc).2
      length := hf.byteLength_line ht
      sequence := sequence_digits hf.sequence
      offset := Decimal.natText_length_le (by decide) (hoffset.trans (by decide)) }

/-- The journal of a record that the signer completes is within the bound, is read back as the
sequence, the offset, the hash and the text of the record, and is taken for the entry of an
append by a recovery of the same node. -/
theorem journal_fits (py : Interp) (limit : Nat) (w : World Fs Disk) (hw : Mild limit w)
    (o : EvidenceStore) (d : Disk) (nodeId timestamp previousHash keyId algorithm hashName : Str)
    (sequence : Int) (event : Value) (unsigned e : SignedEvent) (raw : Bytes) (line : Str)
    (offset : Nat) (k : Option Str)
    (hu : buildUnsigned py nodeId sequence timestamp previousHash event keyId algorithm hashName =
      .ok unsigned) (hraw : raw.length ≤ 4627)
    (he : completed py unsigned raw = .ok e) (hline : e.toJsonLine = .ok line)
    (hoffset : offset < 2 ^ 63) (hnode : validateIdentifier (.str o.nodeId) = .ok o.nodeId)
    (hkey : validateIdentifier (.str (ownKey k o.keyId)) = .ok (ownKey k o.keyId)) :
    (writeJournal py e.sequence e.eventHash offset line k).Safe w (fun _ => True)
      (fun r _ d' => r = .ok () ∧ ∃ b, d' = { d with journal := some b } ∧
        b.length ≤ maxJournalBytes ∧
        readJournal py o.nodeId b = .ok (.entry ⟨e.sequence, offset, line ++ [lf], e.eventHash,
          .str (ownKey k o.keyId)⟩) ∧
        ∀ p : EvidenceStore, p.nodeId = o.nodeId →
          replayJournal py b p = settle py ⟨e.sequence, offset, line ++ [lf], e.eventHash,
            .str (ownKey k o.keyId)⟩ p) o d := by
  simp only [writeJournal, safe_bind, safe_self, Then, safe_sys_now hw, true_and]
  intro time
  have hfits := journalFits_completed hu hraw he hline hoffset hnode hkey time
  obtain ⟨text, htext⟩ := dump_journalMembers o.nodeId (ownKey k o.keyId) e.eventHash line
    (time.text py.padYears ++ [cp 'Z']) (hfits.sequence.trans (by decide))
    (hfits.offset.trans (by decide))
  have hbytes := hfits.length_le htext
  have hread : readJournal py o.nodeId (Utf8.encodeAll text) = _ :=
    hfits.writable.readJournal_text htext hbytes
  simp only [safe_sys_createJournal hw, Then, htext, safe_bind, safe_attempt,
    safe_sys_writeJournal hw, safe_pure, true_and, implies_true]
  refine ⟨_, rfl, hbytes, hread, fun p hp => ?_⟩
  unfold replayJournal
  change (ofExcept (readJournal py p.nodeId (Utf8.encodeAll text)) >>= fun j => _) p = _
  rw [hp, hread]
  rfl

/-- The journal of a record with a nested event fits. -/
theorem journal_fits_sample :
    ∃ unsigned e line, buildUnsigned .reference (lit "n") 1 sampleTime zeroHash sampleEvent
        (lit "k") (lit "ML-DSA-65") (lit "SHA3-256") = .ok unsigned ∧
      completed .reference unsigned [0x70, 0x6B] = .ok e ∧ e.toJsonLine = .ok line ∧
      (writeJournal .reference e.sequence e.eventHash 0 line none).Safe (reliable 1000)
        (fun _ => True)
        (fun r _ d' => r = .ok () ∧ ∃ b, d' = { empty with journal := some b } ∧
          b.length ≤ maxJournalBytes ∧
          readJournal .reference (lit "n") b = .ok (.entry ⟨e.sequence, (0 : Nat), line ++ [lf],
            e.eventHash, .str (lit "k")⟩) ∧
          ∀ p : EvidenceStore, p.nodeId = lit "n" →
            replayJournal .reference b p = settle .reference ⟨e.sequence, (0 : Nat), line ++ [lf],
              e.eventHash, .str (lit "k")⟩ p)
        (create (lit "n") (lit "k")) empty := by
  cases hu : buildUnsigned .reference (lit "n") 1 sampleTime zeroHash sampleEvent (lit "k")
      (lit "ML-DSA-65") (lit "SHA3-256") with
  | error x =>
      have hsome := buildUnsigned_sample
      rw [hu] at hsome
      cases hsome
  | ok unsigned =>
      have hraw : ([0x70, 0x6B] : Bytes).length ≤ 4627 := by decide
      obtain ⟨e, line, he, hline, -⟩ := exists_line hu hraw
      have hnode : validateIdentifier (.str (lit "n")) = .ok (lit "n") := by decide
      have hkey : validateIdentifier (.str (lit "k")) = .ok (lit "k") := by decide
      exact ⟨unsigned, e, line, rfl, he, hline,
        journal_fits .reference 1000 (reliable 1000) (mild_reliable 1000)
          (create (lit "n") (lit "k")) empty (lit "n") sampleTime zeroHash (lit "k")
          (lit "ML-DSA-65") (lit "SHA3-256") 1 sampleEvent unsigned e [0x70, 0x6B] line 0 none hu
          hraw he hline (by decide) hnode hkey⟩

end EvidenceStore

end IcsDeception
