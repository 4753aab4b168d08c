import IcsDeception.CrashSafety
import IcsDeception.SignLog
import IcsDeception.StreamSpec

/-!
# The log of a node is verified

Whatever the crashes on the way, the log that the signers of a node leave is accepted by a
collector that trusts their keys: the signer, the store and the collector fit together.

## Implementation notes

The collector reads a record back from its line, with the event as JSON. Its payloads are
those over which the signer computed the hash and the signature, because both sides write
the one canonical form of the one JSON value.
-/

namespace IcsDeception

open Text Json Models EnvelopeRoundTrip Canonicalizer

/-! ## The payloads of a record that is read back -/

theorem distinct_of_mem {ms : List (Str × Value)} (h : (Value.ofMembers ms).Distinct) :
    ∀ p ∈ ms, p.2.Distinct := by
  rw [Value.ofMembers, Value.Distinct, Value.distinctMembers_iff] at h
  exact fun p hp => h.2 (Key.str p.1, p.2) (List.mem_map_of_mem hp)

/-- Members whose values are read back have the canonical form of the members. -/
theorem canonicalBytes_readBack (py : Interp) {ms : List (Str × Value)} {b : Bytes}
    (hkeys : (ms.map Prod.fst).Nodup) (hd : (Value.ofMembers ms).Distinct)
    (h : canonicalBytes (Value.ofMembers ms) = .ok b) :
    canonicalBytes (Value.ofMembers (ms.map fun p => (p.1, norm Style.compact p.2))) = .ok b := by
  obtain ⟨henc, t, ht, rfl⟩ := canonicalBytes_eq_ok.mp h
  have hmembers : normMembers Style.compact (ms.map fun p => (Key.str p.1, p.2)) =
      ms.map fun p => (p.1, norm Style.compact p.2) := normMembers_ofMembers rfl ms
  have hnames : ((ms.map fun p => (p.1, norm Style.compact p.2)).map Prod.fst).Nodup := by
    rw [List.map_map]
    exact hkeys
  have hdistinct :
      (Value.ofMembers (ms.map fun p => (p.1, norm Style.compact p.2))).Distinct := by
    obtain ⟨hread, -⟩ := canonicalBytes_norm py hd h
    rw [Value.ofMembers, Json.norm, hmembers] at hread
    apply Value.distinct_ofMembers hnames
    intro p hp
    exact distinct_of_mem hread p ((Style.compact.order_perm _).symm.subset hp)
  have hsame : Same (Value.ofMembers ms)
      (Value.ofMembers (ms.map fun p => (p.1, norm Style.compact p.2))) := by
    refine ⟨_, rfl, sameMembers_norm rfl _ _ (henc.writable 0 _ hd).2 hnames ?_, ?_⟩
    · intro p hp
      rwa [hmembers] at hp
    · intro k hk
      rw [List.map_map, List.map_map] at hk
      rw [List.map_map]
      exact hk
  have hread : Encodable 0 (Value.ofMembers (ms.map fun p => (p.1, norm Style.compact p.2))) := by
    refine ⟨by decide, encodableMembers_ofMembers.mpr fun p hp => ?_⟩
    obtain ⟨q, hq, rfl⟩ := List.mem_map.mp hp
    obtain ⟨htext, hvalue⟩ := encodableMembers_ofMembers.mp henc.2 q hq
    exact ⟨htext, hvalue.norm 1 q.2⟩
  obtain ⟨u, hu⟩ := hread.dump 0 0
  rw [dump_eq_of_same rfl 0 _ _ t u hsame hd hdistinct ht hu]
  exact canonicalBytes_eq_ok.mpr ⟨hread, u, hu, rfl⟩

/-- A record without some of its fields has one canonical form with its event as given and with
its event as it is read back. -/
theorem canonicalBytes_without (py : Interp) {e : SignedEvent} {excluded : List Str} {b : Bytes}
    (hd : (Value.dict e.event).Distinct) (h : canonicalBytes (e.without excluded) = .ok b) :
    canonicalBytes ((readBack e).without excluded) = .ok b := by
  have hmembers : ((readBack e).toDict.filter fun p => p.1 ∉ excluded) =
      (e.toDict.filter fun p => p.1 ∉ excluded).map fun p => (p.1, norm Style.compact p.2) := by
    rw [toDict_readBack, List.filter_map]
    rfl
  have hkeys : ((e.toDict.filter fun p => p.1 ∉ excluded).map Prod.fst).Nodup :=
    (envelopeFields_nodup.sublist ((toDict_keys e) ▸ (List.filter_sublist.map Prod.fst)))
  rw [SignedEvent.without, hmembers]
  apply canonicalBytes_readBack py hkeys _ h
  apply Value.distinct_ofMembers hkeys
  intro p hp
  exact distinct_of_mem (distinct_toDict hd) p (List.mem_filter.mp hp).1

namespace EvidenceSigner

open EvidenceStore EventChain Disk

/-! ## What a signer writes -/

/-- A record as a signer writes it at a place of the chain. -/
structure Wrote (py : Interp) (s : EvidenceSigner) (event : Value) (timestamp previous : Str)
    (entry : Entry) (e : SignedEvent) : Prop where
  complete : Complete py e
  hash : computeEventHash py e = .ok e.eventHash
  signed : ∃ payload, e.signingPayload = .ok payload ∧ s.sign payload = .ok e.signatureBytes
  line : e.toJsonLine = .ok entry.record
  eventHash : e.eventHash = entry.eventHash
  digest : IsDigest e.eventHash
  sequence : e.sequence = entry.sequence
  previousEventHash : e.previousEventHash = previous
  nodeId : e.nodeId = s.nodeId
  keyId : e.keyId = s.keyId
  algorithm : SignatureAlgorithm.ofText? s.algorithm = some e.signatureAlgorithm
  timestamp : normalizeTimestamp py (.str timestamp) = .ok e.timestamp
  event : event = .dict e.event

/-- The verifier has a key of this name, and it verifies what the signer signs. -/
def Trusted (py : Interp) (verifier : EvidenceVerifier) (s : EvidenceSigner) : Prop :=
  ∃ record key, verifier.registry.get s.keyId = some record ∧ record.publicKeyBytes py = .ok key ∧
    ∀ algorithm payload raw, SignatureAlgorithm.ofText? s.algorithm = some algorithm →
      s.sign payload = .ok raw → verifier.backend.verify key payload raw algorithm = .ok true

/-- The key of the signer may be used at this time. -/
def Usable (py : Interp) (verifier : EvidenceVerifier) (s : EvidenceSigner) (timestamp : Str) :
    Prop :=
  ∀ t algorithm, normalizeTimestamp py (.str timestamp) = .ok t →
    SignatureAlgorithm.ofText? s.algorithm = some algorithm →
      ∃ u, verifier.registry.checkUsable py s.keyId s.nodeId t algorithm = .ok u ∧ u.usable = true

variable {py : Interp} {s : EvidenceSigner} {event : Value} {timestamp previous : Str}
  {entry : Entry} {e : SignedEvent}

/-- What a signer builds is such a record, when its signatures are no longer than one. -/
theorem wrote_of_builder (hshort : ∀ payload raw, s.sign payload = .ok raw → raw.length ≤ 4627)
    (hd : event.Distinct) (hyear : ∀ i, utcInstant py timestamp = some i → 1000 ≤ i.year)
    (h : s.builder py event timestamp entry.sequence previous = .ok (entry.record, entry.eventHash)) :
    ∃ e, Wrote py s event timestamp previous entry e := by
  obtain ⟨e, he, h⟩ := bind_eq_ok.mp h
  obtain ⟨line, hline, h⟩ := bind_eq_ok.mp h
  obtain ⟨rfl, hentry⟩ := Prod.mk.inj (Except.ok.inj h)
  obtain ⟨unsigned, hu, he⟩ := bind_eq_ok.mp he
  obtain ⟨hash, hhash, he⟩ := bind_eq_ok.mp he
  dsimp only at he
  obtain ⟨raw, hraw, he⟩ := bind_eq_ok.mp he
  split_ifs at he with hne
  obtain rfl := Except.ok.inj he
  have hsigned : ∃ payload, (unsigned.withEventHash hash).signingPayload = .ok payload ∧
      s.sign payload = .ok raw := by
    cases hb : (unsigned.withEventHash hash).signingPayload >>= s.sign with
    | error x =>
        rw [hb] at hraw
        cases x <;> cases hraw
    | ok b =>
        rw [hb] at hraw
        obtain rfl := Except.ok.inj hraw
        exact bind_eq_ok.mp hb
  obtain ⟨payload, hpayload, hsign⟩ := hsigned
  have hbuilt := buildUnsigned_eq_ok.mp hu
  obtain ⟨hash', hhash', hdigest⟩ := hbuilt.hash
  obtain rfl := Except.ok.inj (hhash.symm.trans hhash')
  obtain ⟨e, he, hcomplete, -⟩ := completed_of_buildUnsigned hu hd hyear hne (hshort _ _ hsign)
  obtain ⟨hash', hhash', he⟩ := bind_eq_ok.mp he
  obtain rfl := Except.ok.inj (hhash.symm.trans hhash')
  obtain rfl := Except.ok.inj he
  -- the envelope that was built determines the fields of the record
  have henvelope := hbuilt.envelope
  exact ⟨_,
    { complete := hcomplete
      hash := hhash
      signed := ⟨payload, hpayload, hsign⟩
      line := hline
      eventHash := hentry
      digest := hdigest
      sequence := by rw [henvelope]; rfl
      previousEventHash := by rw [henvelope]; rfl
      nodeId := by rw [henvelope]; rfl
      keyId := by rw [henvelope]; rfl
      algorithm := hbuilt.signatureAlgorithm
      timestamp := hbuilt.timestamp
      event := hbuilt.event }⟩

namespace Wrote

variable (h : Wrote py s event timestamp previous entry e)
include h

/-- The text of the record. -/
theorem dump : Json.dump Style.compact 0 (Value.ofMembers e.toDict) = .ok entry.record := by
  obtain ⟨t, ht⟩ := h.complete.fits.encodable.dump 0 0
  have hline := h.complete.valid.toJsonLine_eq ht
  obtain rfl := Except.ok.inj (h.line.symm.trans hline)
  exact ht

theorem plain : ∀ c ∈ entry.record, Json.Plain c := h.complete.fits.encodable.plain h.dump

/-- The record stands on its line without whitespace around it. -/
theorem strip_record : strip entry.record = entry.record ∧ entry.record ≠ [] := by
  obtain ⟨m, hm⟩ := dump_dict_ends h.dump
  have hlast : entry.record.getLast? = some (cp '\x7d') := by
    rw [hm, List.getLast?_cons, List.getLast?_append]
    rfl
  have hne : entry.record ≠ [] := by
    rw [hm]
    exact List.cons_ne_nil _ _
  refine ⟨strip_eq_self ?_ ?_ hne, hne⟩
  · rw [hm]
    rintro c ⟨⟩
    decide
  · rw [hlast]
    rintro c ⟨⟩
    decide

/-- A store finds the record again. -/
theorem legal : Legal py s.nodeId entry where
  scalar := scalar_of_plain h.plain
  lf_notMem hmem := absurd (h.plain _ hmem).1 (by decide)
  cr_notMem hmem := absurd (h.plain _ hmem).1 (by decide)
  found := by
    have hkeys : ((Style.compact.order (readBack e).toDict).map Prod.fst).Nodup := by
      rw [((Style.compact.order_perm _).map Prod.fst).nodup_iff, toDict_keys]
      exact envelopeFields_nodup
    have hlookup : ∀ p ∈ (readBack e).toDict, ((Style.compact.order (readBack e).toDict).map
        fun p => (Key.str p.1, p.2)).lookup (.str p.1) = some p.2 :=
      fun p hp => lookup_textKey hkeys ((Style.compact.order_perm _).symm.subset hp)
    have hread := loadsWith_canonical py Hooks.plain_default h.complete.fits.encodable
      (distinct_toDict h.complete.distinct) h.dump
    rw [norm_toDict] at hread
    have hnode := hlookup (lit "node_id", .str e.nodeId) (by simp [readBack, SignedEvent.toDict])
    have hsequence := hlookup (lit "sequence", .int e.sequence)
      (by simp [readBack, SignedEvent.toDict])
    have hhash := hlookup (lit "event_hash", .str e.eventHash)
      (by simp [readBack, SignedEvent.toDict])
    rw [recordIn, h.strip_record.1, loads, hread]
    dsimp only [Value.ofMembers, loggedOf]
    rw [hnode, hsequence, hhash]
    dsimp only
    rw [if_pos h.nodeId, h.sequence, h.eventHash]
    rfl
  digest := h.eventHash ▸ h.digest
  length := h.complete.fits.byteLength_line h.dump
  sequence := by
    rw [← h.sequence]
    exact sequence_digits h.complete.sequence

/-- The record is read back with the payloads that the signer computed. -/
theorem payloads : (∀ b, e.hashPayload = .ok b → (readBack e).hashPayload = .ok b) ∧
    ∀ b, e.signingPayload = .ok b → (readBack e).signingPayload = .ok b :=
  ⟨fun _ hb => canonicalBytes_without py h.complete.distinct hb,
    fun _ hb => canonicalBytes_without py h.complete.distinct hb⟩

/-- The record is sound for a verifier with which the key of the signer is registered. -/
theorem sound {verifier : EvidenceVerifier} (htrusted : Trusted py verifier s)
    (hkey : Usable py verifier s timestamp) : Sound py verifier (readBack e) := by
  obtain ⟨record, key, hget, hbytes, hverify⟩ := htrusted
  obtain ⟨payload, hpayload, hsign⟩ := h.signed
  refine ⟨?_, ?_, record, key, payload, ?_, hbytes, h.payloads.2 _ hpayload, ?_⟩
  · obtain ⟨b, hb, hhash⟩ := bind_eq_ok.mp h.hash
    exact bind_eq_ok.mpr ⟨b, h.payloads.1 _ hb, hhash⟩
  · have hu := hkey _ _ h.timestamp h.algorithm
    rw [← h.keyId, ← h.nodeId] at hu
    exact hu
  · rw [← h.keyId] at hget
    exact hget
  · exact hverify _ _ _ h.algorithm hsign

end Wrote

/-- A signing of an event for a node, by a signer that the verifier trusts. -/
structure Signing (py : Interp) (verifier : EvidenceVerifier) (nodeId : Str) (s : EvidenceSigner)
    (event : Value) (timestamp : Str) : Prop where
  node : s.nodeId = nodeId
  distinct : event.Distinct
  short : ∀ payload raw, s.sign payload = .ok raw → raw.length ≤ 4627
  year : ∀ i, utcInstant py timestamp = some i → 1000 ≤ i.year
  trusted : Trusted py verifier s
  usable : Usable py verifier s timestamp

/-- What the stores of a node are given to build their records with. -/
def Signings (py : Interp) (verifier : EvidenceVerifier) (nodeId : Str) (build : Build) : Prop :=
  ∃ (s : EvidenceSigner) (event : Value) (timestamp : Str),
    Signing py verifier nodeId s event timestamp ∧ build = s.builder py event timestamp

/-- What a verifier reads of a record, and where it stands in the chain of its node. -/
structure ReadAs (py : Interp) (verifier : EvidenceVerifier) (nodeId previous : Str) (entry : Entry)
    (e : SignedEvent) : Prop where
  line : strip entry.record = entry.record ∧ entry.record ≠ []
  parses : parseSignedEventJson py verifier.maxRecordBytes true (.text entry.record) = .ok e
  sound : Sound py verifier e
  nodeId : e.nodeId = nodeId
  sequence : e.sequence = entry.sequence
  previousEventHash : e.previousEventHash = previous
  eventHash : e.eventHash = entry.eventHash

/-- The records that are built are legal, and the verifier reads them as sound ones. -/
theorem builds_signings {verifier : EvidenceVerifier} (hsize : 110000 ≤ verifier.maxRecordBytes)
    {nodeId : Str} {build : Build} (h : Signings py verifier nodeId build) :
    Builds py nodeId (fun previous entry => ∃ e, ReadAs py verifier nodeId previous entry e)
      build := by
  obtain ⟨s, event, timestamp, hs, rfl⟩ := h
  obtain rfl := hs.node
  intro sequence previous record eventHash hbuild
  have hwrote : ∃ e, Wrote py s event timestamp previous ⟨sequence, record, eventHash⟩ e :=
    wrote_of_builder hs.short hs.distinct hs.year hbuild
  obtain ⟨e, he⟩ := hwrote
  have hread : ReadAs py verifier s.nodeId previous ⟨sequence, record, eventHash⟩ (readBack e) :=
    { line := he.strip_record
      parses := he.complete.valid.parse he.dump (he.legal.length.trans hsize)
      sound := he.sound hs.trusted hs.usable
      nodeId := he.nodeId
      sequence := he.sequence
      previousEventHash := he.previousEventHash
      eventHash := he.eventHash }
  exact ⟨⟨_, hread⟩, he.legal⟩

/-! ## The log as a stream -/

variable {verifier : EvidenceVerifier} {nodeId : Str} {rs : List Entry} {es : List SignedEvent}

/-- The records of a log, as the verifier reads them. -/
structure Stream (py : Interp) (verifier : EvidenceVerifier) (nodeId : Str) (rs : List Entry)
    (es : List SignedEvent) : Prop where
  parses : (rs.map fun entry => parseSignedEventJson py verifier.maxRecordBytes true
    (.text entry.record)) = es.map .ok
  lines : ∀ entry ∈ rs, strip entry.record = entry.record ∧ entry.record ≠ []
  sound : ∀ e ∈ es, Sound py verifier e
  node : ∀ e ∈ es, e.nodeId = nodeId
  acknowledged : es.map (fun e => (e.sequence, e.eventHash)) = rs.map Entry.acknowledged
  chain : IcsDeception.Chain py nodeId es

theorem Stream.length (h : Stream py verifier nodeId rs es) : es.length = rs.length := by
  have hlength := congrArg List.length h.acknowledged
  rwa [List.length_map, List.length_map] at hlength

theorem Stream.getLast? (h : Stream py verifier nodeId rs es) :
    es.getLast?.map SignedEvent.eventHash = rs.getLast?.map Entry.eventHash := by
  have hlast := congrArg (fun l => l.getLast?.map Prod.snd) h.acknowledged
  simp only [List.getLast?_map, Option.map_map] at hlast
  exact hlast

/-- A record with the expected place and link extends a chain. -/
theorem chain_snoc (h : IcsDeception.Chain py nodeId es)
    (hhash : ∀ x ∈ es, computeEventHash py x = .ok x.eventHash) (hnode : e.nodeId = nodeId)
    (hsequence : e.sequence = es.length + 1)
    (hprevious : expectedPreviousHash py nodeId e.sequence
      (es.getLast?.map SignedEvent.eventHash) = .ok e.previousEventHash) :
    IcsDeception.Chain py nodeId (es ++ [e]) := by
  -- a tracker at the end of the chain, with empty tables
  have htracks : Tracks py ⟨⟨es.length, es.getLast?.map SignedEvent.eventHash⟩, [], [], false⟩ es :=
    ⟨rfl, rfl, by simp, by simp, Nat.zero_le _⟩
  refine (chain_append h htracks hhash hnode).mpr ⟨hsequence, ?_, ?_⟩
  · intro hfirst
    have hgenesis : genesisPreviousHash py nodeId = .ok e.previousEventHash :=
      (if_pos hfirst).symm.trans hprevious
    refine ⟨?_, hnode ▸ hgenesis⟩
    rw [hfirst, firstSequence] at hsequence
    dsimp only
    omega
  · intro hlater last hlast
    dsimp only at hlast
    unfold expectedPreviousHash at hprevious
    rw [if_neg hlater, hlast] at hprevious
    exact (Except.ok.inj hprevious).symm

/-- Records that link one to the next are read as a chain. -/
theorem stream_of_succession
    (h : Succession py nodeId (fun previous entry => ∃ e, ReadAs py verifier nodeId previous entry e)
      rs) : ∃ es, Stream py verifier nodeId rs es := by
  induction h with
  | nil =>
      refine ⟨[], rfl, ?_, ?_, ?_, rfl, chain_nil py nodeId⟩
      all_goals exact fun _ h => nomatch h
  | @snoc rs entry previous hrs hsequence hprevious hbuilt hlegal ih =>
      obtain ⟨es, hes⟩ := ih
      obtain ⟨e, he⟩ := hbuilt
      refine ⟨es ++ [e], ?_, ?_, ?_, ?_, ?_, ?_⟩
      · rw [List.map_append, List.map_append, hes.parses, List.map_singleton, he.parses]
        rfl
      · exact List.forall_mem_append.mpr ⟨hes.lines, List.forall_mem_singleton.mpr he.line⟩
      · exact List.forall_mem_append.mpr ⟨hes.sound, List.forall_mem_singleton.mpr he.sound⟩
      · exact List.forall_mem_append.mpr ⟨hes.node, List.forall_mem_singleton.mpr he.nodeId⟩
      · rw [List.map_append, List.map_append, hes.acknowledged, List.map_singleton, he.sequence,
          he.eventHash]
        rfl
      · refine chain_snoc hes.chain (fun x hx => (hes.sound x hx).hash) he.nodeId ?_ ?_
        · rw [he.sequence, hsequence, hes.length]
        · rw [he.sequence, hes.getLast?, he.previousEventHash]
          exact hprevious

/-- Such a log is a genuine stream of the records. -/
theorem Stream.genuine (h : Stream py verifier nodeId rs es) (hlegal : ∀ e ∈ rs, Legal py nodeId e) :
    Genuine py verifier ((logLines (logOf rs)).map .text) es := by
  have hstrip : ((logLines (logOf rs)).map Line.text).map EvidenceCollector.stripLine =
      rs.map fun entry => .text entry.record := by
    rw [logLines_logOf hlegal, List.map_map, List.map_map]
    apply List.map_congr_left
    intro entry hentry
    simp only [Function.comp_apply, EvidenceCollector.stripLine, strip_append_lf,
      (h.lines entry hentry).1]
  have hlines : nonBlank ((logLines (logOf rs)).map .text) =
      rs.map fun entry => .text entry.record := by
    rw [nonBlank, hstrip]
    apply List.filter_eq_self.mpr
    intro line hline
    obtain ⟨entry, hentry, rfl⟩ := List.mem_map.mp hline
    have hne := (h.lines entry hentry).2
    exact decide_eq_true (fun hzero => hne (List.length_eq_zero_iff.mp hzero))
  refine ⟨?_, h.sound, fun node => ?_⟩
  · rw [hlines, List.map_map]
    exact h.parses
  · by_cases hn : node = nodeId
    · rw [ofNode, List.filter_eq_self.mpr fun e he => decide_eq_true ((h.node e he).trans hn.symm), hn]
      exact h.chain
    · have hnone : ofNode node es = [] :=
        List.filter_eq_nil_iff.mpr fun e he heq =>
          hn ((of_decide_eq_true heq).symm.trans (h.node e he))
      rw [hnone]
      exact chain_nil py node

/-! ## The number of records that a report counts -/

theorem verifyStep_total {c : EvidenceCollector} {st st' : EvidenceCollector.StreamState} {raw : Line}
    (h : EvidenceCollector.verifyStep py c st raw = .ok st') :
    st'.2.total = st.2.total + (nonBlank [raw]).length := by
  have hone : (nonBlank [raw]).length =
      if EvidenceCollector.lineLength (EvidenceCollector.stripLine raw) = 0 then 0 else 1 := by
    rw [nonBlank_cons]
    split_ifs <;> rfl
  rw [hone]
  unfold EvidenceCollector.verifyStep EvidenceCollector.verifyStepWithin at h
  simp only at h
  split_ifs at h ⊢ with hblank hlong
  · obtain rfl := Except.ok.inj h
    rfl
  · obtain rfl := Except.ok.inj h
    exact (record_counts c _ _).2.1
  · obtain ⟨⟨result, event⟩, -, h⟩ := bind_eq_ok.mp h
    cases event with
    | none =>
        obtain rfl := Except.ok.inj h
        exact (record_counts c _ _).2.1
    | some e =>
        obtain ⟨⟨trackers, r⟩, -, h⟩ := bind_eq_ok.mp h
        obtain rfl := Except.ok.inj h
        dsimp only [EvidenceCollector.countResult]
        rw [(record_counts c _ _).2.1]
        split_ifs <;> rfl

/-- The total of a report is the number of lines that are not blank. -/
theorem verifyLoop_total {c : EvidenceCollector} {lines : List Line}
    {st st' : EvidenceCollector.StreamState} (h : EvidenceCollector.verifyLoop py c lines st = .ok st') :
    st'.2.total = st.2.total + (nonBlank lines).length := by
  induction lines generalizing st with
  | nil =>
      obtain rfl := Except.ok.inj h
      rfl
  | cons raw rest ih =>
      obtain ⟨mid, hstep, hrest⟩ := verifyLoop_cons.mp h
      have hsplit : nonBlank (raw :: rest) = nonBlank [raw] ++ nonBlank rest := by
        rw [nonBlank_cons, nonBlank_cons]
        split_ifs <;> rfl
      rw [ih hrest, verifyStep_total hstep, hsplit, List.length_append, Nat.add_assoc]

/-- The log of a genuine stream is reported valid, with every record verified. -/
theorem verifyFile_of_genuine {c : EvidenceCollector} {b : Bytes}
    (h : Genuine py c.verifier ((logLines b).map .text) es) (hcap : es.length ≤ maxTrackedHashes)
    (hn : NoCollision py es) :
    ∃ report, EvidenceCollector.verifyFile py c b = .ok report ∧ report.valid = true ∧
      report.verified = es.length ∧ report.failed = 0 := by
  obtain ⟨report, hreport, hvalid⟩ :=
    valid_of_genuine h (fun node => (List.length_filter_le _ _).trans hcap) hn
  obtain ⟨htally, hverdict⟩ := verifyStream_tally hreport
  have hfailed : report.failed = 0 := hverdict.mp hvalid
  obtain ⟨st, hloop, -, htotal, -, -⟩ := verifyStream_eq_ok hreport
  have hlines : (nonBlank ((logLines b).map .text)).length = es.length := by
    have hlength := congrArg List.length h.parses
    rwa [List.length_map, List.length_map] at hlength
  have hcount := verifyLoop_total hloop
  rw [← htotal, hlines, htally, hfailed] at hcount
  exact ⟨report, hreport, hvalid, by simpa [StreamReport.start] using hcount, hfailed⟩

/-- Whatever the crashes on the way, an open finds a log that is a genuine stream of the records
that the signers of the node have signed: what the appends have returned is among them, and a
file verification reports it valid with every record verified. -/
theorem signed_log_verifies {c : EvidenceCollector} (hsize : 110000 ≤ c.verifier.maxRecordBytes)
    (hnode : Name nodeId) {d d' : Disk} {acks : List (Int × Str)} {n : Nat}
    (hrun : Run py nodeId (Signings py c.verifier nodeId) .closed d acks n) {keyId : Str}
    {r : Except Exn Unit} {o : EvidenceStore}
    (he : (enter py).Ends (reliable py.fileLimit) (create nodeId keyId) d r o d') :
    ∃ es, Genuine py c.verifier ((logLines d'.logBytes).map .text) es ∧
      acks.Sublist (es.map fun e => (e.sequence, e.eventHash)) ∧ es.length ≤ acks.length + n ∧
      (es.length ≤ maxTrackedHashes → NoCollision py es →
        ∃ report, EvidenceCollector.verifyFile py c d'.logBytes = .ok report ∧
          report.valid = true ∧ report.verified = es.length ∧ report.failed = 0) := by
  obtain ⟨rs, hacc, hd⟩ := hrun.sound hnode fun build => builds_signings hsize
  obtain ⟨-, ho⟩ := (safe_enter_run hnode hacc.toLinked hd).ends he
  obtain ⟨es, hes⟩ := stream_of_succession hacc.chain
  have hgenuine := hes.genuine hacc.chain.legal
  rw [← ho.log] at hgenuine
  exact ⟨es, hgenuine, hes.acknowledged ▸ hacc.sublist, hes.length ▸ hacc.length_le,
    verifyFile_of_genuine hgenuine⟩

/-! ## A session that a crash ends -/

/-- A signer with the registered key of node `n`. -/
def registeredSigner : EvidenceSigner where
  nodeId := lit "n"
  keyId := lit "k"
  algorithm := lit "ML-DSA-65"
  hashAlgorithm := lit "SHA3-256"
  sign _ := .ok [0x70, 0x6B]

/-- A time at which the key may be used. -/
def signingTime : Str := lit "2026-01-01T00:00:00.000000Z"

set_option maxRecDepth 100000 in
theorem normalizeTimestamp_signingTime :
    normalizeTimestamp .unrolled (.str signingTime) = .ok signingTime := by
  decide +kernel

set_option maxRecDepth 100000 in
theorem utcInstant_signingTime :
    (utcInstant .unrolled signingTime).all (fun i => 1000 ≤ i.year) = true := by
  decide +kernel

set_option maxRecDepth 100000 in
theorem checkUsable_signingTime :
    (sampleCollector.verifier.registry.checkUsable .unrolled (lit "k") (lit "n") signingTime
      .mlDsa65).toOption.map KeyUsability.usable = some true := by
  decide +kernel

/-- The signer is trusted with every event. -/
theorem signing_sample {event : Value} (hdistinct : event.Distinct) :
    Signing .unrolled sampleCollector.verifier (lit "n") registeredSigner event signingTime where
  node := rfl
  distinct := hdistinct
  short payload raw h := by
    obtain rfl := Except.ok.inj h
    decide
  year i hi := by
    have hall := utcInstant_signingTime
    rw [hi] at hall
    exact of_decide_eq_true hall
  trusted := by
    refine ⟨sampleKey, [0x70, 0x6B], rfl, by decide +kernel, ?_⟩
    intro algorithm payload raw _ h
    obtain rfl := Except.ok.inj h
    rfl
  usable t algorithm ht halgorithm := by
    obtain rfl := Except.ok.inj (normalizeTimestamp_signingTime.symm.trans ht)
    have hmldsa : SignatureAlgorithm.ofText? registeredSigner.algorithm = some .mlDsa65 := by
      decide
    obtain rfl := Option.some.inj (hmldsa.symm.trans halgorithm)
    exact eq_ok_of_toOption checkUsable_signingTime

/-- A login that a decoy reports. -/
def loginEvent : Value := .dict [(.str (lit "username"), .str (lit "root"))]

/-- A write to a register. -/
def writeEvent : Value := .dict [(.str (lit "register"), .int 40), (.str (lit "value"), .int (-1))]

/-- The builder of the record of an event. -/
def sampleBuilder (event : Value) : Build := registeredSigner.builder .unrolled event signingTime

theorem signings_login :
    Signings .unrolled sampleCollector.verifier (lit "n") (sampleBuilder loginEvent) :=
  ⟨registeredSigner, loginEvent, signingTime, signing_sample ⟨by decide, trivial, trivial⟩, rfl⟩

theorem signings_write :
    Signings .unrolled sampleCollector.verifier (lit "n") (sampleBuilder writeEvent) :=
  ⟨registeredSigner, writeEvent, signingTime,
    signing_sample ⟨by decide, trivial, trivial, trivial⟩, rfl⟩

/-- A session in which two events are sealed and the append of a third is cut off. -/
def sampleSession : Option (List (Int × Str) × Disk) :=
  cutSession .unrolled (lit "n") (lit "k") [sampleBuilder loginEvent, sampleBuilder writeEvent]
    (sampleBuilder loginEvent) Disk.empty

set_option maxRecDepth 100000 in
theorem sampleSession_eq : sampleSession.map (fun p => (p.1.map Prod.fst,
      decide (p.1.map Prod.snd).Nodup,
      (nonBlank ((logLines (reopenedLog .unrolled (lit "n") (lit "k") p.2)).map .text)).length,
      p.2.logBytes.length - (reopenedLog .unrolled (lit "n") (lit "k") p.2).length)) =
    some ([1, 2], true, 2, 20) := by
  decide +kernel

/-- Two appends return and the third is cut off by a crash, which leaves 20 bytes of its record: the
next open finds the two records that were signed, and the log is reported valid. -/
theorem signed_log_verifies_sample : ∃ (d d' : Disk) (acks : List (Int × Str)),
    Run .unrolled (lit "n") (Signings .unrolled sampleCollector.verifier (lit "n")) .closed d
      acks 1 ∧
    acks.map Prod.fst = [1, 2] ∧ d.logBytes.length - d'.logBytes.length = 20 ∧
    ∃ es, Genuine .unrolled sampleCollector.verifier ((logLines d'.logBytes).map .text) es ∧
      es.map (fun e => (e.sequence, e.eventHash)) = acks ∧
      ∃ report, EvidenceCollector.verifyFile .unrolled sampleCollector d'.logBytes = .ok report ∧
        report.valid = true ∧ report.verified = 2 ∧ report.failed = 0 := by
  have hnode : Name (lit "n") := ⟨by decide, by decide, by decide⟩
  have hkey : Name (lit "k") := ⟨by decide, by decide, by decide⟩
  have hsize : 110000 ≤ sampleCollector.verifier.maxRecordBytes := by decide
  obtain ⟨⟨acks, d⟩, hcut, heq⟩ := Option.map_eq_some_iff.mp sampleSession_eq
  simp only [Prod.mk.injEq] at heq
  obtain ⟨hsequences, hnodup, hlines, htorn⟩ := heq
  have hrun : Run .unrolled (lit "n") (Signings .unrolled sampleCollector.verifier (lit "n"))
      .closed d acks 1 :=
    @run_cutSession _ _ _ (Signings .unrolled sampleCollector.verifier (lit "n")) _ _ _ _ _ hkey _
      (by simp [signings_login, signings_write]) _ signings_login .start hcut
  have he := Prog.ends_exec (w := reliable Interp.unrolled.fileLimit) (h := answering .unrolled)
    (fun _ _ => ⟨_, rfl⟩) (enter .unrolled (create (lit "n") (lit "k"))) d
  obtain ⟨es, hgenuine, hacks, -, hverified⟩ := signed_log_verifies hsize hnode hrun he
  have hcount : es.length = 2 := by
    have hlength := congrArg List.length hgenuine.parses
    rw [List.length_map, List.length_map] at hlength
    exact hlength.symm.trans hlines
  have hall : acks = es.map fun e => (e.sequence, e.eventHash) := by
    refine hacks.eq_of_length ?_
    rw [List.length_map, hcount]
    simpa using congrArg List.length hsequences
  have hhashes : (es.map SignedEvent.eventHash).Nodup := by
    have hdistinct := of_decide_eq_true hnodup
    rwa [hall, List.map_map] at hdistinct
  obtain ⟨report, hreport, hvalid, hcounted, hfailed⟩ := hverified
    (by simp [hcount, maxTrackedHashes]) (noCollision_of_sound hgenuine.sound hhashes)
  exact ⟨d, _, acks, hrun, hsequences, htorn, es, hgenuine, hall.symm, report, hreport, hvalid,
    hcounted.trans hcount, hfailed⟩

end EvidenceSigner

end IcsDeception
