import IcsDeception.Appending
import IcsDeception.EnvelopeRoundTrip
import IcsDeception.Signer

/-!
# Signing the lines of a log

When `sign_log` accounts for every line of its source: exactly when none of them nests
too deeply to be read, every object among them is accepted as an event, and the chain
has room for a record of each.

## Implementation notes

The clock of the host spells the time with `isoformat()`, and the signer reads it back
with `fromisoformat`; that the two are inverse is what is documented about them.
-/

namespace IcsDeception

open Text Json Calendar Method Models EnvelopeRoundTrip Canonicalizer

/-- `fromisoformat` reads what `isoformat` spells of a UTC instant. -/
def ReadsIsoformat (py : Interp) : Prop :=
  ∀ i : Instant, py.fromisoformat i.isoformat = some ⟨i, some 0⟩

theorem isoformat_ends (i : Instant) :
    i.isoformat ≠ [] ∧ i.isoformat.getLast? = some (cp '0') ∧
      ∀ c ∈ i.isoformat.head?, isSpace c = false := by
  obtain ⟨c, t, ht, hc⟩ := text_head true i
  have hlength : 8 ≤ (i.text true).length := by
    simp only [Instant.text, spelling, List.length_append, List.length_cons,
      Decimal.padded_length, List.length_nil]
    omega
  obtain ⟨u, hu⟩ : ∃ u, (if i.micros % 1000000 = 0 then
      (i.text true).take ((i.text true).length - 7) else i.text true) = c :: u := by
    split_ifs
    · obtain ⟨n, hn⟩ : ∃ n, (i.text true).length - 7 = n + 1 := Nat.exists_eq_succ_of_ne_zero (by omega)
      rw [hn, ht]
      exact ⟨_, rfl⟩
    · exact ⟨t, ht⟩
  rw [Instant.isoformat, hu]
  refine ⟨List.cons_ne_nil _ _, ?_, ?_⟩
  · rw [List.getLast?_append]
    rfl
  · rintro x ⟨⟩
    exact isSpace_of_isDigit hc

/-- The time of the host is a timestamp that the signer accepts. -/
theorem normalizeTimestamp_isoformat {py : Interp} (hiso : ReadsIsoformat py) (i : Instant) :
    normalizeTimestamp py (.str i.isoformat) = .ok (i.text py.padYears ++ [cp 'Z']) := by
  obtain ⟨hne, hlast, hhead⟩ := isoformat_ends i
  have hstrip : strip i.isoformat = i.isoformat := by
    apply strip_eq_self hhead _ hne
    rw [hlast]
    rintro c ⟨⟩
    decide
  apply normalizeTimestamp_of hne _ (toUtc_zero i)
  rw [hstrip, isoCandidate, if_neg, hiso i]
  rw [hlast]
  decide

namespace EvidenceSigner

open EvidenceStore NodeState Disk

variable {py : Interp} {s : EvidenceSigner}

/-! ## Building a record -/

/-- A backend that always signs, with a signature of the length of one. -/
def AlwaysSigns (s : EvidenceSigner) : Prop :=
  ∀ payload, ∃ raw, s.sign payload = .ok raw ∧ raw ≠ [] ∧ raw.length ≤ 4627

/-- The texts of the records over an event. -/
def Seals (s : EvidenceSigner) (event : List (Key × Value)) (text : Str) : Prop :=
  ∃ e : SignedEvent, e.toJsonLine = .ok text ∧ e.event = event ∧ e.nodeId = s.nodeId ∧
    e.keyId = s.keyId ∧ lf ∉ text

/-- The signer can build a record that links to a hash. -/
structure CanLink (py : Interp) (s : EvidenceSigner) (sequence : Int) (previousHash : Str) :
    Prop where
  nodeId : validateIdentifier (.str s.nodeId) = .ok s.nodeId
  keyId : validateIdentifier (.str s.keyId) = .ok s.keyId
  algorithm : (SignatureAlgorithm.ofText? s.algorithm).isSome = true
  hashAlgorithm : (HashAlgorithm.ofText? s.hashAlgorithm).isSome = true
  sequence : validateSequence (.int sequence) = .ok sequence
  previousEventHash : validateHash (.str previousHash) = .ok previousHash

/-- An envelope that was built is signed and written. -/
theorem builder_of_built (hsign : s.AlwaysSigns) {sequence : Int} {timestamp previousHash : Str}
    {event : Value} {unsigned : SignedEvent}
    (h : Built py s.nodeId sequence timestamp previousHash event s.keyId s.algorithm
      s.hashAlgorithm unsigned) :
    ∃ text hash, s.builder py event timestamp sequence previousHash = .ok (text, hash) ∧
      s.Seals unsigned.event text ∧ IsDigest hash ∧ Scalar text ∧
      byteLength text ≤ maxEvidenceBytes := by
  obtain ⟨hash, hhash, hdigest⟩ := h.hash
  -- the payload leaves out the signature, so the empty one stands in for it
  have hempty : ([] : Bytes).length ≤ 4627 := by decide
  obtain ⟨payload, hpayload⟩ := SignedEvent.signingPayload_ok (h.fits hdigest hempty).encodable
  have hsigned : (unsigned.withEventHash hash).signingPayload = .ok payload := hpayload
  obtain ⟨raw, hraw, hne, hlength⟩ := hsign payload
  have hfits := h.fits hdigest hlength
  obtain ⟨text, htext⟩ := hfits.encodable.dump 0 0
  have hplain := hfits.encodable.plain htext
  have hline := toJsonLine_of_encodable hfits.encodable htext
  refine ⟨text, hash, ?_, ⟨_, hline, rfl, ?_, ?_, fun hmem => ?_⟩, hdigest, scalar_of_plain hplain,
    hfits.byteLength_le htext⟩
  · refine bind_eq_ok.mpr ⟨_, ?_, bind_eq_ok.mpr ⟨text, hline, rfl⟩⟩
    refine bind_eq_ok.mpr ⟨_, buildUnsigned_eq_ok.mpr h, bind_eq_ok.mpr ⟨hash, hhash, ?_⟩⟩
    dsimp only
    rw [hsigned]
    refine bind_eq_ok.mpr ⟨raw, ?_, if_neg hne⟩
    rw [bind_eq_ok.mpr ⟨payload, rfl, hraw⟩]
    rfl
  · rw [h.envelope]
    rfl
  · rw [h.envelope]
    rfl
  · exact absurd (hplain _ hmem).1 (by decide)

/-- What is built and signed without an exception. -/
theorem builder_ok (hiso : ReadsIsoformat py) (hsign : s.AlwaysSigns) {sequence : Int}
    {previousHash : Str} (h : CanLink py s sequence previousHash) {kvs : List (Key × Value)}
    (hv : validateEvent (.dict kvs) = .ok kvs) (now : Instant) :
    ∃ text hash, s.builder py (.dict kvs) now.isoformat sequence previousHash = .ok (text, hash) ∧
      s.Seals kvs text ∧ IsDigest hash ∧ Scalar text ∧ byteLength text ≤ maxEvidenceBytes := by
  obtain ⟨algorithm, halgorithm⟩ := Option.isSome_iff_exists.mp h.algorithm
  obtain ⟨hashAlgorithm, hhashAlgorithm⟩ := Option.isSome_iff_exists.mp h.hashAlgorithm
  have hbuilt : Built py s.nodeId sequence now.isoformat previousHash (.dict kvs) s.keyId
      s.algorithm s.hashAlgorithm
      { formatVersion := .v1_0, nodeId := s.nodeId, sequence,
        timestamp := now.text py.padYears ++ [cp 'Z'], previousEventHash := previousHash,
        eventHash := zeroHash, event := kvs, signatureAlgorithm := algorithm, hashAlgorithm,
        keyId := s.keyId, signature := [], signatureBytes := [] } :=
    { envelope := rfl
      timestamp := normalizeTimestamp_isoformat hiso now
      nodeId := h.nodeId
      sequence := h.sequence
      previousEventHash := h.previousEventHash
      event := rfl
      valid := hv
      keyId := h.keyId
      signatureAlgorithm := halgorithm
      hashAlgorithm := hhashAlgorithm }
  exact builder_of_built hsign hbuilt

/-- What is not built and signed raises. -/
theorem builder_error {sequence : Int} {previousHash : Str} {kvs : List (Key × Value)}
    {timestamp : Str}
    (h : ¬ (CanLink py s sequence previousHash ∧ validateEvent (.dict kvs) = .ok kvs)) :
    ∃ e, s.builder py (.dict kvs) timestamp sequence previousHash = .error e := by
  cases hb : s.builder py (.dict kvs) timestamp sequence previousHash with
  | error e => exact ⟨e, rfl⟩
  | ok p =>
      obtain ⟨record, hr, -⟩ := bind_eq_ok.mp hb
      obtain ⟨unsigned, hu, -⟩ := bind_eq_ok.mp hr
      have hbuilt := buildUnsigned_eq_ok.mp hu
      obtain rfl : kvs = unsigned.event := Value.dict.inj hbuilt.event
      refine absurd ⟨?_, hbuilt.valid⟩ h
      exact
        { nodeId := hbuilt.nodeId
          keyId := hbuilt.keyId
          algorithm := by rw [hbuilt.signatureAlgorithm]; rfl
          hashAlgorithm := by rw [hbuilt.hashAlgorithm]; rfl
          sequence := hbuilt.sequence
          previousEventHash := hbuilt.previousEventHash }

/-! ## One record after another -/

/-- The chain of a node has room for a number of records behind a state. -/
def CanExtend (py : Interp) (s : EvidenceSigner) (st : NodeState) : Nat → Prop
  | 0 => True
  | n + 1 => (∃ previous, EventChain.expectedPreviousHash py s.nodeId (st.lastSequence + 1)
      st.lastEventHash = .ok previous ∧ CanLink py s (st.lastSequence + 1) previous) ∧
      st.lastSequence + (n + 1) ≤ 2 ^ 63 - 1

/-- A store stands at a state within a session of the signer. -/
structure Stands (s : EvidenceSigner) (o : EvidenceStore) (st : NodeState) : Prop where
  lockHeld : o.lockHeld = true
  nodeId : o.nodeId = s.nodeId
  keyId : o.keyId = s.keyId
  state : o.state = some st

/-- The state behind a record. -/
def next (s : EvidenceSigner) (st : NodeState) (hash : Str) : NodeState :=
  ⟨s.nodeId, .str s.keyId, st.lastSequence + 1, some hash⟩

theorem Stands.loadState {o : EvidenceStore} {st : NodeState} (h : Stands s o st) (d : Disk) :
    loadState py o d = .ok st := by
  rw [EvidenceStore.loadState, h.state]

theorem CanLink.keyId_ne_nil {sequence : Int} {previous : Str}
    (h : CanLink py s sequence previous) : s.keyId ≠ [] := by
  obtain ⟨t, ht, hne⟩ := bind_eq_ok.mp h.keyId
  obtain ⟨⟨⟩, hne, -⟩ := bind_eq_ok.mp hne
  obtain rfl := Value.str.inj (asText_eq_ok.mp ht)
  exact of_decide_eq_true (require_eq_ok.mp hne)

/-- A record more is a record at hand and the others behind it. -/
theorem canExtend_succ {st : NodeState} {n : Nat} {hash : Str} (hhash : IsDigest hash) :
    CanExtend py s st (n + 1) ↔ CanExtend py s st 1 ∧ CanExtend py s (s.next st hash) n := by
  cases n with
  | zero => exact (and_iff_left trivial).symm
  | succ n =>
      constructor
      · rintro ⟨⟨previous, hprevious, hlink⟩, hroom⟩
        have hsequence := (validateSequence_eq_ok.mp hlink.sequence).2
        have hnext : 1 ≤ st.lastSequence + 1 + 1 ∧ st.lastSequence + 1 + 1 ≤ 2 ^ 63 - 1 := by
          push_cast at hroom
          omega
        refine ⟨⟨⟨previous, hprevious, hlink⟩, hsequence.2⟩, ⟨hash, ?_, ?_⟩, ?_⟩
        · have hne : st.lastSequence + 1 + 1 ≠ 1 := by omega
          exact if_neg hne
        · exact
            { hlink with
              sequence := validateSequence_eq_ok.mpr ⟨rfl, hnext⟩
              previousEventHash := validateHash_of_isDigest hhash }
        · simp only [next]
          push_cast at hroom ⊢
          omega
      · rintro ⟨⟨hlink, -⟩, -, hroom⟩
        refine ⟨hlink, ?_⟩
        simp only [next] at hroom
        push_cast at hroom ⊢
        omega

theorem appended_eq_next {o : EvidenceStore} {st : NodeState} (h : Stands s o st)
    (hkey : s.keyId ≠ []) (hash : Str) : appended py o (some s.keyId) st hash = s.next st hash := by
  have htruth : py.truth (.str s.keyId) = true := by
    rw [Interp.truth, List.isEmpty_eq_false_iff.mpr hkey]
    rfl
  rw [appended, next, h.nodeId, optionalText, chooseKey, if_pos htruth]

/-- The transaction of an event when the chain has room for it. -/
theorem safe_transact (hiso : ReadsIsoformat py) (hsign : s.AlwaysSigns) {o : EvidenceStore}
    {d : Disk} {st : NodeState} (hst : Stands s o st) (hchain : CanExtend py s st 1)
    {kvs : List (Key × Value)} (hv : validateEvent (.dict kvs) = .ok kvs)
    (hroom : d.logBytes.length + (maxEvidenceBytes + 1) ≤ py.fileLimit) (now : Instant)
    {Q : Except Exn (Int × Str) → EvidenceStore → Disk → Prop}
    (hQ : ∀ text hash o' d', s.Seals kvs text → IsDigest hash → Stands s o' (s.next st hash) →
      d'.logBytes = d.logBytes ++ Utf8.encodeAll (text ++ [lf]) →
      d'.logBytes.length ≤ d.logBytes.length + (maxEvidenceBytes + 1) →
        Q (.ok (st.lastSequence + 1, hash)) o' d') :
    (s.transact py (.dict kvs) now.isoformat).Safe (reliable py.fileLimit) (fun _ => True) Q o d := by
  obtain ⟨⟨previous, hprevious, hlink⟩, -⟩ := hchain
  obtain ⟨text, hash, hbuild, hseals, hdigest, hscalar, hlength⟩ :=
    builder_ok hiso hsign hlink hv now
  have happended : appended py o (some s.keyId) st hash = s.next st hash :=
    appended_eq_next hst hlink.keyId_ne_nil hash
  have hgrown : (d.logBytes ++ Utf8.encodeAll (text ++ [lf])).length ≤
      d.logBytes.length + (maxEvidenceBytes + 1) := by
    have hlf : (Utf8.encodeAll [lf]).length = 1 := by decide
    rw [byteLength] at hlength
    rw [List.length_append, Utf8.encodeAll_append, List.length_append, hlf]
    omega
  have hdigits : (Decimal.natText (st.lastSequence + 1).natAbs).length ≤ maxDigits :=
    (sequence_digits hlink.sequence).trans (by decide)
  have hwritable : NodeState.Writable py (s.next st hash) := by
    refine ⟨?_, ⟨_, rfl⟩, hdigits⟩
    have := py.dumpLimit_le
    simp only [next, Value.nest]
    omega
  have hneeds : Appendable py py.fileLimit o d (s.builder py (.dict kvs) now.isoformat)
      (some s.keyId) st text hash :=
    { built := ⟨previous, by rw [hst.nodeId, hprevious], hbuild⟩
      scalar := hscalar
      digits := hdigits
      room := hgrown.trans hroom
      size := fileLimit_digits py
      writable := by rwa [happended] }
  refine safe_appendSigned (mild_reliable _) (fun _ => steady_reliable _ _)
    (fun _ => steady_reliable _ _) hst.lockHeld (hst.loadState d) hneeds fun b => ?_
  rw [happended]
  exact hQ text hash _ _ hseals hdigest ⟨hst.lockHeld, hst.nodeId, hst.keyId, rfl⟩ rfl hgrown

/-- The transaction of an event that is not accepted, or that the chain has no room for. -/
theorem safe_transact_error {o : EvidenceStore} {d : Disk} {st : NodeState} (hst : Stands s o st)
    {kvs : List (Key × Value)} {timestamp : Str}
    (h : ¬ (CanExtend py s st 1 ∧ validateEvent (.dict kvs) = .ok kvs))
    {Q : Except Exn (Int × Str) → EvidenceStore → Disk → Prop} (hQ : ∀ e, Q (.error e) o d) :
    (s.transact py (.dict kvs) timestamp).Safe (reliable py.fileLimit) (fun _ => True) Q o d := by
  refine safe_appendSigned_error (mild_reliable _) hst.lockHeld (hst.loadState d)
    (fun previous hprevious => ?_) fun e => ?_
  · rw [hst.nodeId] at hprevious
    apply builder_error
    rintro ⟨hlink, hv⟩
    exact h ⟨⟨⟨previous, hprevious, hlink⟩, (validateSequence_eq_ok.mp hlink.sequence).2.2⟩, hv⟩
  · rw [knowing_eq_self hst.state]
    exact hQ e

/-! ## The lines of a source -/

/-- The JSON object that a line holds. -/
def objectIn (py : Interp) (line : Str) : Option (List (Key × Value)) :=
  match loads py.jsonLimit (strip line) with
  | .ok (.dict kvs) => some kvs
  | _ => none

/-- The JSON object that a line holds, if it is accepted as an event. -/
def signableIn (py : Interp) (line : Str) : Option (List (Key × Value)) :=
  (objectIn py line).filter fun kvs => (validateEvent (.dict kvs)).isOk

/-- Nothing in the lines stands in the way of another line: each can be read or refused, each
object is accepted as an event, and the chain has room for a record of each object. -/
structure Unobstructed (py : Interp) (s : EvidenceSigner) (source : List Str) (st : NodeState) :
    Prop where
  shallow : ∀ line ∈ source, loads py.jsonLimit (strip line) ≠ .error .recursion
  valid : ∀ line ∈ source, ∀ kvs ∈ objectIn py line, validateEvent (.dict kvs) = .ok kvs
  chain : CanExtend py s st (source.filterMap (objectIn py)).length

/-- What a run over some lines leaves when it accounts for every line: the counts, the records
and the log. -/
structure Accounted (py : Interp) (s : EvidenceSigner) (source : List Str)
    (before after : SigningReport) (log log' : Bytes) : Prop where
  counts : after.signed + after.errors + after.skipped =
    before.signed + before.errors + before.skipped + source.length
  records : ∃ texts, List.Forall₂ s.Seals (source.filterMap (signableIn py)) texts ∧
    log' = log ++ texts.flatMap fun text => Utf8.encodeAll (text ++ [lf])

theorem signableIn_of_objectIn {line : Str} (h : objectIn py line = none) :
    signableIn py line = none := by
  rw [signableIn, h]
  rfl

theorem signableIn_of_valid {line : Str} {kvs : List (Key × Value)}
    (h : objectIn py line = some kvs) (hv : validateEvent (.dict kvs) = .ok kvs) :
    signableIn py line = some kvs := by
  rw [signableIn, h, Option.filter_some, hv]
  rfl

theorem unobstructed_skip {line : Str} {rest : List Str} {st : NodeState}
    (hshallow : loads py.jsonLimit (strip line) ≠ .error .recursion)
    (h : objectIn py line = none) :
    Unobstructed py s (line :: rest) st ↔ Unobstructed py s rest st := by
  constructor
  · rintro ⟨hs, hv, hc⟩
    rw [List.filterMap_cons_none h] at hc
    exact ⟨(List.forall_mem_cons.mp hs).2, (List.forall_mem_cons.mp hv).2, hc⟩
  · rintro ⟨hs, hv, hc⟩
    refine ⟨List.forall_mem_cons.mpr ⟨hshallow, hs⟩, List.forall_mem_cons.mpr ⟨?_, hv⟩, ?_⟩
    · rw [h]
      rintro _ ⟨⟩
    · rwa [List.filterMap_cons_none h]

theorem unobstructed_object {line : Str} {rest : List Str} {st : NodeState}
    {kvs : List (Key × Value)} (h : objectIn py line = some kvs) {hash : Str}
    (hhash : IsDigest hash) :
    Unobstructed py s (line :: rest) st ↔
      (CanExtend py s st 1 ∧ validateEvent (.dict kvs) = .ok kvs) ∧
        Unobstructed py s rest (s.next st hash) := by
  have hshallow : loads py.jsonLimit (strip line) ≠ .error .recursion := by
    intro he
    rw [objectIn, he] at h
    cases h
  have hchain : CanExtend py s st ((line :: rest).filterMap (objectIn py)).length ↔
      CanExtend py s st 1 ∧ CanExtend py s (s.next st hash) (rest.filterMap (objectIn py)).length := by
    rw [List.filterMap_cons_some h, List.length_cons, canExtend_succ hhash]
  constructor
  · rintro ⟨hs, hv, hc⟩
    obtain ⟨hone, hrest⟩ := hchain.mp hc
    obtain ⟨hvalid, hvalids⟩ := List.forall_mem_cons.mp hv
    exact ⟨⟨hone, hvalid kvs h⟩, (List.forall_mem_cons.mp hs).2, hvalids, hrest⟩
  · rintro ⟨⟨hone, hvalid⟩, hs, hv, hc⟩
    refine ⟨List.forall_mem_cons.mpr ⟨hshallow, hs⟩, List.forall_mem_cons.mpr ⟨?_, hv⟩,
      hchain.mpr ⟨hone, hc⟩⟩
    rw [h]
    rintro _ ⟨⟩
    exact hvalid

theorem Accounted.nil (report : SigningReport) (log : Bytes) :
    Accounted py s [] report report log log :=
  ⟨rfl, [], .nil, (List.append_nil log).symm⟩

/-- A line without an object is counted by the report. -/
theorem Accounted.skip {line : Str} {rest : List Str} {before mid after : SigningReport}
    {log log' : Bytes} (h : objectIn py line = none)
    (hmid : mid.signed + mid.errors + mid.skipped =
      before.signed + before.errors + before.skipped + 1)
    (hrest : Accounted py s rest mid after log log') :
    Accounted py s (line :: rest) before after log log' := by
  constructor
  · rw [hrest.counts, hmid, List.length_cons]
    omega
  · rw [List.filterMap_cons_none (signableIn_of_objectIn h)]
    exact hrest.records

/-- A line with an object is counted by the report and has a record. -/
theorem Accounted.sign {line : Str} {rest : List Str} {before after : SigningReport}
    {log log' : Bytes} {kvs : List (Key × Value)} (h : objectIn py line = some kvs)
    (hv : validateEvent (.dict kvs) = .ok kvs) {text : Str} (htext : s.Seals kvs text)
    {sequence : Int}
    (hrest : Accounted py s rest (before.note sequence) after
      (log ++ Utf8.encodeAll (text ++ [lf])) log') :
    Accounted py s (line :: rest) before after log log' := by
  obtain ⟨texts, htexts, hlog⟩ := hrest.records
  constructor
  · rw [hrest.counts, List.length_cons]
    simp only [SigningReport.note]
    omega
  · rw [List.filterMap_cons_some (signableIn_of_valid h hv)]
    refine ⟨text :: texts, .cons htext htexts, ?_⟩
    rw [hlog, List.append_assoc, List.flatMap_cons]

/-- What signing lines comes to: it accounts for every line when nothing stands in the way,
and raises otherwise. The lock stays with the store. -/
structure LinesOutcome (py : Interp) (s : EvidenceSigner) (source : List Str) (st : NodeState)
    (before : SigningReport) (log : Bytes) (r : Except Exn SigningReport) (o : EvidenceStore)
    (d : Disk) : Prop where
  lockHeld : o.lockHeld = true
  returns : Unobstructed py s source st →
    ∃ after, r = .ok after ∧ Accounted py s source before after log d.logBytes
  raises : ¬ Unobstructed py s source st → ∃ e, r = .error e

theorem linesOutcome_raised {source : List Str} {st : NodeState} {before : SigningReport}
    {log : Bytes} {e : Exn} {o : EvidenceStore} {d : Disk} (ho : o.lockHeld = true)
    (h : ¬ Unobstructed py s source st) :
    LinesOutcome py s source st before log (.error e) o d :=
  ⟨ho, fun hu => absurd hu h, fun _ => ⟨e, rfl⟩⟩

theorem LinesOutcome.skip {line : Str} {rest : List Str} {st : NodeState}
    {before mid : SigningReport} {log : Bytes} {r : Except Exn SigningReport} {o : EvidenceStore}
    {d : Disk} (hshallow : loads py.jsonLimit (strip line) ≠ .error .recursion)
    (h : objectIn py line = none)
    (hmid : mid.signed + mid.errors + mid.skipped =
      before.signed + before.errors + before.skipped + 1)
    (hrest : LinesOutcome py s rest st mid log r o d) :
    LinesOutcome py s (line :: rest) st before log r o d where
  lockHeld := hrest.lockHeld
  returns hu := by
    obtain ⟨after, hr, haccounted⟩ := hrest.returns ((unobstructed_skip hshallow h).mp hu)
    exact ⟨after, hr, haccounted.skip h hmid⟩
  raises hu := hrest.raises fun hn => hu ((unobstructed_skip hshallow h).mpr hn)

/-- A line that holds no object is counted and left. -/
theorem signLines_skip {line : Str} (hshallow : loads py.jsonLimit (strip line) ≠ .error .recursion)
    (h : objectIn py line = none) (rest : List Str) (count : Nat) (report : SigningReport) :
    ∃ mid : SigningReport, mid.signed + mid.errors + mid.skipped =
        report.signed + report.errors + report.skipped + 1 ∧
      s.signLines py none (line :: rest) count report = s.signLines py none rest count mid := by
  rw [signLines]
  by_cases hblank : strip line = []
  · exact ⟨{ report with skipped := report.skipped + 1 }, by dsimp only; omega, if_pos hblank⟩
  · refine ⟨{ report with errors := report.errors + 1 }, by dsimp only; omega, ?_⟩
    rw [if_neg hblank, if_neg (by simp)]
    unfold objectIn at h
    cases hload : loads py.jsonLimit (strip line) with
    | error e =>
        cases e with
        | recursion => exact absurd hload hshallow
        | _ => rfl
    | ok v =>
        cases v with
        | dict kvs =>
            rw [hload] at h
            cases h
        | _ => rfl

theorem signLines_recursion {line : Str} (h : loads py.jsonLimit (strip line) = .error .recursion)
    (rest : List Str) (count : Nat) (report : SigningReport) :
    s.signLines py none (line :: rest) count report = raise .recursion := by
  have hblank : strip line ≠ [] := by
    intro hb
    rw [hb, loads_nil] at h
    cases h
  rw [signLines, if_neg hblank, if_neg (by simp), h]

/-- A line that holds an object is handed to the transaction. -/
theorem signLines_object {line : Str} {kvs : List (Key × Value)} (h : objectIn py line = some kvs)
    (rest : List Str) (count : Nat) (report : SigningReport) :
    s.signLines py none (line :: rest) count report = (do
      let now ← sys .now
      let r ← s.transact py (.dict kvs) now.isoformat
      s.signLines py none rest (count + 1) (report.note r.1)) := by
  unfold objectIn at h
  cases hload : loads py.jsonLimit (strip line) with
  | error e =>
      rw [hload] at h
      cases h
  | ok v =>
      rw [hload] at h
      cases v with
      | dict members =>
          obtain rfl := Option.some.inj h
          have hblank : strip line ≠ [] := by
            intro hb
            rw [hb, loads_nil] at hload
            cases hload
          rw [signLines, if_neg hblank, if_neg (by simp), hload]
      | _ => cases h

/-- The loop over the lines, by induction on them. -/
theorem safe_signLines (hiso : ReadsIsoformat py) (hsign : s.AlwaysSigns) (source : List Str)
    (count : Nat) (report : SigningReport) {o : EvidenceStore} {d : Disk} {st : NodeState}
    (hst : Stands s o st)
    (hroom : d.logBytes.length + source.length * (maxEvidenceBytes + 1) ≤ py.fileLimit) :
    (s.signLines py none source count report).Safe (reliable py.fileLimit) (fun _ => True)
      (LinesOutcome py s source st report d.logBytes) o d := by
  induction source generalizing count report o d st with
  | nil =>
      rw [signLines, safe_pure]
      refine ⟨trivial, hst.lockHeld, fun _ => ⟨report, rfl, .nil report _⟩, fun h => ?_⟩
      exact absurd ⟨nofun, nofun, trivial⟩ h
  | cons line rest ih =>
      rw [List.length_cons, Nat.succ_mul] at hroom
      by_cases hshallow : loads py.jsonLimit (strip line) = .error .recursion
      · rw [signLines_recursion hshallow, safe_raise]
        refine ⟨trivial, linesOutcome_raised hst.lockHeld fun hu => ?_⟩
        exact hu.shallow line List.mem_cons_self hshallow
      · cases hobject : objectIn py line with
        | none =>
            obtain ⟨mid, hmid, hskip⟩ :=
              signLines_skip (s := s) hshallow hobject rest count report
            rw [hskip]
            exact (ih count mid hst (by omega)).weaken fun r o' d' _ h => h.skip hshallow hobject hmid
        | some kvs =>
            rw [signLines_object hobject, safe_bind, safe_sys_now (mild_reliable _)]
            refine ⟨trivial, fun now => ?_⟩
            simp only [Then]
            rw [safe_bind]
            by_cases hone : CanExtend py s st 1 ∧ validateEvent (.dict kvs) = .ok kvs
            · refine safe_transact hiso hsign hst hone.1 hone.2 (by omega) now ?_
              intro text hash o' d' htext hhash hst' hlog hlength
              refine (ih (count + 1) _ hst' (by omega)).weaken fun r o'' d'' _ h => ?_
              have hiff : Unobstructed py s (line :: rest) st ↔
                  (CanExtend py s st 1 ∧ validateEvent (.dict kvs) = .ok kvs) ∧
                    Unobstructed py s rest (s.next st hash) := unobstructed_object hobject hhash
              refine ⟨h.lockHeld, fun hu => ?_, fun hu => h.raises fun hn => hu (hiff.mpr ⟨hone, hn⟩)⟩
              obtain ⟨after, hr, haccounted⟩ := h.returns (hiff.mp hu).2
              rw [hlog] at haccounted
              exact ⟨after, hr, haccounted.sign hobject hone.2 htext⟩
            · refine safe_transact_error hst hone fun e => ?_
              refine linesOutcome_raised hst.lockHeld fun hu => hone ?_
              exact ((unobstructed_object hobject isDigest_zeros).mp hu).1

/-! ## The whole source -/

/-- The run accounts for every line: it returns a report whose counts add up to the lines, and
the log has grown by one record for each line that holds a signable object, in line order. -/
structure AccountsForEveryLine (py : Interp) (s : EvidenceSigner) (source : List Str) (log : Bytes)
    (r : Except Exn SigningReport) (d' : Disk) : Prop where
  report : ∃ report, r = .ok report ∧
    report.signed + report.errors + report.skipped = source.length
  records : ∃ texts, List.Forall₂ s.Seals (source.filterMap (signableIn py)) texts ∧
    d'.logBytes = log ++ texts.flatMap fun text => Utf8.encodeAll (text ++ [lf])

/-- The store of the signer opens at a state, over a log. -/
def StoreOpensAt (py : Interp) (s : EvidenceSigner) (d : Disk) (st : NodeState) (log : Bytes) :
    Prop :=
  d.locked = false ∧ OpensAt py py.fileLimit { s.store with lockHeld := true }
    { d with locked := true } st log

/-- Signing a source comes to what signing its lines comes to. -/
theorem safe_signLog (hiso : ReadsIsoformat py) (hsign : s.AlwaysSigns) {source : List Str}
    {d : Disk} {st : NodeState} {log : Bytes} (hopen : StoreOpensAt py s d st log)
    (hroom : log.length + source.length * (maxEvidenceBytes + 1) ≤ py.fileLimit) :
    (s.signLog py source none).Safe (reliable py.fileLimit) (fun _ => True)
      (fun r _ d' => (Unobstructed py s source st → AccountsForEveryLine py s source log r d') ∧
        (¬ Unobstructed py s source st → ∃ e, r = .error e)) s.store d := by
  unfold signLog session
  rw [safe_bind, safe_enter (mild_reliable _) rfl, if_neg (by rw [hopen.1]; exact Bool.false_ne_true)]
  refine ⟨trivial, trivial, ?_⟩
  refine safe_recover_of_opensAt (mild_reliable _) (fun _ => steady_reliable _ _) rfl hopen.2
    fun report o₁ d₁ hlock hnode hkey hstate hlog _ => ?_
  simp only [Except.map, Then]
  rw [safe_bind, safe_attempt]
  have hst : Stands s o₁ st := ⟨hlock, hnode, hkey, hstate⟩
  refine (safe_signLines hiso hsign source 0 .start hst (by rw [hlog]; exact hroom)).weaken
    fun r o₂ d₂ _ h => ?_
  simp only [Then, EvidenceStore.exit]
  rw [safe_bind, safe_release (mild_reliable _) h.lockHeld]
  refine ⟨trivial, trivial, ?_⟩
  simp only [Then]
  refine safe_ofExcept.mpr ⟨trivial, fun hu => ?_, h.raises⟩
  obtain ⟨after, hr, hcounts, hrecords⟩ := h.returns hu
  rw [hlog] at hrecords
  exact ⟨⟨after, hr, hcounts.trans (Nat.zero_add _)⟩, hrecords⟩

/-- Every run of `sign_log` accounts for every line exactly when nothing in the lines stands in
the way. -/
theorem signLog_accounts_iff (py : Interp) (hiso : ReadsIsoformat py) (s : EvidenceSigner)
    (hsign : s.AlwaysSigns) (source : List Str) (d : Disk) (st : NodeState) (log : Bytes)
    (hopen : StoreOpensAt py s d st log)
    (hroom : log.length + source.length * (maxEvidenceBytes + 1) ≤ py.fileLimit) :
    (∀ r o' d', (s.signLog py source none).Ends (reliable py.fileLimit) s.store d r o' d' →
      AccountsForEveryLine py s source log r d') ↔ Unobstructed py s source st := by
  have hsafe := safe_signLog hiso hsign hopen hroom
  constructor
  · intro h
    by_contra hu
    obtain ⟨⟨r, o'⟩, d', he⟩ := Prog.exists_ends (reliable_responsive py.fileLimit)
      (s.signLog py source none s.store) d
    obtain ⟨e, hraised⟩ := (hsafe.ends he).2 hu
    obtain ⟨report, hr, -⟩ := (h r o' d' he).report
    rw [hraised] at hr
    cases hr
  · intro hu r o' d' he
    exact (hsafe.ends he).1 hu

/-! ## A line that is JSON and no event -/

/-- The interpreter of reference, with a clock. -/
def clocked : Interp :=
  { Interp.reference with
    fromisoformat := readIsoformat
    fromisoformat_text := fun i hy => by
      rw [readIsoformat, if_neg (by rw [length_text hy]; decide)]
      exact readIso_text true i hy }

theorem clocked_readsIsoformat : ReadsIsoformat clocked := readIsoformat_isoformat

/-- A signer whose backend always returns the same signature. -/
def steadySigner : EvidenceSigner where
  nodeId := lit "n"
  keyId := lit "k"
  algorithm := lit "ML-DSA-65"
  hashAlgorithm := lit "SHA3-256"
  sign _ := .ok [1]

theorem steadySigner_alwaysSigns : steadySigner.AlwaysSigns :=
  fun _ => ⟨[1], rfl, by decide, by decide⟩

theorem steadySigner_opens :
    StoreOpensAt clocked steadySigner Disk.empty (.zero (lit "n") (lit "k")) [] :=
  ⟨rfl, _, _, .absent rfl, .inl rfl, rfl, rfl⟩

/-- A line with a measurement, and a line behind it. -/
def measurementSource : List Str := [lit "\x7b\"v\":0.5\x7d", lit "\x7b\x7d"]

theorem signLog_accounts_iff_measurement :
    (∀ r o' d', (steadySigner.signLog clocked measurementSource none).Ends
      (reliable clocked.fileLimit) steadySigner.store Disk.empty r o' d' →
        AccountsForEveryLine clocked steadySigner measurementSource [] r d') ↔
      Unobstructed clocked steadySigner measurementSource (.zero (lit "n") (lit "k")) :=
  signLog_accounts_iff clocked clocked_readsIsoformat steadySigner steadySigner_alwaysSigns
    measurementSource Disk.empty _ [] steadySigner_opens (by decide)

set_option maxRecDepth 100000 in
theorem measurement_refused : (objectIn clocked (lit "\x7b\"v\":0.5\x7d")).any
    (fun kvs => !(validateEvent (.dict kvs)).isOk) = true := by
  decide +kernel

theorem measurement_obstructs (st : NodeState) :
    ¬ Unobstructed clocked steadySigner measurementSource st := by
  intro h
  obtain ⟨kvs, hobject, hrefused⟩ := Option.any_eq_true _ _ |>.mp measurement_refused
  rw [h.valid _ List.mem_cons_self kvs hobject] at hrefused
  cases hrefused

/-- A measurement that is no event loses the rest of the lines. -/
theorem measurement_loses_the_rest :
    ¬ ∀ (py : Interp) (_ : ReadsIsoformat py) (s : EvidenceSigner) (_ : s.AlwaysSigns)
      (source : List Str) (d : Disk) (st : NodeState) (log : Bytes)
      (_ : StoreOpensAt py s d st log)
      (_ : log.length + source.length * (maxEvidenceBytes + 1) ≤ py.fileLimit)
      (r : Except Exn SigningReport) (o' : EvidenceStore) (d' : Disk),
      (s.signLog py source none).Ends (reliable py.fileLimit) s.store d r o' d' →
        AccountsForEveryLine py s source log r d' := by
  intro hall
  obtain ⟨⟨r, o'⟩, d', he⟩ := Prog.exists_ends (reliable_responsive clocked.fileLimit)
    (steadySigner.signLog clocked measurementSource none steadySigner.store) Disk.empty
  have hsafe := safe_signLog clocked_readsIsoformat steadySigner_alwaysSigns steadySigner_opens
    (show [].length + measurementSource.length * (maxEvidenceBytes + 1) ≤ _ by decide)
  obtain ⟨e, hraised⟩ := (hsafe.ends he).2 (measurement_obstructs _)
  obtain ⟨report, hr, -⟩ := (hall clocked clocked_readsIsoformat steadySigner
    steadySigner_alwaysSigns measurementSource Disk.empty _ [] steadySigner_opens (by decide)
    r o' d' he).report
  rw [hraised] at hr
  cases hr

end EvidenceSigner

end IcsDeception
