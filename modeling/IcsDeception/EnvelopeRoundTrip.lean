import IcsDeception.Envelope
import IcsDeception.CanonicalForm
import IcsDeception.Lib.Json.Size

/-!
# Envelopes are read back

A record that the signer completes is one line, and the line is parsed as the record it
was written from, event bodies as JSON values. The two sides have their own validators
and limits; what one builds the other accepts.
-/

namespace IcsDeception

open Text Json Canonicalizer Models Calendar

namespace EnvelopeRoundTrip

/-! ## Depth -/

mutual
/-- The two ways of counting depth: levels and enclosing containers. -/
theorem nest_le_depth : ∀ (level : Nat) (v : Value), level + v.nest ≤ depth level v + 1
  | level, .null => by simp [Value.nest, depth]
  | level, .bool _ => by simp [Value.nest, depth]
  | level, .int _ => by simp [Value.nest, depth]
  | level, .float _ => by simp [Value.nest, depth]
  | level, .str _ => by simp [Value.nest, depth]
  | level, .other _ => by simp [Value.nest, depth]
  | level, .list xs => by
      have := nestItems_le_depth level xs
      rw [Value.nest, depth]
      omega
  | level, .tuple xs => by
      have := nestItems_le_depth level xs
      rw [Value.nest, depth]
      omega
  | level, .dict kvs => by
      have := nestMembers_le_depth level kvs
      rw [Value.nest, depth]
      omega
/-- The same for items. -/
theorem nestItems_le_depth : ∀ (level : Nat) (xs : List Value),
    level + Value.nestItems xs ≤ depthItems level xs
  | level, [] => le_rfl
  | level, v :: rest => by
      have h₁ := nest_le_depth (level + 1) v
      have h₂ := nestItems_le_depth level rest
      rw [Value.nestItems, depthItems]
      omega
/-- The same for members. -/
theorem nestMembers_le_depth : ∀ (level : Nat) (kvs : List (Key × Value)),
    level + Value.nestMembers kvs ≤ depthMembers level kvs
  | level, [] => le_rfl
  | level, (_, v) :: rest => by
      have h₁ := nest_le_depth (level + 1) v
      have h₂ := nestMembers_le_depth level rest
      rw [Value.nestMembers, depthMembers]
      omega
end

theorem depthMembers_le {level bound : Nat} {kvs : List (Key × Value)} (hl : level ≤ bound)
    (h : ∀ p ∈ kvs, depth (level + 1) p.2 ≤ bound) : depthMembers level kvs ≤ bound := by
  induction kvs with
  | nil => exact hl
  | cons q rest ih =>
      obtain ⟨hq, hrest⟩ := List.forall_mem_cons.mp h
      rw [depthMembers]
      exact max_le hq (ih hrest)

mutual
/-- Reading a value back does not make it deeper. -/
theorem depth_norm : ∀ (level : Nat) (v : Value),
    depth level (norm Style.compact v) ≤ depth level v
  | _, .null => le_rfl
  | _, .bool _ => le_rfl
  | _, .int _ => le_rfl
  | _, .float _ => le_rfl
  | _, .str _ => le_rfl
  | _, .other _ => le_rfl
  | level, .list xs => by
      rw [Json.norm, depth, depth]
      exact depthItems_norm level xs
  | level, .tuple xs => by
      rw [Json.norm, depth, depth]
      exact depthItems_norm level xs
  | level, .dict kvs => by
      rw [Json.norm, Value.ofMembers, depth, depth]
      apply depthMembers_le ((Nat.le_add_right _ _).trans (nestMembers_le_depth level kvs))
      intro p hp
      obtain ⟨q, hq, rfl⟩ := List.mem_map.mp hp
      exact depthMembers_norm level kvs q ((Style.compact.order_perm _).subset hq)
/-- The same for items. -/
theorem depthItems_norm : ∀ (level : Nat) (xs : List Value),
    depthItems level (normItems Style.compact xs) ≤ depthItems level xs
  | _, [] => le_rfl
  | level, v :: rest => by
      rw [normItems, depthItems, depthItems]
      exact max_le_max (depth_norm (level + 1) v) (depthItems_norm level rest)
/-- The same for members. -/
theorem depthMembers_norm : ∀ (level : Nat) (kvs : List (Key × Value)),
    ∀ q ∈ normMembers Style.compact kvs, depth (level + 1) q.2 ≤ depthMembers level kvs
  | _, [], _, hq => by cases hq
  | level, (.other _, _) :: rest, q, hq => by
      rw [depthMembers]
      exact (depthMembers_norm level rest q hq).trans (le_max_right _ _)
  | level, (.str _, v) :: rest, q, hq => by
      rw [depthMembers]
      rcases List.mem_cons.mp hq with rfl | hq
      · exact (depth_norm (level + 1) v).trans (le_max_left _ _)
      · exact (depthMembers_norm level rest q hq).trans (le_max_right _ _)
end

/-! ## The texts of an envelope -/

/-- A text of scalar values with at most `n` characters. -/
def ShortText (n : Nat) (s : Str) : Prop := s.length ≤ n ∧ Scalar s

theorem ShortText.encodable {n d : Nat} {s : Str} (h : ShortText n s) (hn : n ≤ maxStringLength)
    (hd : d ≤ maxDepth) : Encodable d (.str s) :=
  ⟨hd, h.1.trans hn, h.2⟩

theorem shortText_of_printable {n : Nat} {s : Str} (hl : s.length ≤ n) (h : ∀ c ∈ s, Printable c) :
    ShortText n s :=
  ⟨hl, fun c hc => (h c hc).plain.2⟩

theorem shortText_identifier {s : Str} (h : validateIdentifier (.str s) = .ok s) :
    ShortText 128 s := by
  obtain ⟨hm, hl⟩ := validateIdentifier_matches h
  exact ⟨hl, scalar_of_matchesToEnd hm⟩

theorem shortText_isDigest {s : Str} (h : isDigest s = true) : ShortText 64 s := by
  simp only [isDigest, Bool.and_eq_true, beq_iff_eq, List.all_eq_true] at h
  refine ⟨h.1.le, fun c hc => ?_⟩
  have := h.2 c hc
  simp only [isHexDigit, Bool.or_eq_true, Bool.and_eq_true, decide_eq_true_eq] at this
  simp only [isSurrogate, Bool.and_eq_false_iff, decide_eq_false_iff_not]
  omega

theorem shortText_hash {s : Str} (h : validateHash (.str s) = .ok s) : ShortText 65 s := by
  obtain ⟨t, ht, h⟩ := bind_eq_ok.mp h
  obtain ⟨⟨⟩, hm, h⟩ := bind_eq_ok.mp h
  obtain rfl := Except.ok.inj h
  have hm := require_eq_ok.mp hm
  simp only [matchesToEnd, Bool.or_eq_true, Bool.and_eq_true, beq_iff_eq] at hm
  rcases hm with hm | ⟨hl, hm⟩
  · have hs := shortText_isDigest hm
    exact ⟨hs.1.trans (by decide), hs.2⟩
  · have hs := shortText_isDigest hm
    rw [← List.dropLast_append_getLast? lf hl]
    refine ⟨?_, scalar_append.mpr ⟨hs.2, by decide⟩⟩
    rw [List.length_append]
    exact Nat.add_le_add_right hs.1 1

theorem yearText_length {pad : Bool} {y : Nat} : (yearText pad y).length ≤ 4 := by
  unfold yearText
  split_ifs with h
  · exact (Decimal.natText_length_le (by decide) (show y < 10 ^ 3 by omega)).trans (by decide)
  · exact (Decimal.padded_length 4 y).le

theorem printable_yearText {pad : Bool} {y : Nat} : ∀ c ∈ yearText pad y, Printable c := by
  intro c hc
  unfold yearText at hc
  split_ifs at hc
  · exact printable_of_isDigit (Decimal.isDigit_of_mem_natText hc)
  · exact printable_of_isDigit (Decimal.isDigit_of_mem_padded hc)

theorem shortText_spelling {y : Str} (hl : y.length ≤ 4) (hy : ∀ c ∈ y, Printable c)
    (m d t : Nat) : ShortText 26 (spelling y m d t []) := by
  have hpad : ∀ k n, ∀ c ∈ Decimal.padded k n, Printable c :=
    fun k n c hc => printable_of_isDigit (Decimal.isDigit_of_mem_padded hc)
  have hmark : ∀ c ∈ [cp '-', cp 'T', cp ':', cp '.'], Printable c :=
    printable_of_all (s := [cp '-', cp 'T', cp ':', cp '.']) (by decide)
  apply shortText_of_printable
  · simp only [spelling, List.length_append, List.length_cons, Decimal.padded_length,
      List.length_nil]
    omega
  · intro c hc
    simp only [spelling, List.mem_append, List.mem_cons, List.not_mem_nil, or_false] at hc
    rcases hc with h | rfl | h | rfl | h | rfl | h | rfl | h | rfl | h | rfl | h
    · exact hy c h
    all_goals first | exact hpad _ _ c h | exact hmark _ (by simp)

theorem shortText_instant (py : Interp) (i : Instant) :
    ShortText 27 (i.text py.padYears ++ [cp 'Z']) := by
  obtain ⟨hl, hs⟩ : ShortText 26 (i.text py.padYears) :=
    shortText_spelling yearText_length printable_yearText _ _ _
  refine ⟨?_, scalar_append.mpr ⟨hs, by decide⟩⟩
  rw [List.length_append]
  exact Nat.add_le_add_right hl 1

theorem shortText_timestamp {py : Interp} {s t : Str}
    (h : normalizeTimestamp py (.str s) = .ok t) : ShortText 27 t := by
  obtain ⟨r, i, -, -, rfl⟩ := normalizeTimestamp_eq_ok h
  exact shortText_instant py i

theorem shortText_signature {raw : Bytes} (h : raw.length ≤ 4627) :
    ShortText 6172 (Base64.encode raw) := by
  apply shortText_of_printable
  · rw [Base64.encode_length]
    omega
  · intro c hc
    obtain ⟨h₁, h₂⟩ := Base64.encode_ascii raw c hc
    exact ⟨h₁.le, h₂⟩

/-! ## Records that fit -/

/-- A record whose fields are within the bounds of the signer. -/
structure Fits (e : SignedEvent) : Prop where
  timestamp : ShortText 27 e.timestamp
  signature : ShortText 6172 e.signature
  event : validateEvent (.dict e.event) = .ok e.event
  nodeId : validateIdentifier (.str e.nodeId) = .ok e.nodeId
  sequence : validateSequence (.int e.sequence) = .ok e.sequence
  previousEventHash : validateHash (.str e.previousEventHash) = .ok e.previousEventHash
  eventHash : validateHash (.str e.eventHash) = .ok e.eventHash
  keyId : validateIdentifier (.str e.keyId) = .ok e.keyId

theorem sequence_digits {i : Int} (h : validateSequence (.int i) = .ok i) :
    (Decimal.natText i.natAbs).length ≤ 19 := by
  obtain ⟨-, h₁, h₂⟩ := validateSequence_eq_ok.mp h
  apply Decimal.natText_length_le (by decide)
  omega

theorem encodable_event {kvs : List (Key × Value)} (h : validateEvent (.dict kvs) = .ok kvs) :
    Encodable 1 (.dict kvs) := by
  obtain ⟨-, ⟨b, hb, -⟩, hdepth⟩ := validateEvent_eq_ok.mp h
  have hn := nest_le_depth 1 (.dict kvs)
  apply (canonicalBytes_eq_ok.mp hb).1.at_depth
  simp only [maxEventDepth] at hdepth
  simp only [maxDepth]
  omega

theorem envelopeFields_nodup : envelopeFields.Nodup := by decide

namespace Fits

variable {e : SignedEvent} (h : Fits e)
include h

/-- A record that fits has a canonical form. -/
theorem encodable : Encodable 0 (Value.ofMembers e.toDict) := by
  have hd : (1 : Nat) ≤ maxDepth := by decide
  have hkeys : ∀ f ∈ envelopeFields, TextOk f := by
    unfold TextOk
    decide
  have hdigits := sequence_digits h.sequence
  have hversion : Encodable 1 (.str e.formatVersion.text) := by
    cases e.formatVersion
    exact ⟨hd, by unfold TextOk; decide⟩
  have halgorithm : Encodable 1 (.str e.signatureAlgorithm.text) := by
    cases e.signatureAlgorithm <;> exact ⟨hd, by unfold TextOk; decide⟩
  have hhash : Encodable 1 (.str e.hashAlgorithm.text) := by
    cases e.hashAlgorithm
    exact ⟨hd, by unfold TextOk; decide⟩
  have hsignature : Encodable 1 (.str e.signature) := h.signature.encodable (by decide) hd
  refine ⟨by decide, encodableMembers_ofMembers.mpr fun p hp => ⟨?_, ?_⟩⟩
  · apply hkeys
    rw [← toDict_keys e]
    exact List.mem_map_of_mem hp
  · revert p
    simp only [SignedEvent.toDict, List.forall_mem_cons]
    exact ⟨hversion, (shortText_identifier h.nodeId).encodable (by decide) hd,
      ⟨hd, hdigits.trans (by decide)⟩, h.timestamp.encodable (by decide) hd,
      (shortText_hash h.previousEventHash).encodable (by decide) hd,
      (shortText_hash h.eventHash).encodable (by decide) hd, encodable_event h.event, halgorithm,
      hhash, (shortText_identifier h.keyId).encodable (by decide) hd, hsignature, by simp⟩

/-- The written members of a record that fits. -/
theorem dumpMembers_toDict : ∃ body, dump Style.compact 0 (.dict e.event) = .ok body ∧
    dumpMembers Style.compact 1 (e.toDict.map fun p => (Key.str p.1, p.2)) = .ok
      [(lit "format_version", quote false e.formatVersion.text),
       (lit "node_id", quote false e.nodeId),
       (lit "sequence", Decimal.intText e.sequence),
       (lit "timestamp", quote false e.timestamp),
       (lit "previous_event_hash", quote false e.previousEventHash),
       (lit "event_hash", quote false e.eventHash),
       (lit "event", body),
       (lit "signature_algorithm", quote false e.signatureAlgorithm.text),
       (lit "hash_algorithm", quote false e.hashAlgorithm.text),
       (lit "key_id", quote false e.keyId),
       (lit "signature", quote false e.signature)] := by
  obtain ⟨body, hbody⟩ := (encodable_event h.event).dump 1 0
  have hnested : dump Style.compact 1 (.dict e.event) = .ok body := by
    rw [dump_level rfl 1 0, hbody]
  have hint : dump Style.compact 1 (.int e.sequence) = .ok (Decimal.intText e.sequence) := by
    rw [dump, dumpInt, if_neg]
    have := sequence_digits h.sequence
    simp only [maxDigits]
    omega
  refine ⟨body, hbody, ?_⟩
  simp only [SignedEvent.toDict, List.map_cons, List.map_nil, dumpMembers, hnested, hint]
  rfl

theorem byteLength_event {body : Str} (hb : dump Style.compact 0 (.dict e.event) = .ok body) :
    byteLength body ≤ 65536 := by
  obtain ⟨-, ⟨b, hbytes, hlen⟩, -⟩ := validateEvent_eq_ok.mp h.event
  obtain ⟨-, t, ht, rfl⟩ := canonicalBytes_eq_ok.mp hbytes
  obtain rfl := Except.ok.inj (ht.symm.trans hb)
  exact hlen

theorem byteLength_sequence : byteLength (Decimal.intText e.sequence) ≤ 20 := by
  have := sequence_digits h.sequence
  rw [byteLength_printable fun c hc => printable_of_mem_intText hc, Decimal.intText]
  split_ifs
  · rw [List.length_cons]
    omega
  · omega

/-- A record that fits takes less than half of what the parser accepts. -/
theorem byteLength_line {t : Str} (ht : dump Style.compact 0 (Value.ofMembers e.toDict) = .ok t) :
    byteLength t ≤ 110000 := by
  obtain ⟨body, hbody, hmembers⟩ := h.dumpMembers_toDict
  have hsize := byteLength_dict hmembers ht
  have hversion : e.formatVersion.text.length ≤ 20 := by cases e.formatVersion; decide
  have halgorithm : e.signatureAlgorithm.text.length ≤ 20 := by
    cases e.signatureAlgorithm <;> decide
  have hhash : e.hashAlgorithm.text.length ≤ 20 := by cases e.hashAlgorithm; decide
  have h₁ := byteLength_quote e.formatVersion.text
  have h₂ := byteLength_quote e.nodeId
  have h₃ := h.byteLength_sequence
  have h₄ := byteLength_quote e.timestamp
  have h₅ := byteLength_quote e.previousEventHash
  have h₆ := byteLength_quote e.eventHash
  have h₇ := h.byteLength_event hbody
  have h₈ := byteLength_quote e.signatureAlgorithm.text
  have h₉ := byteLength_quote e.hashAlgorithm.text
  have h₁₀ := byteLength_quote e.keyId
  have h₁₁ := byteLength_quote e.signature
  have hnode := (shortText_identifier h.nodeId).1
  have htime := h.timestamp.1
  have hprevious := (shortText_hash h.previousEventHash).1
  have heventHash := (shortText_hash h.eventHash).1
  have hkey := (shortText_identifier h.keyId).1
  have hsignature := h.signature.1
  have hnames : ∀ f ∈ envelopeFields, f.length ≤ 20 := by decide
  simp only [envelopeFields, List.forall_mem_cons] at hnames
  simp only [List.map_cons, List.map_nil, List.sum_cons, List.sum_nil] at hsize
  omega

/-- A record that fits is within the size limit of the parser. -/
theorem byteLength_le {t : Str} (ht : dump Style.compact 0 (Value.ofMembers e.toDict) = .ok t) :
    byteLength t ≤ maxEvidenceBytes :=
  (h.byteLength_line ht).trans (by decide)

end Fits

/-! ## Completed records -/

/-- A record as the signer completes it: every field passes the validator of its own, and
the signature is the spelling of its bytes. -/
structure Complete (py : Interp) (e : SignedEvent) : Prop where
  timestamp : normalizeTimestamp py (.str e.timestamp) = .ok e.timestamp
  signature : e.signature = Base64.encode e.signatureBytes
  signed : e.signatureBytes ≠ []
  short : e.signatureBytes.length ≤ 4627
  event : validateEvent (.dict e.event) = .ok e.event
  distinct : (Value.dict e.event).Distinct
  nodeId : validateIdentifier (.str e.nodeId) = .ok e.nodeId
  sequence : validateSequence (.int e.sequence) = .ok e.sequence
  previousEventHash : validateHash (.str e.previousEventHash) = .ok e.previousEventHash
  eventHash : validateHash (.str e.eventHash) = .ok e.eventHash
  keyId : validateIdentifier (.str e.keyId) = .ok e.keyId

/-- A completed record fits. -/
theorem Complete.fits {py : Interp} {e : SignedEvent} (h : Complete py e) : Fits e where
  timestamp := shortText_timestamp h.timestamp
  signature := by
    rw [h.signature]
    exact shortText_signature h.short
  event := h.event
  nodeId := h.nodeId
  sequence := h.sequence
  previousEventHash := h.previousEventHash
  eventHash := h.eventHash
  keyId := h.keyId

/-! ## Reading back -/

theorem strictHooks_plain : strictHooks.Plain := by
  intro pairs hn
  simp only [strictHooks, if_pos hn, dictOfPairs_of_nodup hn]

/-- A value and what is read back from its canonical form have the same canonical form. -/
theorem canonicalBytes_norm (py : Interp) {v : Value} {b : Bytes} (hd : v.Distinct)
    (h : canonicalBytes v = .ok b) :
    (norm Style.compact v).Distinct ∧ canonicalBytes (norm Style.compact v) = .ok b := by
  obtain ⟨henc, t, ht, rfl⟩ := canonicalBytes_eq_ok.mp h
  have hdn : (norm Style.compact v).Distinct :=
    strictHooks_keeps_distinct.loadsWith (loadsWith_canonical py strictHooks_plain henc hd ht)
  obtain ⟨u, hu⟩ := (henc.norm 0 v).dump 0 0
  have htu : t = u :=
    dump_eq_of_same rfl 0 _ _ t u (same_norm rfl v (henc.writable 0 v hd)) hd hdn ht hu
  exact ⟨hdn, canonicalBytes_eq_ok.mpr ⟨henc.norm 0 v, u, hu, by rw [htu]⟩⟩

/-- The members of an event as they are read back. -/
def readMembers (kvs : List (Key × Value)) : List (Key × Value) :=
  (Style.compact.order (normMembers Style.compact kvs)).map fun p => (.str p.1, p.2)

theorem norm_dict (kvs : List (Key × Value)) :
    norm Style.compact (.dict kvs) = .dict (readMembers kvs) := rfl

/-- A record with its event as it is read back. -/
def readBack (e : SignedEvent) : SignedEvent := { e with event := readMembers e.event }

theorem toDict_readBack (e : SignedEvent) :
    (readBack e).toDict = e.toDict.map fun p => (p.1, norm Style.compact p.2) := rfl

theorem validateEvent_readMembers (py : Interp) {kvs : List (Key × Value)}
    (hd : (Value.dict kvs).Distinct) (h : validateEvent (.dict kvs) = .ok kvs) :
    (Value.dict (readMembers kvs)).Distinct ∧
      validateEvent (.dict (readMembers kvs)) = .ok (readMembers kvs) := by
  obtain ⟨-, ⟨b, hb, hlen⟩, hdepth⟩ := validateEvent_eq_ok.mp h
  obtain ⟨hdn, hbn⟩ := canonicalBytes_norm py hd hb
  rw [norm_dict] at hdn hbn
  exact ⟨hdn, validateEvent_eq_ok.mpr ⟨rfl, ⟨b, hbn, hlen⟩, (depth_norm 1 (.dict kvs)).trans hdepth⟩⟩

/-- A record with a canonical form is written as its canonical text. -/
theorem toJsonLine_of_encodable {e : SignedEvent} (h : Encodable 0 (Value.ofMembers e.toDict))
    {t : Str} (ht : dump Style.compact 0 (Value.ofMembers e.toDict) = .ok t) :
    e.toJsonLine = .ok t := by
  have hbytes := canonicalBytes_eq_ok.mpr ⟨h, t, ht, rfl⟩
  unfold SignedEvent.toJsonLine
  rw [hbytes]
  simp only [bind, Except.bind]
  rw [Utf8.decodeStrict_encodeAll (scalar_of_plain (h.plain ht))]

/-- A record whose fields pass their validators, and which has a canonical form. -/
structure Valid (py : Interp) (e : SignedEvent) : Prop where
  timestamp : normalizeTimestamp py (.str e.timestamp) = .ok e.timestamp
  signature : validateSignature py (.str e.signature) = .ok e.signatureBytes
  event : validateEvent (.dict e.event) = .ok e.event
  distinct : (Value.dict e.event).Distinct
  nodeId : validateIdentifier (.str e.nodeId) = .ok e.nodeId
  sequence : validateSequence (.int e.sequence) = .ok e.sequence
  previousEventHash : validateHash (.str e.previousEventHash) = .ok e.previousEventHash
  eventHash : validateHash (.str e.eventHash) = .ok e.eventHash
  keyId : validateIdentifier (.str e.keyId) = .ok e.keyId
  encodable : Encodable 0 (Value.ofMembers e.toDict)

theorem distinct_toDict {e : SignedEvent} (h : (Value.dict e.event).Distinct) :
    (Value.ofMembers e.toDict).Distinct := by
  refine Value.distinct_ofMembers ((toDict_keys e).symm ▸ envelopeFields_nodup) ?_
  simp only [SignedEvent.toDict, List.forall_mem_cons]
  exact ⟨trivial, trivial, trivial, trivial, trivial, trivial, h, trivial, trivial,
    trivial, trivial, by simp⟩

theorem norm_toDict (e : SignedEvent) : norm Style.compact (Value.ofMembers e.toDict) =
    Value.ofMembers (Style.compact.order (readBack e).toDict) := by
  have hmembers : normMembers Style.compact (e.toDict.map fun p => (Key.str p.1, p.2)) =
      (readBack e).toDict := by
    rw [normMembers_ofMembers rfl, toDict_readBack]
  rw [Value.ofMembers, Json.norm, hmembers]

theorem Complete.validateSignature {py : Interp} {e : SignedEvent} (h : Complete py e) :
    validateSignature py (.str e.signature) = .ok e.signatureBytes := by
  rw [h.signature]
  refine bind_eq_ok.mpr ⟨_, rfl, ?_⟩
  refine bind_eq_ok.mpr ⟨(), require_eq_ok.mpr (decide_eq_true (Base64.encode_ne_nil h.signed)), ?_⟩
  refine bind_eq_ok.mpr ⟨_, supported_eq_ok.mpr (Base64.decodeWith_encode _ _), ?_⟩
  exact bind_eq_ok.mpr ⟨(), require_eq_ok.mpr (decide_eq_true h.signed), rfl⟩

theorem Complete.valid {py : Interp} {e : SignedEvent} (h : Complete py e) : Valid py e where
  timestamp := h.timestamp
  signature := h.validateSignature
  event := h.event
  distinct := h.distinct
  nodeId := h.nodeId
  sequence := h.sequence
  previousEventHash := h.previousEventHash
  eventHash := h.eventHash
  keyId := h.keyId
  encodable := h.fits.encodable

namespace Valid

variable {py : Interp} {e : SignedEvent} (h : Valid py e)
include h

/-- The canonical text of a record. -/
theorem toJsonLine_eq {t : Str} (ht : dump Style.compact 0 (Value.ofMembers e.toDict) = .ok t) :
    e.toJsonLine = .ok t :=
  toJsonLine_of_encodable h.encodable ht

theorem same_toDict : Same (Value.ofMembers e.toDict)
    (Value.ofMembers (EnvelopeRoundTrip.readBack e).toDict) := by
  have hw := h.encodable.writable 0 _ (distinct_toDict h.distinct)
  have hkeys : ((EnvelopeRoundTrip.readBack e).toDict.map Prod.fst).Nodup := envelopeFields_nodup
  refine ⟨_, rfl, sameMembers_norm rfl _ _ hw.2 hkeys ?_, ?_⟩
  · intro p hp
    rwa [normMembers_ofMembers rfl, ← toDict_readBack] at hp
  · intro k hk
    exact hk

theorem readBack : Valid py (EnvelopeRoundTrip.readBack e) :=
  { h with
    event := (validateEvent_readMembers py h.distinct h.event).2
    distinct := (validateEvent_readMembers py h.distinct h.event).1
    encodable := by
      refine ⟨by decide, encodableMembers_ofMembers.mpr fun p hp => ?_⟩
      rw [toDict_readBack] at hp
      obtain ⟨q, hq, rfl⟩ := List.mem_map.mp hp
      obtain ⟨htext, henc⟩ := encodableMembers_ofMembers.mp h.encodable.2 q hq
      exact ⟨htext, henc.norm 1 q.2⟩ }

/-- The line of a record is parsed within its size, with the event as it is read back. -/
theorem parse {maxBytes : Nat} {t : Str}
    (ht : dump Style.compact 0 (Value.ofMembers e.toDict) = .ok t)
    (hsize : byteLength t ≤ maxBytes) :
    parseSignedEventJson py maxBytes true (.text t) = .ok (EnvelopeRoundTrip.readBack e) := by
  have hscalar := scalar_of_plain (h.encodable.plain ht)
  have hbytes := canonicalBytes_eq_ok.mpr ⟨h.encodable, t, ht, rfl⟩
  have hloads := loadsWith_canonical py strictHooks_plain h.encodable (distinct_toDict h.distinct) ht
  obtain ⟨-, hcanonical⟩ := canonicalBytes_norm py (distinct_toDict h.distinct) hbytes
  have hperm := Style.compact.order_perm (EnvelopeRoundTrip.readBack e).toDict
  have hkeys : ((Style.compact.order (EnvelopeRoundTrip.readBack e).toDict).map Prod.fst).Nodup := by
    rw [(hperm.map Prod.fst).nodup_iff, toDict_keys]
    exact envelopeFields_nodup
  rw [norm_toDict] at hloads hcanonical
  refine parseSignedEventJson_eq_ok.mpr ⟨_, t, _, Utf8.encode_of_scalar hscalar, hsize,
    Utf8.decodeStrict_encodeAll hscalar, hloads, ⟨?_, ?_⟩, ?_⟩
  · intro p hp
    obtain ⟨q, hq, rfl⟩ := List.mem_map.mp hp
    refine ⟨q.1, ?_, rfl⟩
    rw [← toDict_keys (EnvelopeRoundTrip.readBack e)]
    exact List.mem_map_of_mem (hperm.subset hq)
  · intro p hp
    exact lookup_textKey hkeys (hperm.symm.subset hp)
  · exact
      { timestamp := h.timestamp
        signature := h.signature
        event := h.readBack.event
        size := ⟨_, hcanonical, hsize⟩
        nodeId := h.nodeId
        sequence := h.sequence
        previousEventHash := h.previousEventHash
        eventHash := h.eventHash
        keyId := h.keyId }

/-- The record that is read back is written as the same line. -/
theorem dump_readBack {t : Str} (ht : dump Style.compact 0 (Value.ofMembers e.toDict) = .ok t) :
    dump Style.compact 0 (Value.ofMembers (EnvelopeRoundTrip.readBack e).toDict) = .ok t := by
  obtain ⟨u, hu⟩ := h.readBack.encodable.dump 0 0
  rw [dump_eq_of_same rfl 0 _ _ t u h.same_toDict (distinct_toDict h.distinct)
    (distinct_toDict h.readBack.distinct) ht hu]
  exact hu

end Valid

/-! ## Building -/

/-- The UTC instant that a timestamp is normalised to, if it is. -/
def utcInstant (py : Interp) (timestamp : Str) : Option Instant := do
  let reading ← py.fromisoformat (isoCandidate (strip timestamp))
  reading.toUtc.toOption

/-- An unsigned envelope with its hash and a signature, as the signer puts them in. -/
def completed (py : Interp) (unsigned : SignedEvent) (raw : Bytes) : Except Exn SignedEvent := do
  let hash ← EventChain.computeEventHash py unsigned
  return (unsigned.withEventHash hash).withSignature (Base64.encode raw) raw

/-- The same record: every field equal, the event as a JSON value. -/
structure SameEnvelope (e f : SignedEvent) : Prop extends SameContent e f where
  eventHash : e.eventHash = f.eventHash
  signature : e.signature = f.signature
  signatureBytes : e.signatureBytes = f.signatureBytes

theorem Valid.sameEnvelope {py : Interp} {e : SignedEvent} (h : Valid py e) :
    SameEnvelope e (EnvelopeRoundTrip.readBack e) where
  formatVersion := rfl
  nodeId := rfl
  sequence := rfl
  timestamp := rfl
  previousEventHash := rfl
  event := same_norm rfl _ ((encodable_event h.event).writable 1 _ h.distinct)
  signatureAlgorithm := rfl
  hashAlgorithm := rfl
  keyId := rfl
  eventHash := rfl
  signature := rfl
  signatureBytes := rfl

theorem validateHash_of_isDigest {s : Str} (h : IsDigest s) : validateHash (.str s) = .ok s := by
  refine bind_eq_ok.mpr ⟨s, rfl, bind_eq_ok.mpr ⟨(), require_eq_ok.mpr ?_, rfl⟩⟩
  have : isDigest s = true := by
    simp only [isDigest, Bool.and_eq_true, beq_iff_eq, List.all_eq_true]
    exact h
  simp [matchesToEnd, this]

/-- A canonical timestamp from year 1000 on is normalised to itself. -/
theorem normalizeTimestamp_idem {py : Interp} {s t : Str}
    (hyear : ∀ i, utcInstant py s = some i → 1000 ≤ i.year)
    (h : normalizeTimestamp py (.str s) = .ok t) : normalizeTimestamp py (.str t) = .ok t := by
  obtain ⟨r, i, hr, hi, rfl⟩ := normalizeTimestamp_eq_ok h
  apply normalizeTimestamp_text
  apply hyear
  rw [utcInstant, hr]
  simp [hi, Except.toOption]

/-- An unsigned envelope as `build_unsigned` returns it. -/
structure Built (py : Interp) (nodeId : Str) (sequence : Int) (timestamp previousHash : Str)
    (event : Value) (keyId algorithm hashName : Str) (e : SignedEvent) : Prop where
  envelope : e = { formatVersion := .v1_0, nodeId, sequence, timestamp := e.timestamp,
                   previousEventHash := previousHash, eventHash := zeroHash, event := e.event,
                   signatureAlgorithm := e.signatureAlgorithm, hashAlgorithm := e.hashAlgorithm,
                   keyId, signature := [], signatureBytes := [] }
  timestamp : normalizeTimestamp py (.str timestamp) = .ok e.timestamp
  nodeId : validateIdentifier (.str nodeId) = .ok nodeId
  sequence : validateSequence (.int sequence) = .ok sequence
  previousEventHash : validateHash (.str previousHash) = .ok previousHash
  event : event = .dict e.event
  valid : validateEvent (.dict e.event) = .ok e.event
  keyId : validateIdentifier (.str keyId) = .ok keyId
  signatureAlgorithm : SignatureAlgorithm.ofText? algorithm = some e.signatureAlgorithm
  hashAlgorithm : HashAlgorithm.ofText? hashName = some e.hashAlgorithm

theorem buildUnsigned_eq_ok {py : Interp} {nodeId timestamp previousHash keyId algorithm
    hashName : Str} {sequence : Int} {event : Value} {e : SignedEvent} :
    buildUnsigned py nodeId sequence timestamp previousHash event keyId algorithm hashName =
      .ok e ↔ Built py nodeId sequence timestamp previousHash event keyId algorithm hashName e := by
  constructor
  · intro h
    obtain ⟨signatureAlgorithm, halgorithm, h⟩ := bind_eq_ok.mp h
    obtain ⟨hashAlgorithm, hhash, h⟩ := bind_eq_ok.mp h
    obtain ⟨normalized, htime, h⟩ := bind_eq_ok.mp h
    obtain ⟨node, hnode, h⟩ := bind_eq_ok.mp h
    obtain ⟨number, hnumber, h⟩ := bind_eq_ok.mp h
    obtain ⟨previous, hprevious, h⟩ := bind_eq_ok.mp h
    obtain ⟨members, hmembers, h⟩ := bind_eq_ok.mp h
    obtain ⟨key, hkey, h⟩ := bind_eq_ok.mp h
    obtain rfl := Except.ok.inj h
    obtain ⟨rfl, -⟩ := validateEvent_eq_ok.mp hmembers
    -- each validator returns the text it was given
    obtain rfl := Value.str.inj (validateIdentifier_str hnode)
    obtain rfl := Value.int.inj (validateSequence_eq_ok.mp hnumber).1
    obtain rfl := Value.str.inj (validateHash_str hprevious)
    obtain rfl := Value.str.inj (validateIdentifier_str hkey)
    exact
      { timestamp := asMalformed_eq_ok.mp htime
        nodeId := hnode
        sequence := hnumber
        previousEventHash := hprevious
        event := rfl
        valid := hmembers
        keyId := hkey
        signatureAlgorithm := supported_eq_ok.mp halgorithm
        hashAlgorithm := supported_eq_ok.mp hhash
        envelope := rfl }
  · intro h
    rw [h.envelope, h.event]
    refine bind_eq_ok.mpr ⟨_, supported_eq_ok.mpr h.signatureAlgorithm, ?_⟩
    refine bind_eq_ok.mpr ⟨_, supported_eq_ok.mpr h.hashAlgorithm, ?_⟩
    refine bind_eq_ok.mpr ⟨_, asMalformed_eq_ok.mpr h.timestamp, ?_⟩
    refine bind_eq_ok.mpr ⟨_, h.nodeId, bind_eq_ok.mpr ⟨_, h.sequence, ?_⟩⟩
    refine bind_eq_ok.mpr ⟨_, h.previousEventHash, bind_eq_ok.mpr ⟨_, h.valid, ?_⟩⟩
    exact bind_eq_ok.mpr ⟨_, h.keyId, rfl⟩

/-- An envelope that was built fits when a digest and a short signature are put in. -/
theorem Built.fits {py : Interp} {nodeId timestamp previousHash keyId algorithm hashName : Str}
    {sequence : Int} {event : Value} {unsigned : SignedEvent}
    (h : Built py nodeId sequence timestamp previousHash event keyId algorithm hashName unsigned)
    {hash : Str} (hhash : IsDigest hash) {raw : Bytes} (hlen : raw.length ≤ 4627) :
    Fits ((unsigned.withEventHash hash).withSignature (Base64.encode raw) raw) := by
  rw [h.envelope]
  exact
    { timestamp := shortText_timestamp h.timestamp
      signature := shortText_signature hlen
      event := h.valid
      nodeId := h.nodeId
      sequence := h.sequence
      previousEventHash := h.previousEventHash
      eventHash := validateHash_of_isDigest hhash
      keyId := h.keyId }

/-- The hash payload leaves out the hash and the signature, so any digest stands in for them. -/
theorem Built.hash {py : Interp} {nodeId timestamp previousHash keyId algorithm hashName : Str}
    {sequence : Int} {event : Value} {unsigned : SignedEvent}
    (h : Built py nodeId sequence timestamp previousHash event keyId algorithm hashName unsigned) :
    ∃ hash, EventChain.computeEventHash py unsigned = .ok hash ∧ IsDigest hash := by
  have hempty : ([] : Bytes).length ≤ 4627 := by decide
  obtain ⟨payload, hpayload⟩ := SignedEvent.hashPayload_ok
    (h.fits (py.sha3_256_digest []) hempty).encodable
  have hunsigned : unsigned.hashPayload = .ok payload := hpayload
  exact ⟨_, bind_eq_ok.mpr ⟨payload, hunsigned, rfl⟩, py.sha3_256_digest payload⟩

/-- What `build_unsigned` returns is completed without an exception. -/
theorem completed_of_buildUnsigned {py : Interp} {nodeId timestamp previousHash keyId algorithm
    hashName : Str} {sequence : Int} {event : Value} {unsigned : SignedEvent}
    (hu : buildUnsigned py nodeId sequence timestamp previousHash event keyId algorithm hashName =
      .ok unsigned) (hd : event.Distinct)
    (hyear : ∀ i, utcInstant py timestamp = some i → 1000 ≤ i.year) {raw : Bytes} (hne : raw ≠ [])
    (hlen : raw.length ≤ 4627) :
    ∃ e, completed py unsigned raw = .ok e ∧ Complete py e ∧ e.signatureBytes = raw := by
  have hb := buildUnsigned_eq_ok.mp hu
  obtain ⟨hash, hhash, hdigest⟩ := hb.hash
  have hf := hb.fits hdigest hlen
  refine ⟨_, bind_eq_ok.mpr ⟨hash, hhash, rfl⟩, ?_, rfl⟩
  exact
    { timestamp := normalizeTimestamp_idem hyear hb.timestamp
      signature := rfl
      signed := hne
      short := hlen
      event := hf.event
      distinct := hb.event ▸ hd
      nodeId := hf.nodeId
      sequence := hf.sequence
      previousEventHash := hf.previousEventHash
      eventHash := hf.eventHash
      keyId := hf.keyId }

/-- A completed record is one line, which is parsed as the same record with the raw
signature, and the parsed record is written as the same line. -/
theorem envelope_round_trip (py : Interp)
    (nodeId timestamp previousHash keyId algorithm hashName : Str) (sequence : Int) (event : Value)
    (unsigned : SignedEvent) (raw : Bytes) (hd : event.Distinct)
    (hyear : ∀ i, utcInstant py timestamp = some i → 1000 ≤ i.year)
    (hu : buildUnsigned py nodeId sequence timestamp previousHash event keyId algorithm hashName =
      .ok unsigned) (hne : raw ≠ []) (hlen : raw.length ≤ 4627) :
    ∃ e line e', completed py unsigned raw = .ok e ∧ e.toJsonLine = .ok line ∧ lf ∉ line ∧
      parseSignedEventJson py maxEvidenceBytes true (.text line) = .ok e' ∧ SameEnvelope e e' ∧
      e'.signatureBytes = raw ∧ e'.toJsonLine = .ok line := by
  obtain ⟨e, he, hc, hraw⟩ := completed_of_buildUnsigned hu hd hyear hne hlen
  obtain ⟨line, hline⟩ := hc.fits.encodable.dump 0 0
  have hlf : lf ∉ line := by
    intro hmem
    have := (hc.fits.encodable.plain hline lf hmem).1
    exact absurd this (by decide)
  exact ⟨e, line, readBack e, he, hc.valid.toJsonLine_eq hline, hlf,
    hc.valid.parse hline (hc.fits.byteLength_le hline), hc.valid.sameEnvelope, hraw,
    hc.valid.readBack.toJsonLine_eq (hc.valid.dump_readBack hline)⟩

/-- An event with a tuple and a nested dictionary. -/
def sampleEvent : Value :=
  .dict [(.str (lit "b"), .tuple [.int 1, .null]),
    (.str (lit "a"), .dict [(.str (lit "x"), .str (lit "y"))])]

/-- A timestamp with an offset. -/
def sampleTime : Str := lit "2026-01-01T02:00:00.000000" ++ lit "+02:00"

set_option maxRecDepth 100000 in
theorem buildUnsigned_sample :
    (buildUnsigned .reference (lit "n") 1 sampleTime zeroHash sampleEvent (lit "k")
      (lit "ML-DSA-65") (lit "SHA3-256")).toOption.map SignedEvent.timestamp =
      some (lit "2026-01-01T00:00:00.000000Z") := by
  decide +kernel

set_option maxRecDepth 100000 in
theorem utcInstant_sample : (utcInstant .reference sampleTime).map Instant.year = some 2026 := by
  decide +kernel

/-- The sample event makes the round trip. -/
theorem envelope_round_trip_sample :
    ∃ unsigned e line e', buildUnsigned .reference (lit "n") 1 sampleTime zeroHash sampleEvent
        (lit "k") (lit "ML-DSA-65") (lit "SHA3-256") = .ok unsigned ∧
      completed .reference unsigned [0x70, 0x6B] = .ok e ∧ e.toJsonLine = .ok line ∧ lf ∉ line ∧
      parseSignedEventJson .reference maxEvidenceBytes true (.text line) = .ok e' ∧
      SameEnvelope e e' ∧ e'.signatureBytes = [0x70, 0x6B] ∧ e'.toJsonLine = .ok line := by
  cases hu : buildUnsigned .reference (lit "n") 1 sampleTime zeroHash sampleEvent (lit "k")
      (lit "ML-DSA-65") (lit "SHA3-256") with
  | error x =>
      have hsome := buildUnsigned_sample
      rw [hu] at hsome
      cases hsome
  | ok unsigned =>
      have hd : sampleEvent.Distinct := by
        refine ⟨by decide +kernel, ⟨trivial, trivial, trivial⟩, ⟨by decide +kernel, trivial, trivial⟩,
          trivial⟩
      have hyear : ∀ i, utcInstant .reference sampleTime = some i → 1000 ≤ i.year := by
        intro i hi
        have := utcInstant_sample
        rw [hi] at this
        have := Option.some.inj this
        omega
      obtain ⟨e, line, e', h⟩ := envelope_round_trip .reference (lit "n") sampleTime zeroHash (lit "k")
        (lit "ML-DSA-65") (lit "SHA3-256") 1 sampleEvent unsigned [0x70, 0x6B] hd hyear hu (by simp)
        (by decide)
      exact ⟨unsigned, e, line, e', rfl, h⟩

end EnvelopeRoundTrip

end IcsDeception
