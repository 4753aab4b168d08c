import IcsDeception.EnvelopeRoundTrip

/-!
# The identifiers and digests that the parser accepts

The documented grammar of the identifiers and digests of a record, and the one that the
anchored patterns accept: the same texts, and besides them a text with one newline at
its end. Every documented text is accepted in the place of another one.
-/

namespace IcsDeception

open Text Json Canonicalizer Models EnvelopeRoundTrip

namespace EnvelopeGrammar

/-! ## The documented grammar -/

/-- An identifier of the field reference: 1 to 128 characters, letters, digits and `._:-`, the
first one a letter or a digit. -/
structure IsIdentifier (s : Str) : Prop where
  nonempty : 1 ≤ s.length
  short : s.length ≤ 128
  chars : ∀ c ∈ s, isIdChar c = true
  first : ∀ c, s.head? = some c → isAlnum c = true

/-- The names and digests of a record are as documented. -/
structure Documented (e : SignedEvent) : Prop where
  nodeId : IsIdentifier e.nodeId
  keyId : IsIdentifier e.keyId
  previousEventHash : IsDigest e.previousEventHash
  eventHash : IsDigest e.eventHash

/-- None of the names and digests of a record ends in a newline. -/
structure NoFinalNewline (e : SignedEvent) : Prop where
  nodeId : e.nodeId.getLast? ≠ some lf
  keyId : e.keyId.getLast? ≠ some lf
  previousEventHash : e.previousEventHash.getLast? ≠ some lf
  eventHash : e.eventHash.getLast? ≠ some lf

theorem isIdChar_of_isAlnum {c : CodePoint} (h : isAlnum c = true) : isIdChar c = true := by
  simp [isIdChar, h]

/-- The pattern of identifiers describes the documented ones. -/
theorem isIdentifier_iff {s : Str} : isIdentifier s = true ↔ IsIdentifier s := by
  cases s with
  | nil =>
      constructor
      · intro h
        cases h
      · intro h
        exact absurd h.nonempty (by simp)
  | cons c rest =>
      simp only [isIdentifier, Bool.and_eq_true, List.all_eq_true, decide_eq_true_eq]
      constructor
      · rintro ⟨⟨hc, hrest⟩, hlen⟩
        refine ⟨by simp, Nat.succ_le_succ hlen, ?_, ?_⟩
        · exact List.forall_mem_cons.mpr ⟨isIdChar_of_isAlnum hc, hrest⟩
        · intro d hd
          rwa [← Option.some.inj hd]
      · intro h
        refine ⟨⟨h.first c rfl, fun d hd => h.chars d (List.mem_cons_of_mem c hd)⟩, ?_⟩
        have := h.short
        rw [List.length_cons] at this
        omega

theorem isDigest_iff {s : Str} : isDigest s = true ↔ IsDigest s := by
  simp only [isDigest, Bool.and_eq_true, beq_iff_eq, List.all_eq_true]
  rfl

/-- A text over characters other than the newline does not end in one. -/
theorem getLast?_ne_lf {s : Str} {p : CodePoint → Bool} (h : ∀ c ∈ s, p c = true)
    (hlf : p lf = false) : s.getLast? ≠ some lf := by
  intro hl
  have := h lf (List.mem_of_getLast? hl)
  rw [hlf] at this
  cases this

/-- The anchored pattern accepts a text of the grammar, or one with a newline after it. -/
theorem matchesToEnd_iff {p : Str → Bool} {s : Str} (hp : p s = true → s.getLast? ≠ some lf)
    (hm : matchesToEnd p s = true) : p s = true ↔ s.getLast? ≠ some lf := by
  simp only [matchesToEnd, Bool.or_eq_true, Bool.and_eq_true, beq_iff_eq] at hm
  constructor
  · exact hp
  · intro hne
    rcases hm with hm | ⟨hl, -⟩
    · exact hm
    · exact absurd hl hne

theorem identifier_no_newline {s : Str} (h : isIdentifier s = true) : s.getLast? ≠ some lf :=
  getLast?_ne_lf (isIdentifier_iff.mp h).chars (by decide)

theorem digest_no_newline {s : Str} (h : isDigest s = true) : s.getLast? ≠ some lf :=
  getLast?_ne_lf (isDigest_iff.mp h).2 (by decide)

theorem validateHash_matches {v : Value} {s : Str} (h : validateHash v = .ok s) :
    matchesToEnd isDigest s = true := by
  obtain ⟨t, -, h⟩ := bind_eq_ok.mp h
  obtain ⟨⟨⟩, hmatch, h⟩ := bind_eq_ok.mp h
  obtain rfl := Except.ok.inj h
  exact require_eq_ok.mp hmatch

/-- An accepted identifier is a documented one unless it ends in a newline. -/
theorem identifier_iff {s : Str} (h : validateIdentifier (.str s) = .ok s) :
    IsIdentifier s ↔ s.getLast? ≠ some lf :=
  isIdentifier_iff.symm.trans
    (matchesToEnd_iff identifier_no_newline (validateIdentifier_matches h).1)

/-- An accepted digest is a documented one unless it ends in a newline. -/
theorem digest_iff {s : Str} (h : validateHash (.str s) = .ok s) :
    IsDigest s ↔ s.getLast? ≠ some lf :=
  isDigest_iff.symm.trans (matchesToEnd_iff digest_no_newline (validateHash_matches h))

theorem validateIdentifier_of_isIdentifier {s : Str} (h : IsIdentifier s) :
    validateIdentifier (.str s) = .ok s := by
  have hne : s ≠ [] := List.ne_nil_of_length_pos h.nonempty
  refine bind_eq_ok.mpr ⟨s, rfl, bind_eq_ok.mpr ⟨(), require_eq_ok.mpr (decide_eq_true hne),
    bind_eq_ok.mpr ⟨(), require_eq_ok.mpr (decide_eq_true h.short),
      bind_eq_ok.mpr ⟨(), require_eq_ok.mpr ?_, rfl⟩⟩⟩⟩
  simp [matchesToEnd, isIdentifier_iff.mpr h]

/-- What the validators of the names and digests have let through. -/
structure NamesChecked (e : SignedEvent) : Prop where
  nodeId : validateIdentifier (.str e.nodeId) = .ok e.nodeId
  keyId : validateIdentifier (.str e.keyId) = .ok e.keyId
  previousEventHash : validateHash (.str e.previousEventHash) = .ok e.previousEventHash
  eventHash : validateHash (.str e.eventHash) = .ok e.eventHash

/-- An accepted record is as documented exactly when no newline ends a name or digest. -/
theorem NamesChecked.documented_iff {e : SignedEvent} (h : NamesChecked e) :
    Documented e ↔ NoFinalNewline e := by
  constructor
  · intro hd
    exact ⟨(identifier_iff h.nodeId).mp hd.nodeId, (identifier_iff h.keyId).mp hd.keyId,
      (digest_iff h.previousEventHash).mp hd.previousEventHash,
      (digest_iff h.eventHash).mp hd.eventHash⟩
  · intro hl
    exact ⟨(identifier_iff h.nodeId).mpr hl.nodeId, (identifier_iff h.keyId).mpr hl.keyId,
      (digest_iff h.previousEventHash).mpr hl.previousEventHash,
      (digest_iff h.eventHash).mpr hl.eventHash⟩

/-! ## Another text in the place of a field -/

/-- The texts that are put in the place of the names and digests of a record. -/
structure Names where
  nodeId : Str
  keyId : Str
  previousEventHash : Str
  eventHash : Str

/-- The text for a field, if it is one of the four. -/
def Names.of (names : Names) (key : Key) : Option Str :=
  [(Key.str (lit "node_id"), names.nodeId), (.str (lit "key_id"), names.keyId),
   (.str (lit "previous_event_hash"), names.previousEventHash),
   (.str (lit "event_hash"), names.eventHash)].lookup key

/-- A mapping with the names and digests replaced. -/
def replaceNames (names : Names) (data : List (Key × Value)) : List (Key × Value) :=
  data.map fun p => (p.1, ((names.of p.1).map Value.str).getD p.2)

/-- A record with the names and digests replaced. -/
def withNames (names : Names) (e : SignedEvent) : SignedEvent :=
  { e with nodeId := names.nodeId, keyId := names.keyId,
           previousEventHash := names.previousEventHash, eventHash := names.eventHash }

/-- The replaced texts are as documented. -/
structure Names.Documented (names : Names) : Prop where
  nodeId : IsIdentifier names.nodeId
  keyId : IsIdentifier names.keyId
  previousEventHash : IsDigest names.previousEventHash
  eventHash : IsDigest names.eventHash

theorem lookup_replaceNames (names : Names) (data : List (Key × Value)) (k : Key) :
    (replaceNames names data).lookup k =
      (data.lookup k).map fun v => ((names.of k).map Value.str).getD v := by
  induction data with
  | nil => rfl
  | cons p rest ih =>
      obtain ⟨key, v⟩ := p
      have hcons : replaceNames names ((key, v) :: rest) =
          (key, ((names.of key).map Value.str).getD v) :: replaceNames names rest := rfl
      rw [hcons, List.lookup_cons, List.lookup_cons, ih]
      by_cases hk : k = key
      · subst hk
        simp
      · have hb : (k == key) = false := by simpa using hk
        rw [hb]

theorem lookup_kept {names : Names} {k : Key} (h : names.of k = none) (data : List (Key × Value)) :
    (replaceNames names data).lookup k = data.lookup k := by
  rw [lookup_replaceNames, h]
  simp

theorem field_kept {names : Names} (name : String) (h : names.of (.str (lit name)) = none)
    (data : List (Key × Value)) : field (replaceNames names data) name = field data name := by
  rw [field, field, lookup_kept h]

theorem field_replaced {names : Names} (name : String) {s : Str}
    (h : names.of (.str (lit name)) = some s) {data : List (Key × Value)}
    (hs : (data.lookup (.str (lit name))).isSome = true) :
    field (replaceNames names data) name = .str s := by
  obtain ⟨v, hv⟩ := Option.isSome_iff_exists.mp hs
  rw [field, lookup_replaceNames, hv, h]
  rfl

theorem textOk_identifier {s : Str} (h : IsIdentifier s) : TextOk s := by
  obtain ⟨hl, hs⟩ := shortText_identifier (validateIdentifier_of_isIdentifier h)
  exact ⟨hl.trans (by decide), hs⟩

theorem textOk_digest {s : Str} (h : IsDigest s) : TextOk s := by
  obtain ⟨hl, hs⟩ := shortText_isDigest (isDigest_iff.mpr h)
  exact ⟨hl.trans (by decide), hs⟩

theorem Names.Documented.textOk {names : Names} (h : names.Documented) {k : Key} {s : Str}
    (hk : names.of k = some s) : TextOk s := by
  have hmem := mem_of_lookup hk
  simp only [List.mem_cons, Prod.mk.injEq, List.not_mem_nil, or_false] at hmem
  rcases hmem with ⟨-, rfl⟩ | ⟨-, rfl⟩ | ⟨-, rfl⟩ | ⟨-, rfl⟩
  · exact textOk_identifier h.nodeId
  · exact textOk_identifier h.keyId
  · exact textOk_digest h.previousEventHash
  · exact textOk_digest h.eventHash

/-- The replaced mapping still has a canonical form. -/
theorem encodable_replaceNames {names : Names} (hn : names.Documented)
    {data : List (Key × Value)} (h : Encodable 0 (.dict data)) :
    Encodable 0 (.dict (replaceNames names data)) := by
  refine ⟨h.1, encodableMembers_iff.mpr fun p hp => ?_⟩
  obtain ⟨q, hq, rfl⟩ := List.mem_map.mp hp
  obtain ⟨k, hk, htext, henc⟩ := encodableMembers_iff.mp h.2 q hq
  refine ⟨k, hk, htext, ?_⟩
  cases hname : names.of q.1 with
  | none => exact henc
  | some s => exact ⟨by decide, hn.textOk hname⟩

/-- The signature is read or not, and the rest is the same. -/
theorem ite_bind {α β : Type} {c : Prop} [Decidable c] (x y : Except Exn α)
    (k : α → Except Exn β) :
    (if c then x >>= k else y >>= k) = (if c then x else y) >>= k := by
  split_ifs <;> rfl

theorem namesChecked_of_parse {py : Interp} {maxBytes : Nat} {requireSignature : Bool}
    {data : List (Key × Value)} {e : SignedEvent}
    (h : parseSignedEvent py maxBytes requireSignature (.dict data) = .ok e) : NamesChecked e := by
  rw [parseSignedEvent] at h
  iterate 11 obtain ⟨_, -, h⟩ := bind_eq_ok.mp h
  dsimp only at h
  rw [ite_bind] at h
  iterate 2 obtain ⟨_, -, h⟩ := bind_eq_ok.mp h
  obtain ⟨nodeId, hnode, h⟩ := bind_eq_ok.mp h
  obtain ⟨sequence, -, h⟩ := bind_eq_ok.mp h
  obtain ⟨previous, hprevious, h⟩ := bind_eq_ok.mp h
  obtain ⟨eventHash, hhash, h⟩ := bind_eq_ok.mp h
  obtain ⟨keyId, hkey, h⟩ := bind_eq_ok.mp h
  obtain rfl := Except.ok.inj h
  exact ⟨validateIdentifier_str hnode ▸ hnode, validateIdentifier_str hkey ▸ hkey,
    validateHash_str hprevious ▸ hprevious, validateHash_str hhash ▸ hhash⟩

/-- A mapping that parses does so with documented texts in the place of its names. -/
theorem parseSignedEvent_replaceNames {py : Interp} {maxBytes : Nat} {requireSignature : Bool}
    {data : List (Key × Value)} {e : SignedEvent} {names : Names} (hn : names.Documented)
    (h : parseSignedEvent py maxBytes requireSignature (.dict data) = .ok e)
    (hsize : ∀ b, canonicalBytes (.dict (replaceNames names data)) = .ok b → b.length ≤ maxBytes) :
    parseSignedEvent py maxBytes requireSignature (.dict (replaceNames names data)) =
      .ok (withNames names e) := by
  rw [parseSignedEvent] at h
  obtain ⟨⟨⟩, hknown, h⟩ := bind_eq_ok.mp h
  obtain ⟨⟨⟩, hpresent, h⟩ := bind_eq_ok.mp h
  obtain ⟨version, hversion, h⟩ := bind_eq_ok.mp h
  obtain ⟨formatVersion, hformat, h⟩ := bind_eq_ok.mp h
  obtain ⟨algorithm, halgorithm, h⟩ := bind_eq_ok.mp h
  obtain ⟨signatureAlgorithm, hsignatureAlgorithm, h⟩ := bind_eq_ok.mp h
  obtain ⟨hashName, hhashName, h⟩ := bind_eq_ok.mp h
  obtain ⟨hashAlgorithm, hhashAlgorithm, h⟩ := bind_eq_ok.mp h
  obtain ⟨timestamp, htimestamp, h⟩ := bind_eq_ok.mp h
  obtain ⟨normalized, hnormalized, h⟩ := bind_eq_ok.mp h
  obtain ⟨⟨⟩, hcanonical, h⟩ := bind_eq_ok.mp h
  dsimp only at h
  rw [ite_bind] at h
  obtain ⟨signatureBytes, hsignature, h⟩ := bind_eq_ok.mp h
  obtain ⟨event, hevent, h⟩ := bind_eq_ok.mp h
  obtain ⟨nodeId, hnode, h⟩ := bind_eq_ok.mp h
  obtain ⟨sequence, hsequence, h⟩ := bind_eq_ok.mp h
  obtain ⟨previous, hprevious, h⟩ := bind_eq_ok.mp h
  obtain ⟨eventHash, hhash, h⟩ := bind_eq_ok.mp h
  obtain ⟨keyId, hkey, h⟩ := bind_eq_ok.mp h
  obtain rfl := Except.ok.inj h
  have hsome : ∀ f ∈ requiredFields requireSignature, (data.lookup (.str f)).isSome = true :=
    List.all_eq_true.mp (require_eq_ok.mp hpresent)
  have hfields : ∀ f ∈ [lit "node_id", lit "key_id", lit "previous_event_hash", lit "event_hash"],
      f ∈ requiredFields requireSignature := by
    cases requireSignature <;> decide
  have hfield : ∀ f ∈ [lit "node_id", lit "key_id", lit "previous_event_hash", lit "event_hash"],
      (data.lookup (.str f)).isSome = true := fun f hf => hsome f (hfields f hf)
  -- the size guard reads the event as before and the new canonical form
  obtain ⟨body, hbody, hguard⟩ := bind_eq_ok.mp hevent
  obtain ⟨b, hb, hguard⟩ := bind_eq_ok.mp hguard
  obtain ⟨⟨⟩, -, hguard⟩ := bind_eq_ok.mp hguard
  obtain rfl := Except.ok.inj hguard
  have henc := encodable_replaceNames hn (canonicalBytes_eq_ok.mp (asMalformed_eq_ok.mp hb)).1
  obtain ⟨t, ht⟩ := henc.dump 0 0
  have hbytes := canonicalBytes_eq_ok.mpr ⟨henc, t, ht, rfl⟩
  have hguard : parseSignedEventSizeGuard (replaceNames names data) maxBytes = .ok body := by
    rw [parseSignedEventSizeGuard, field_kept "event" rfl]
    exact bind_eq_ok.mpr ⟨body, hbody, bind_eq_ok.mpr ⟨_, asMalformed_eq_ok.mpr hbytes,
      bind_eq_ok.mpr ⟨(), require_eq_ok.mpr (decide_eq_true (hsize _ hbytes)), rfl⟩⟩⟩
  rw [parseSignedEvent, field_kept "format_version" rfl, field_kept "signature_algorithm" rfl,
    field_kept "hash_algorithm" rfl, field_kept "timestamp" rfl, field_kept "signature" rfl,
    field_kept "sequence" rfl, field_replaced "node_id" rfl (hfield _ (by decide)),
    field_replaced "key_id" rfl (hfield _ (by decide)),
    field_replaced "previous_event_hash" rfl (hfield _ (by decide)),
    field_replaced "event_hash" rfl (hfield _ (by decide)), lookup_kept rfl]
  refine bind_eq_ok.mpr ⟨(), ?_, ?_⟩
  · rw [require_eq_ok] at hknown ⊢
    rw [← hknown, replaceNames, List.all_map]
    rfl
  refine bind_eq_ok.mpr ⟨(), ?_, ?_⟩
  · rw [require_eq_ok] at hpresent ⊢
    rw [← hpresent]
    simp only [lookup_replaceNames, Option.isSome_map]
  refine bind_eq_ok.mpr ⟨version, hversion, ?_⟩
  refine bind_eq_ok.mpr ⟨formatVersion, hformat, ?_⟩
  refine bind_eq_ok.mpr ⟨algorithm, halgorithm, ?_⟩
  refine bind_eq_ok.mpr ⟨signatureAlgorithm, hsignatureAlgorithm, ?_⟩
  refine bind_eq_ok.mpr ⟨hashName, hhashName, ?_⟩
  refine bind_eq_ok.mpr ⟨hashAlgorithm, hhashAlgorithm, ?_⟩
  refine bind_eq_ok.mpr ⟨timestamp, htimestamp, ?_⟩
  refine bind_eq_ok.mpr ⟨normalized, hnormalized, ?_⟩
  refine bind_eq_ok.mpr ⟨(), hcanonical, ?_⟩
  dsimp only
  rw [ite_bind]
  refine bind_eq_ok.mpr ⟨signatureBytes, hsignature, ?_⟩
  refine bind_eq_ok.mpr ⟨body, hguard, ?_⟩
  refine bind_eq_ok.mpr ⟨_, validateIdentifier_of_isIdentifier hn.nodeId, ?_⟩
  refine bind_eq_ok.mpr ⟨sequence, hsequence, ?_⟩
  refine bind_eq_ok.mpr ⟨_, validateHash_of_isDigest hn.previousEventHash, ?_⟩
  refine bind_eq_ok.mpr ⟨_, validateHash_of_isDigest hn.eventHash, ?_⟩
  exact bind_eq_ok.mpr ⟨_, validateIdentifier_of_isIdentifier hn.keyId, rfl⟩

/-- The mapping that the strict reader gets out of a line. -/
def ReadsTo (py : Interp) (line : Line) (data : List (Key × Value)) : Prop :=
  ∃ raw text, line.raw = some raw ∧ Utf8.decodeStrict raw = some text ∧
    loadsWith strictHooks py.jsonLimit text = .ok (.dict data)

/-- A line and the mapping in it are within the size limit. -/
structure Within (maxBytes : Nat) (line : Line) (data : List (Key × Value)) : Prop where
  raw : ∀ raw, line.raw = some raw → raw.length ≤ maxBytes
  canonical : ∀ b, canonicalBytes (.dict data) = .ok b → b.length ≤ maxBytes

theorem parseSignedEventJson_dict {py : Interp} {maxBytes : Nat} {requireSignature : Bool}
    {line : Line} {e : SignedEvent} :
    parseSignedEventJson py maxBytes requireSignature line = .ok e ↔
      ∃ raw data, line.raw = some raw ∧ raw.length ≤ maxBytes ∧ ReadsTo py line data ∧
        parseSignedEvent py maxBytes requireSignature (.dict data) = .ok e := by
  unfold parseSignedEventJson
  constructor
  · intro h
    obtain ⟨raw, hraw, h⟩ := bind_eq_ok.mp h
    obtain ⟨⟨⟩, hlen, h⟩ := bind_eq_ok.mp h
    obtain ⟨text, htext, h⟩ := bind_eq_ok.mp h
    have hraw := supported_eq_ok.mp hraw
    cases hl : loadsWith strictHooks py.jsonLimit text with
    | error x =>
        rw [hl] at h
        cases h
    | ok v =>
        rw [hl] at h
        cases v
        case dict data =>
          exact ⟨raw, data, hraw, of_decide_eq_true (require_eq_ok.mp hlen),
            ⟨raw, text, hraw, supported_eq_ok.mp htext, hl⟩, h⟩
        all_goals cases h
  · rintro ⟨raw, data, hraw, hlen, ⟨raw', text, hraw', htext, hl⟩, h⟩
    obtain rfl := Option.some.inj (hraw.symm.trans hraw')
    refine bind_eq_ok.mpr ⟨raw, supported_eq_ok.mpr hraw, ?_⟩
    refine bind_eq_ok.mpr ⟨(), require_eq_ok.mpr (decide_eq_true hlen), ?_⟩
    refine bind_eq_ok.mpr ⟨text, supported_eq_ok.mpr htext, ?_⟩
    rw [hl]
    exact h

theorem ReadsTo.unique {py : Interp} {line : Line} {data data' : List (Key × Value)}
    (h : ReadsTo py line data) (h' : ReadsTo py line data') : data = data' := by
  obtain ⟨raw, text, hraw, htext, hl⟩ := h
  obtain ⟨raw', text', hraw', htext', hl'⟩ := h'
  obtain rfl := Option.some.inj (hraw.symm.trans hraw')
  obtain rfl := Option.some.inj (htext.symm.trans htext')
  exact Value.dict.inj (Except.ok.inj (hl.symm.trans hl'))

/-- The names and digests of an accepted record are as documented exactly when none of them
ends in a newline, and documented ones in their place keep a record accepted. -/
theorem envelope_grammar_iff (py : Interp) (maxBytes : Nat) (requireSignature : Bool) (line : Line)
    (e : SignedEvent) (hparse : parseSignedEventJson py maxBytes requireSignature line = .ok e) :
    (Documented e ↔ NoFinalNewline e) ∧
    ∀ data names line', ReadsTo py line data → names.Documented →
      ReadsTo py line' (replaceNames names data) → Within maxBytes line' (replaceNames names data) →
      parseSignedEventJson py maxBytes requireSignature line' = .ok (withNames names e) := by
  obtain ⟨raw, data, -, -, hreads, h⟩ := parseSignedEventJson_dict.mp hparse
  refine ⟨(namesChecked_of_parse h).documented_iff, ?_⟩
  intro data' names line' hreads' hn hline hsize
  obtain rfl := hreads.unique hreads'
  obtain ⟨raw', text', hraw', -⟩ := id hline
  exact parseSignedEventJson_dict.mpr ⟨raw', _, hraw', hsize.raw raw' hraw', hline,
    parseSignedEvent_replaceNames hn h hsize.canonical⟩

/-! ## An identifier with a newline -/

/-- A record of a node, its name as it stands in the text. -/
def nodeRecord (node : Str) : Line :=
  .text (lit "\x7b\"event\":\x7b\x7d,\"event_hash\":\"" ++ zeroHash ++
    lit "\",\"format_version\":\"1.0\"," ++ lit "\"hash_algorithm\":\"SHA3-256\"," ++
    lit "\"key_id\":\"k\",\"node_id\":\"" ++ node ++ lit "\",\"previous_event_hash\":\"" ++
    zeroHash ++ lit "\",\"sequence\":1,\"signature\":" ++ lit "\"cGs=\"," ++
    lit "\"signature_algorithm\":" ++ lit "\"ML-DSA-65\",\"timestamp\":\"" ++
    lit "2026-01-01T00:00:00.000000Z\"\x7d")

set_option maxRecDepth 100000 in
theorem parse_nodeRecord : (parseSignedEventJson .reference maxEvidenceBytes true
    (nodeRecord (lit "n\\n"))).toOption.map SignedEvent.nodeId = some (lit "n" ++ [lf]) := by
  decide +kernel

/-- A node whose name ends in a newline is accepted. -/
theorem identifier_with_newline_accepted :
    ∃ e, parseSignedEventJson .reference maxEvidenceBytes true (nodeRecord (lit "n\\n")) = .ok e ∧
      e.nodeId = lit "n" ++ [lf] ∧ ¬ Documented e := by
  obtain ⟨e, he, hnode⟩ := eq_ok_of_toOption parse_nodeRecord
  refine ⟨e, he, hnode, fun h => ?_⟩
  have hchars := h.nodeId.chars lf (by rw [hnode]; simp)
  revert hchars
  decide

set_option maxRecDepth 100000 in
theorem parse_plainRecord : (parseSignedEventJson .reference maxEvidenceBytes true
    (nodeRecord (lit "n"))).toOption.map (fun e => (e.nodeId, e.keyId, e.previousEventHash,
      e.eventHash)) = some (lit "n", lit "k", zeroHash, zeroHash) := by
  decide +kernel

/-- A record of node `n` is accepted, and its names and digests are as documented. -/
theorem envelope_grammar_plain :
    ∃ e, parseSignedEventJson .reference maxEvidenceBytes true (nodeRecord (lit "n")) = .ok e ∧
      Documented e := by
  obtain ⟨e, he, hfields⟩ := eq_ok_of_toOption parse_plainRecord
  obtain ⟨hnode, hkey, hprevious, hhash⟩ := by simpa only [Prod.mk.injEq] using hfields
  refine ⟨e, he, (envelope_grammar_iff .reference maxEvidenceBytes true _ e he).1.mpr ?_⟩
  refine ⟨?_, ?_, ?_, ?_⟩
  · rw [hnode]
    decide
  · rw [hkey]
    decide
  · rw [hprevious]
    decide
  · rw [hhash]
    decide

end EnvelopeGrammar

end IcsDeception
