import IcsDeception.EnvelopeRoundTrip

/-!
# The texts of a signature

The decoder of signatures ignores the unused bits of the last symbol before the padding, and
some interpreters take more padding than is needed. So a signature has one accepted text when
its text is not padded and no padding is taken behind it, and several otherwise; the same
holds of the line that a record is written as.
-/

namespace IcsDeception

open Text Json Canonicalizer Models EnvelopeRoundTrip

namespace SignatureText

variable {py : Interp}

/-! ## Signatures -/

theorem validateSignature_eq_ok {s : Str} {raw : Bytes} :
    validateSignature py (.str s) = .ok raw ↔
      Base64.Accepts py.excessPadding s raw ∧ raw ≠ [] := by
  constructor
  · intro h
    obtain ⟨t, ht, h⟩ := bind_eq_ok.mp h
    obtain rfl := Value.str.inj (asText_eq_ok.mp ht)
    obtain ⟨⟨⟩, -, h⟩ := bind_eq_ok.mp h
    obtain ⟨raw', hraw, h⟩ := bind_eq_ok.mp h
    obtain ⟨⟨⟩, hne, h⟩ := bind_eq_ok.mp h
    obtain rfl := Except.ok.inj h
    exact ⟨Base64.decodeWith_eq_some.mp (supported_eq_ok.mp hraw),
      of_decide_eq_true (require_eq_ok.mp hne)⟩
  · rintro ⟨h, hne⟩
    have hs : s ≠ [] := by
      rintro rfl
      have hnil := Base64.decodeWith_eq_some.mpr h
      rw [Base64.decodeWith_nil] at hnil
      exact hne (Option.some.inj hnil).symm
    exact bind_eq_ok.mpr ⟨s, rfl, bind_eq_ok.mpr ⟨(), require_eq_ok.mpr (decide_eq_true hs),
      bind_eq_ok.mpr ⟨raw, supported_eq_ok.mpr (Base64.decodeWith_eq_some.mpr h),
        bind_eq_ok.mpr ⟨(), require_eq_ok.mpr (decide_eq_true hne), rfl⟩⟩⟩⟩

/-- The accepted texts of the bytes of an unpadded text are this text, and the text with padding
behind it that the interpreter takes. -/
theorem text_unpadded_iff {s : Str} {raw : Bytes} (hs : validateSignature py (.str s) = .ok raw)
    (hpad : Base64.pad ∉ s) (t : Str) :
    validateSignature py (.str t) = .ok raw ↔ ∃ n, t = s ++ List.replicate n Base64.pad ∧
      (n = 0 ∨ py.excessPadding s.length n = true) := by
  obtain ⟨hs, hne⟩ := validateSignature_eq_ok.mp hs
  rw [validateSignature_eq_ok, and_iff_left hne, hs.unpadded_iff hpad]

theorem length_padded (s : Str) (n : Nat) :
    (s ++ List.replicate n Base64.pad).length = s.length + n := by
  rw [List.length_append, List.length_replicate]

/-- A padded text has another one for the same bytes that is no longer. -/
theorem text_respelled {s : Str} {raw : Bytes} (hs : validateSignature py (.str s) = .ok raw)
    (hpad : Base64.pad ∈ s) :
    ∃ t, t ≠ s ∧ t.length ≤ s.length ∧ validateSignature py (.str t) = .ok raw := by
  obtain ⟨hs, hne⟩ := validateSignature_eq_ok.mp hs
  obtain ⟨t, hts, hlen, ht⟩ := hs.other hpad
  exact ⟨t, hts, hlen, validateSignature_eq_ok.mpr ⟨ht, hne⟩⟩

theorem byteLength_symbol : ∀ n < 64, byteLength (escapeOne false (Base64.symbol n)) = 1 := by
  decide

/-- A signature takes a byte for each symbol, and its quotes. -/
theorem byteLength_quote_signature {s : Str} {raw : Bytes}
    (h : validateSignature py (.str s) = .ok raw) : byteLength (quote false s) = s.length + 2 := by
  obtain ⟨h, -⟩ := validateSignature_eq_ok.mp h
  apply byteLength_quote_eq
  intro c hc
  rcases h.chars c hc with rfl | ⟨n, hn, rfl⟩
  · decide
  · exact byteLength_symbol n hn

/-! ## Records -/

/-- Two records that agree on everything the signature covers, event bodies as JSON values. -/
structure SameCovered (e f : SignedEvent) : Prop extends SameContent e f where
  eventHash : e.eventHash = f.eventHash

theorem valid_of_parse {py : Interp} {maxBytes : Nat} {line : Line} {e : SignedEvent}
    (h : parseSignedEventJson py maxBytes true line = .ok e) : Valid py e := by
  have hw := wellFormed_of_parse h
  obtain ⟨-, -, data, -, -, -, -, -, hc⟩ := parseSignedEventJson_eq_ok.mp h
  exact
    { timestamp := hc.timestamp
      signature := hc.signature
      event := hc.event
      distinct := hw.distinct
      nodeId := hc.nodeId
      sequence := hc.sequence
      previousEventHash := hc.previousEventHash
      eventHash := hc.eventHash
      keyId := hc.keyId
      encodable := hw.encodable }

/-- A mapping and the fields of the record in it are the same JSON value. -/
theorem same_of_holds {data : List (Key × Value)} {e : SignedEvent} (h : Holds data e)
    (hw : Writable Style.compact (Value.ofMembers e.toDict)) :
    Same (Value.ofMembers e.toDict) (.dict data) := by
  refine ⟨data, rfl, ?_, ?_⟩
  · have hmembers : ∀ ms : List (Str × Value), (∀ p ∈ ms, p ∈ e.toDict) →
        SameMembers (ms.map fun p => (Key.str p.1, p.2)) data := by
      intro ms
      induction ms with
      | nil => exact fun _ => trivial
      | cons p ms ih =>
          intro hms
          obtain ⟨hp, hrest⟩ := List.forall_mem_cons.mp hms
          have hwp : Writable Style.compact p.2 := writable_of_mem (k := .str p.1) hw.2
            (List.mem_map_of_mem hp)
          exact ⟨⟨p.2, h.lookup p hp, same_of_norm_eq rfl _ _ hwp hwp rfl⟩, ih hrest⟩
    exact hmembers e.toDict fun _ hp => hp
  · intro k hk
    obtain ⟨p, hp, rfl⟩ := List.mem_map.mp hk
    obtain ⟨f, hf, hpf⟩ := h.keys p hp
    rw [← toDict_keys e] at hf
    obtain ⟨q, hq, rfl⟩ := List.mem_map.mp hf
    rw [hpf, List.map_map]
    exact List.mem_map.mpr ⟨q, hq, rfl⟩

/-- The line of an accepted record is within the size limit. -/
theorem byteLength_of_parse {py : Interp} {maxBytes : Nat} {line : Line} {e : SignedEvent} {t : Str}
    (h : parseSignedEventJson py maxBytes true line = .ok e)
    (ht : dump Style.compact 0 (Value.ofMembers e.toDict) = .ok t) : byteLength t ≤ maxBytes := by
  have hv := valid_of_parse h
  obtain ⟨raw, text, data, -, -, -, hl, hh, hc⟩ := parseSignedEventJson_eq_ok.mp h
  have hd : (Value.dict data).Distinct := strictHooks_keeps_distinct.loadsWith hl
  obtain ⟨b, hb, hlen⟩ := hc.size
  obtain ⟨-, u, hu, rfl⟩ := canonicalBytes_eq_ok.mp hb
  have hdt := distinct_toDict hv.distinct
  obtain rfl := dump_eq_of_same rfl 0 _ _ t u
    (same_of_holds hh (hv.encodable.writable 0 _ hdt)) hdt hd ht hu
  exact hlen

/-- Records that agree on what is covered and on the text of the signature are written as the
same line. -/
theorem toJsonLine_eq_of_same {py : Interp} {e f : SignedEvent} (he : Valid py e) (hf : Valid py f)
    (h : SameCovered e f) (hs : e.signature = f.signature) : f.toJsonLine = e.toJsonLine := by
  obtain ⟨t, ht⟩ := he.encodable.dump 0 0
  obtain ⟨u, hu⟩ := hf.encodable.dump 0 0
  have hsame : Same (Value.ofMembers e.toDict) (Value.ofMembers f.toDict) := by
    have hkeys : (f.toDict.map Prod.fst).Nodup := envelopeFields_nodup
    refine ⟨_, rfl, ?_, fun k hk => hk⟩
    have hlook : ∀ p ∈ f.toDict, (f.toDict.map fun p => (Key.str p.1, p.2)).lookup (.str p.1) =
        some p.2 := fun p hp => lookup_textKey hkeys hp
    simp only [SignedEvent.toDict, List.forall_mem_cons] at hlook
    obtain ⟨h₁, h₂, h₃, h₄, h₅, h₆, h₇, h₈, h₉, h₁₀, h₁₁, -⟩ := hlook
    refine ⟨⟨_, h₁, ?_⟩, ⟨_, h₂, ?_⟩, ⟨_, h₃, ?_⟩, ⟨_, h₄, ?_⟩, ⟨_, h₅, ?_⟩, ⟨_, h₆, ?_⟩,
      ⟨_, h₇, h.event⟩, ⟨_, h₈, ?_⟩, ⟨_, h₉, ?_⟩, ⟨_, h₁₀, ?_⟩, ⟨_, h₁₁, ?_⟩, trivial⟩
    · rw [h.formatVersion]; rfl
    · rw [h.nodeId]; rfl
    · rw [h.sequence]; rfl
    · rw [h.timestamp]; rfl
    · rw [h.previousEventHash]; rfl
    · rw [h.eventHash]; rfl
    · rw [h.signatureAlgorithm]; rfl
    · rw [h.hashAlgorithm]; rfl
    · rw [h.keyId]; rfl
    · rw [hs]; rfl
  obtain rfl := dump_eq_of_same rfl 0 _ _ t u hsame (distinct_toDict he.distinct)
    (distinct_toDict hf.distinct) ht hu
  rw [he.toJsonLine_eq ht, hf.toJsonLine_eq hu]

/-- The line of a record determines the text of its signature. -/
theorem signature_of_line {py : Interp} {e f : SignedEvent} (he : Valid py e) (hf : Valid py f)
    {t : Str} (ht : dump Style.compact 0 (Value.ofMembers e.toDict) = .ok t)
    (hu : dump Style.compact 0 (Value.ofMembers f.toDict) = .ok t) : e.signature = f.signature := by
  have hn := norm_eq_of_canonicalBytes (canonicalBytes_eq_ok.mpr ⟨he.encodable, t, ht, rfl⟩)
    (canonicalBytes_eq_ok.mpr ⟨hf.encodable, t, hu, rfl⟩) (distinct_toDict he.distinct)
    (distinct_toDict hf.distinct)
  have hl := norm_ofMembers_inj rfl ((toDict_keys e).trans (toDict_keys f).symm)
    ((toDict_keys e).symm ▸ envelopeFields_nodup) hn
  simp only [SignedEvent.toDict, List.map_cons, List.map_nil, List.cons.injEq, Prod.mk.injEq,
    true_and, and_true] at hl
  have hsig := hl.2.2.2.2.2.2.2.2
  simpa only [Json.norm, Value.str.injEq,
    Style.readBack_raw (show Style.compact.ascii = false from rfl)] using hsig

/-- A record with another text for its signature. -/
def respell (e : SignedEvent) (s : Str) : SignedEvent := { e with signature := s }

theorem encodable_respell {e : SignedEvent} (he : Valid py e) {s : Str}
    (hlen : s.length ≤ maxStringLength)
    (hs : validateSignature py (.str s) = .ok e.signatureBytes) :
    Encodable 0 (Value.ofMembers (respell e s).toDict) := by
  have hmembers := encodableMembers_ofMembers.mp he.encodable.2
  refine ⟨by decide, encodableMembers_ofMembers.mpr ?_⟩
  simp only [SignedEvent.toDict, List.forall_mem_cons] at hmembers
  obtain ⟨h₁, h₂, h₃, h₄, h₅, h₆, h₇, h₈, h₉, h₁₀, ⟨hname, -⟩, -⟩ := hmembers
  obtain ⟨hspells, -⟩ := validateSignature_eq_ok.mp hs
  have hscalar : Scalar s := by
    intro c hc
    rcases hspells.chars c hc with rfl | ⟨n, hn, rfl⟩
    · decide
    · have := Base64.symbol_ascii n hn
      simp only [isSurrogate, Bool.and_eq_false_iff, decide_eq_false_iff_not]
      omega
  simp only [SignedEvent.toDict, respell, List.forall_mem_cons]
  exact ⟨h₁, h₂, h₃, h₄, h₅, h₆, h₇, h₈, h₉, h₁₀, ⟨hname, by decide, hlen, hscalar⟩, by simp⟩

theorem valid_respell {e : SignedEvent} (he : Valid py e) {s : Str}
    (hlen : s.length ≤ maxStringLength)
    (hs : validateSignature py (.str s) = .ok e.signatureBytes) : Valid py (respell e s) :=
  { he with signature := hs, encodable := encodable_respell he hlen hs }

theorem signature_length_le {e : SignedEvent} (he : Valid py e) :
    e.signature.length ≤ maxStringLength := by
  have hmembers := encodableMembers_ofMembers.mp he.encodable.2
  simp only [SignedEvent.toDict, List.forall_mem_cons] at hmembers
  exact hmembers.2.2.2.2.2.2.2.2.2.2.1.2.2.1

/-- The lines of the two records differ in length by as much as the signatures do. -/
theorem byteLength_respell {e : SignedEvent} (he : Valid py e) {s t u : Str}
    (hs : validateSignature py (.str s) = .ok e.signatureBytes)
    (ht : dump Style.compact 0 (Value.ofMembers e.toDict) = .ok t)
    (hu : dump Style.compact 0 (Value.ofMembers (respell e s).toDict) = .ok u) :
    byteLength u + e.signature.length = byteLength t + s.length := by
  have hlast := @byteLength_of_last _ (e.toDict.take 10) _ (.str e.signature) (.str s) _ _ _ _
    ht hu rfl rfl
  rw [show Style.compact.ascii = false from rfl, byteLength_quote_signature he.signature,
    byteLength_quote_signature hs] at hlast
  omega

/-- The number of bytes of the line of a record. -/
def lineLength (e : SignedEvent) : Nat := (e.toJsonLine.toOption.map byteLength).getD 0

theorem lineLength_eq {e : SignedEvent} (he : Valid py e) {t : Str}
    (ht : dump Style.compact 0 (Value.ofMembers e.toDict) = .ok t) :
    lineLength e = byteLength t := by
  rw [lineLength, he.toJsonLine_eq ht]
  rfl

/-- A record is accepted with another text for its signature, where there is room for it. -/
theorem respelled_line {maxBytes : Nat} {line : Line} {e : SignedEvent}
    (h : parseSignedEventJson py maxBytes true line = .ok e) {s : Str} (hne : s ≠ e.signature)
    (hs : validateSignature py (.str s) = .ok e.signatureBytes) (hlen : s.length ≤ maxStringLength)
    (hroom : lineLength e + s.length ≤ maxBytes + e.signature.length) :
    ∃ line' f, parseSignedEventJson py maxBytes true line' = .ok f ∧ SameCovered e f ∧
      f.signatureBytes = e.signatureBytes ∧ f.toJsonLine ≠ e.toJsonLine := by
  have he := valid_of_parse h
  have hf := valid_respell he hlen hs
  obtain ⟨t, ht⟩ := he.encodable.dump 0 0
  obtain ⟨u, hu⟩ := hf.encodable.dump 0 0
  have hsize : byteLength u ≤ maxBytes := by
    have hshift := byteLength_respell he hs ht hu
    rw [lineLength_eq he ht] at hroom
    omega
  have hback := hf.sameEnvelope
  refine ⟨.text u, readBack (respell e s), hf.parse hu hsize,
    ⟨⟨rfl, rfl, rfl, rfl, rfl, hback.event, rfl, rfl, rfl⟩, rfl⟩, rfl, ?_⟩
  rw [hf.readBack.toJsonLine_eq (hf.dump_readBack hu), he.toJsonLine_eq ht]
  intro heq
  obtain rfl := Except.ok.inj heq
  exact hne (signature_of_line hf he hu ht)

/-- There is room in a line of a record for so many more symbols in its signature. -/
def HasRoom (maxBytes : Nat) (e : SignedEvent) (n : Nat) : Prop :=
  e.signature.length + n ≤ maxStringLength ∧ lineLength e + n ≤ maxBytes

/-- There was room for the symbols that an accepted record has more. -/
theorem hasRoom_of_parse {maxBytes : Nat} {line line' : Line} {e f : SignedEvent} {n : Nat}
    (h : parseSignedEventJson py maxBytes true line = .ok e)
    (h' : parseSignedEventJson py maxBytes true line' = .ok f) (hsame : SameCovered e f)
    (hbytes : f.signatureBytes = e.signatureBytes)
    (htext : f.signature = e.signature ++ List.replicate n Base64.pad) : HasRoom maxBytes e n := by
  have he := valid_of_parse h
  have hf := valid_of_parse h'
  have hlength : f.signature.length = e.signature.length + n := htext ▸ length_padded _ _
  have hlen := signature_length_le hf
  refine ⟨hlength ▸ hlen, ?_⟩
  have hg := valid_respell he hlen (hbytes ▸ hf.signature)
  obtain ⟨t, ht⟩ := he.encodable.dump 0 0
  obtain ⟨u, hu⟩ := hg.encodable.dump 0 0
  obtain ⟨w, hw⟩ := hf.encodable.dump 0 0
  -- but for the spelling of its event, the second record is the first one respelled
  have hline := toJsonLine_eq_of_same hg hf ⟨⟨hsame.formatVersion, hsame.nodeId, hsame.sequence,
    hsame.timestamp, hsame.previousEventHash, hsame.event, hsame.signatureAlgorithm,
    hsame.hashAlgorithm, hsame.keyId⟩, hsame.eventHash⟩ rfl
  rw [hg.toJsonLine_eq hu, hf.toJsonLine_eq hw] at hline
  obtain rfl := Except.ok.inj hline
  have hshift := byteLength_respell he (hbytes ▸ hf.signature) ht hu
  have hsize := byteLength_of_parse h' hw
  rw [lineLength_eq he ht]
  omega

/-- A text without padding is the only one of its bytes where no padding is taken behind it. -/
theorem eq_of_no_excess {s t : Str} {raw : Bytes} (hs : validateSignature py (.str s) = .ok raw)
    (hpad : Base64.pad ∉ s) (ht : validateSignature py (.str t) = .ok raw)
    (hexcess : ∀ n, 0 < n → t = s ++ List.replicate n Base64.pad →
      py.excessPadding s.length n = false) : t = s := by
  obtain ⟨n, htext, hn⟩ := (text_unpadded_iff hs hpad t).mp ht
  rcases n.eq_zero_or_pos with rfl | hpos
  · rw [htext, List.replicate_zero, List.append_nil]
  · rcases hn with rfl | hn
    · exact absurd hpos (lt_irrefl 0)
    · rw [hexcess n hpos htext] at hn
      cases hn

/-- An accepted signature is the only accepted text of its bytes exactly when it is not padded
and no padding is taken behind it. -/
theorem unique_text_iff {s : Str} {raw : Bytes} (hs : validateSignature py (.str s) = .ok raw) :
    (∀ t, validateSignature py (.str t) = .ok raw → t = s) ↔
      Base64.pad ∉ s ∧ ∀ n, 0 < n → py.excessPadding s.length n = false := by
  constructor
  · intro hunique
    have hpad : Base64.pad ∉ s := by
      intro hpad
      obtain ⟨t, hne, -, ht⟩ := text_respelled hs hpad
      exact hne (hunique t ht)
    refine ⟨hpad, fun n hn => ?_⟩
    by_contra hexcess
    have ht := hunique _ ((text_unpadded_iff hs hpad _).mpr
      ⟨n, rfl, .inr (Bool.eq_true_of_not_eq_false hexcess)⟩)
    have hlength := (length_padded s n).symm.trans (congrArg List.length ht)
    omega
  · rintro ⟨hpad, hexcess⟩ t ht
    exact eq_of_no_excess hs hpad ht fun n hn _ => hexcess n hn

/-- The line that an accepted record is written as is the only one of its content exactly when
its signature is not padded and no padding that there is room for is taken behind it. -/
theorem unique_line_iff {maxBytes : Nat} {line : Line} {e : SignedEvent}
    (h : parseSignedEventJson py maxBytes true line = .ok e) :
    (∀ line' f, parseSignedEventJson py maxBytes true line' = .ok f → SameCovered e f →
      f.signatureBytes = e.signatureBytes → f.toJsonLine = e.toJsonLine) ↔
        Base64.pad ∉ e.signature ∧ ∀ n, 0 < n → HasRoom maxBytes e n →
          py.excessPadding e.signature.length n = false := by
  have he := valid_of_parse h
  constructor
  · intro hunique
    have hpad : Base64.pad ∉ e.signature := by
      intro hpad
      obtain ⟨t, ht⟩ := he.encodable.dump 0 0
      have hline := (lineLength_eq he ht).trans_le (byteLength_of_parse h ht)
      obtain ⟨s, hne, hlen, hs⟩ := text_respelled he.signature hpad
      obtain ⟨line', f, hf, hsame, hbytes, hdiffer⟩ := respelled_line h hne hs
        (hlen.trans (signature_length_le he)) (by omega)
      exact hdiffer (hunique line' f hf hsame hbytes)
    refine ⟨hpad, fun n hn hroom => ?_⟩
    by_contra hexcess
    have hs := (text_unpadded_iff he.signature hpad _).mpr
      ⟨n, rfl, .inr (Bool.eq_true_of_not_eq_false hexcess)⟩
    have hlength := length_padded e.signature n
    obtain ⟨hstring, hroom⟩ := hroom
    obtain ⟨line', f, hf, hsame, hbytes, hdiffer⟩ := respelled_line h
      (fun heq => by rw [heq] at hlength; omega) hs (hlength.trans_le hstring) (by omega)
    exact hdiffer (hunique line' f hf hsame hbytes)
  · rintro ⟨hpad, hexcess⟩ line' f hf hsame hbytes
    have hf' := valid_of_parse hf
    have hsignature : f.signature = e.signature :=
      eq_of_no_excess he.signature hpad (hbytes ▸ hf'.signature) fun n hn htext =>
        hexcess n hn (hasRoom_of_parse h hf hsame hbytes htext)
    exact toJsonLine_eq_of_same he hf' hsame hsignature.symm

/-- An accepted signature is the only accepted text of its bytes exactly when it is not padded
and no padding is taken behind it, and so is the line that an accepted record is written as, as
far as there is room for the padding. -/
theorem signature_text_unique_iff (py : Interp) (maxBytes : Nat) :
    (∀ s raw, validateSignature py (.str s) = .ok raw →
      ((∀ t, validateSignature py (.str t) = .ok raw → t = s) ↔
        Base64.pad ∉ s ∧ ∀ n, 0 < n → py.excessPadding s.length n = false)) ∧
    ∀ line e, parseSignedEventJson py maxBytes true line = .ok e →
      ((∀ line' f, parseSignedEventJson py maxBytes true line' = .ok f → SameCovered e f →
        f.signatureBytes = e.signatureBytes → f.toJsonLine = e.toJsonLine) ↔
          Base64.pad ∉ e.signature ∧ ∀ n, 0 < n → HasRoom maxBytes e n →
            py.excessPadding e.signature.length n = false) :=
  ⟨fun _ _ hs => unique_text_iff hs, fun _ _ h => unique_line_iff h⟩

/-- Two accepted texts of the same signature. -/
theorem signature_text_malleable :
    ∃ s t raw, validateSignature .reference (.str s) = .ok raw ∧
      validateSignature .reference (.str t) = .ok raw ∧ s ≠ t := by
  refine ⟨lit "AQ==", lit "AR==", [1], ?_, ?_, by decide⟩
  · exact validateSignature_eq_ok.mpr
      ⟨(Base64.spells_of_decode (by decide)).accepts _, by decide⟩
  · exact validateSignature_eq_ok.mpr
      ⟨(Base64.spells_of_decode (by decide)).accepts _, by decide⟩

/-- An interpreter that takes no padding but what is needed. -/
def exactPadding : Interp := { Interp.reference with excessPadding := fun _ _ => false }

/-- A line of a record whose signature has three bytes. -/
def threeByteLine : Line :=
  .text (lit "\x7b\"event\":\x7b\x7d,\"event_hash\":\"" ++ zeroHash ++
    lit "\",\"format_version\":\"1.0\"," ++ lit "\"hash_algorithm\":\"SHA3-256\"," ++
    lit "\"key_id\":\"k\",\"node_id\":\"n\"," ++ lit "\"previous_event_hash\":\"" ++ zeroHash ++
    lit "\",\"sequence\":1,\"signature\":\"AQID\"," ++
    lit "\"signature_algorithm\":\"ML-DSA-65\"," ++
    lit "\"timestamp\":\"2026-01-01T00:00:00.000000Z\"\x7d")

theorem validateSignature_three (py : Interp) :
    validateSignature py (.str (lit "AQID")) = .ok [1, 2, 3] :=
  validateSignature_eq_ok.mpr ⟨(Base64.spells_of_decode (by decide)).accepts _, by decide⟩

set_option maxRecDepth 100000 in
theorem threeByteLine_parses : ∃ e,
    parseSignedEventJson exactPadding maxEvidenceBytes true threeByteLine = .ok e ∧
      e.signature = lit "AQID" := by
  have h : (parseSignedEventJson exactPadding maxEvidenceBytes true threeByteLine).toOption.map
      SignedEvent.signature = some (lit "AQID") := by
    decide +kernel
  exact eq_ok_of_toOption h

/-- Three bytes have one accepted text, and a record with them one line, when no padding is taken
behind them; Python 3.11 takes it, and there they have several. -/
theorem signature_text_unique_three :
    (∀ t, validateSignature exactPadding (.str t) = .ok [1, 2, 3] → t = lit "AQID") ∧
      (¬ ∀ t, validateSignature .reference (.str t) = .ok [1, 2, 3] → t = lit "AQID") ∧
      ∃ e, parseSignedEventJson exactPadding maxEvidenceBytes true threeByteLine = .ok e ∧
        ∀ line' f, parseSignedEventJson exactPadding maxEvidenceBytes true line' = .ok f →
          SameCovered e f → f.signatureBytes = e.signatureBytes → f.toJsonLine = e.toJsonLine := by
  obtain ⟨htext, hline⟩ := signature_text_unique_iff exactPadding maxEvidenceBytes
  obtain ⟨hpadded, -⟩ := signature_text_unique_iff .reference maxEvidenceBytes
  obtain ⟨e, he, hsignature⟩ := threeByteLine_parses
  have hnone : Base64.pad ∉ lit "AQID" := by decide
  refine ⟨(htext _ _ (validateSignature_three _)).mpr ⟨hnone, fun _ _ => rfl⟩, ?_, e, he,
    (hline _ e he).mpr ⟨hsignature ▸ hnone, fun _ _ _ => rfl⟩⟩
  intro hunique
  have hexcess := ((hpadded _ _ (validateSignature_three _)).mp hunique).2 1 Nat.one_pos
  revert hexcess
  decide

end SignatureText

end IcsDeception
