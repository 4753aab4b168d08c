import IcsDeception.EventChain

/-!
# Facts about envelopes

`parseSignedEvent_eq_ok` says exactly which mappings parse to which envelope. A
parsed envelope has both of its payloads, and two envelopes with the same hash
payload agree on everything the hash covers.
-/

namespace IcsDeception

open Text Json Canonicalizer Models

/-! ## Members of a dictionary -/

theorem encodableMembers_iff {d : Nat} {kvs : List (Key × Value)} :
    EncodableMembers d kvs ↔
      ∀ p ∈ kvs, ∃ k, p.1 = .str k ∧ TextOk k ∧ Encodable d p.2 := by
  induction kvs with
  | nil => simp [EncodableMembers]
  | cons p rest ih =>
      obtain ⟨k, v⟩ := p
      cases k with
      | other s => simp [EncodableMembers]
      | str s => simp [EncodableMembers, ih, and_assoc]

/-! ## The spec of the parser -/

theorem FormatVersion.ofText?_eq_some {s : Str} {v : FormatVersion} :
    FormatVersion.ofText? s = some v ↔ v.text = s := by
  constructor
  · intro h
    simpa using List.find?_some h
  · rintro rfl
    cases v
    decide

theorem SignatureAlgorithm.ofText?_eq_some {s : Str} {a : SignatureAlgorithm} :
    SignatureAlgorithm.ofText? s = some a ↔ a.text = s := by
  constructor
  · intro h
    simpa using List.find?_some h
  · rintro rfl
    cases a <;> decide

theorem HashAlgorithm.ofText?_eq_some {s : Str} {a : HashAlgorithm} :
    HashAlgorithm.ofText? s = some a ↔ a.text = s := by
  constructor
  · intro h
    simpa using List.find?_some h
  · rintro rfl
    cases a
    decide

theorem require_eq_ok {c : Bool} {r : Reason} {u : Unit} : require c r = .ok u ↔ c = true := by
  cases c <;> simp [require]

theorem supported_eq_ok {α : Type} {r : Reason} {o : Option α} {a : α} :
    supported r o = .ok a ↔ o = some a := by
  cases o <;> simp [supported]

theorem asText_eq_ok {v : Value} {s : Str} : asText v = .ok s ↔ v = .str s := by
  cases v <;> simp [asText]

theorem asMalformed_eq_ok {α : Type} {r : Except Exn α} {a : α} :
    asMalformed r = .ok a ↔ r = .ok a := by
  unfold asMalformed
  split <;> simp

/-- What a mapping has to satisfy besides holding the envelope's fields. -/
structure Checked (py : Interp) (maxBytes : Nat) (data : List (Key × Value)) (e : SignedEvent) :
    Prop where
  timestamp : normalizeTimestamp py (.str e.timestamp) = .ok e.timestamp
  signature : validateSignature py (.str e.signature) = .ok e.signatureBytes
  event : validateEvent (.dict e.event) = .ok e.event
  size : ∃ b, canonicalBytes (.dict data) = .ok b ∧ b.length ≤ maxBytes
  nodeId : validateIdentifier (.str e.nodeId) = .ok e.nodeId
  sequence : validateSequence (.int e.sequence) = .ok e.sequence
  previousEventHash : validateHash (.str e.previousEventHash) = .ok e.previousEventHash
  eventHash : validateHash (.str e.eventHash) = .ok e.eventHash
  keyId : validateIdentifier (.str e.keyId) = .ok e.keyId

/-- A mapping that holds the fields of an envelope, and no others. -/
structure Holds (data : List (Key × Value)) (e : SignedEvent) : Prop where
  keys : ∀ p ∈ data, ∃ f ∈ envelopeFields, p.1 = .str f
  lookup : ∀ p ∈ e.toDict, data.lookup (.str p.1) = some p.2

theorem validateIdentifier_str {v : Value} {s : Str} (h : validateIdentifier v = .ok s) :
    v = .str s := by
  obtain ⟨t, ht, h⟩ := bind_eq_ok.mp h
  obtain ⟨-, -, h⟩ := bind_eq_ok.mp h
  obtain ⟨-, -, h⟩ := bind_eq_ok.mp h
  obtain ⟨-, -, h⟩ := bind_eq_ok.mp h
  rw [asText_eq_ok.mp ht, Except.ok.inj h]

theorem validateHash_str {v : Value} {s : Str} (h : validateHash v = .ok s) : v = .str s := by
  obtain ⟨t, ht, h⟩ := bind_eq_ok.mp h
  obtain ⟨-, -, h⟩ := bind_eq_ok.mp h
  rw [asText_eq_ok.mp ht, Except.ok.inj h]

theorem validateSequence_eq_ok {v : Value} {i : Int} :
    validateSequence v = .ok i ↔ v = .int i ∧ 1 ≤ i ∧ i ≤ 2 ^ 63 - 1 := by
  cases v with
  | int j =>
      rw [validateSequence]
      constructor
      · intro h
        obtain ⟨⟨⟩, h₁, h⟩ := bind_eq_ok.mp h
        obtain ⟨⟨⟩, h₂, h⟩ := bind_eq_ok.mp h
        obtain rfl := Except.ok.inj h
        exact ⟨rfl, of_decide_eq_true (require_eq_ok.mp h₁), of_decide_eq_true (require_eq_ok.mp h₂)⟩
      · rintro ⟨hv, h₁, h₂⟩
        cases hv
        exact bind_eq_ok.mpr ⟨(), require_eq_ok.mpr (decide_eq_true h₁),
          bind_eq_ok.mpr ⟨(), require_eq_ok.mpr (decide_eq_true h₂), rfl⟩⟩
  | _ => simp [validateSequence]

theorem validateEvent_eq_ok {v : Value} {kvs : List (Key × Value)} :
    validateEvent v = .ok kvs ↔ v = .dict kvs ∧
      (∃ b, canonicalBytes (.dict kvs) = .ok b ∧ b.length ≤ maxEventBytes) ∧
      depth 1 (.dict kvs) ≤ maxEventDepth := by
  cases v with
  | dict kws =>
      rw [validateEvent]
      constructor
      · intro h
        obtain ⟨-, -, h⟩ := bind_eq_ok.mp h
        obtain ⟨b, hb, h⟩ := bind_eq_ok.mp h
        obtain ⟨⟨⟩, h₁, h⟩ := bind_eq_ok.mp h
        obtain ⟨⟨⟩, h₂, h⟩ := bind_eq_ok.mp h
        obtain rfl := Except.ok.inj h
        exact ⟨rfl, ⟨b, hb, of_decide_eq_true (require_eq_ok.mp h₁)⟩,
          of_decide_eq_true (require_eq_ok.mp h₂)⟩
      · rintro ⟨hv, ⟨b, hb, h₁⟩, h₂⟩
        cases hv
        have hcheck := (canonicalBytes_eq_ok.mp hb).1.check
        exact bind_eq_ok.mpr ⟨(), asMalformed_eq_ok.mpr hcheck, bind_eq_ok.mpr ⟨b, hb,
          bind_eq_ok.mpr ⟨(), require_eq_ok.mpr (decide_eq_true h₁),
            bind_eq_ok.mpr ⟨(), require_eq_ok.mpr (decide_eq_true h₂), rfl⟩⟩⟩⟩
  | _ => simp [validateEvent]

theorem validateSignature_str {py : Interp} {v : Value} {raw : Bytes}
    (h : validateSignature py v = .ok raw) :
    ∃ s, v = .str s := by
  obtain ⟨t, ht, -⟩ := bind_eq_ok.mp h
  exact ⟨t, asText_eq_ok.mp ht⟩

theorem lookup_of_field {data : List (Key × Value)} {name : String} {v : Value}
    (h : field data name = v) (hs : (data.lookup (.str (lit name))).isSome = true) :
    data.lookup (.str (lit name)) = some v := by
  obtain ⟨w, hw⟩ := Option.isSome_iff_exists.mp hs
  rw [hw, ← h, field, hw, Option.getD_some]

theorem field_of_lookup {data : List (Key × Value)} {name : String} {v : Value}
    (h : data.lookup (.str (lit name)) = some v) : field data name = v := by
  rw [field, h, Option.getD_some]

theorem toDict_keys (e : SignedEvent) : e.toDict.map Prod.fst = envelopeFields := rfl

/-- The mappings that parse, and the envelope they parse to. -/
theorem parseSignedEvent_eq_ok {py : Interp} {maxBytes : Nat} {data : List (Key × Value)}
    {e : SignedEvent} :
    parseSignedEvent py maxBytes true (.dict data) = .ok e ↔
      Holds data e ∧ Checked py maxBytes data e := by
  constructor
  · intro h
    rw [parseSignedEvent] at h
    obtain ⟨⟨⟩, hknown, h⟩ := bind_eq_ok.mp h
    obtain ⟨⟨⟩, hpresent, h⟩ := bind_eq_ok.mp h
    obtain ⟨version, hver, h⟩ := bind_eq_ok.mp h
    obtain ⟨formatVersion, hfv, h⟩ := bind_eq_ok.mp h
    obtain ⟨algorithm, halg, h⟩ := bind_eq_ok.mp h
    obtain ⟨signatureAlgorithm, hsa, h⟩ := bind_eq_ok.mp h
    obtain ⟨hashName, hhn, h⟩ := bind_eq_ok.mp h
    obtain ⟨hashAlgorithm, hha, h⟩ := bind_eq_ok.mp h
    obtain ⟨timestamp, hts, h⟩ := bind_eq_ok.mp h
    obtain ⟨normalized, hnorm, h⟩ := bind_eq_ok.mp h
    obtain ⟨⟨⟩, heq, h⟩ := bind_eq_ok.mp h
    obtain ⟨raw, hraw, h⟩ := bind_eq_ok.mp h
    obtain ⟨event, hev, h⟩ := bind_eq_ok.mp h
    obtain ⟨nodeId, hnode, h⟩ := bind_eq_ok.mp h
    obtain ⟨sequence, hseq, h⟩ := bind_eq_ok.mp h
    obtain ⟨previous, hprev, h⟩ := bind_eq_ok.mp h
    obtain ⟨eventHash, hhash, h⟩ := bind_eq_ok.mp h
    obtain ⟨keyId, hkey, h⟩ := bind_eq_ok.mp h
    obtain rfl := Except.ok.inj h
    have hsome : ∀ f ∈ envelopeFields, (data.lookup (.str f)).isSome = true :=
      List.all_eq_true.mp (require_eq_ok.mp hpresent)
    obtain rfl := FormatVersion.ofText?_eq_some.mp (supported_eq_ok.mp hfv)
    obtain rfl := SignatureAlgorithm.ofText?_eq_some.mp (supported_eq_ok.mp hsa)
    obtain rfl := HashAlgorithm.ofText?_eq_some.mp (supported_eq_ok.mp hha)
    obtain rfl : timestamp = normalized := of_decide_eq_true (require_eq_ok.mp heq)
    obtain ⟨sig, hsig⟩ := validateSignature_str hraw
    have hsiglook := lookup_of_field hsig (hsome _ (by decide))
    obtain ⟨ev, hvalid, hguard⟩ := bind_eq_ok.mp hev
    obtain ⟨b, hb, hguard⟩ := bind_eq_ok.mp hguard
    obtain ⟨⟨⟩, hsize, hguard⟩ := bind_eq_ok.mp hguard
    obtain rfl := Except.ok.inj hguard
    have hevent := validateEvent_eq_ok.mp hvalid
    have hseq' := validateSequence_eq_ok.mp hseq
    have hnode' := validateIdentifier_str hnode
    have hprev' := validateHash_str hprev
    have hhash' := validateHash_str hhash
    have hkey' := validateIdentifier_str hkey
    refine ⟨⟨?_, ?_⟩, ?_⟩
    · intro p hp
      have := List.all_eq_true.mp (require_eq_ok.mp hknown) p hp
      obtain ⟨f, hf, hpf⟩ := List.any_eq_true.mp this
      exact ⟨f, hf, of_decide_eq_true hpf⟩
    · simp only [SignedEvent.toDict, List.forall_mem_cons, hsiglook]
      exact ⟨lookup_of_field (asText_eq_ok.mp hver) (hsome _ (by decide)),
        lookup_of_field hnode' (hsome _ (by decide)),
        lookup_of_field hseq'.1 (hsome _ (by decide)),
        lookup_of_field (asText_eq_ok.mp hts) (hsome _ (by decide)),
        lookup_of_field hprev' (hsome _ (by decide)),
        lookup_of_field hhash' (hsome _ (by decide)),
        lookup_of_field hevent.1 (hsome _ (by decide)),
        lookup_of_field (asText_eq_ok.mp halg) (hsome _ (by decide)),
        lookup_of_field (asText_eq_ok.mp hhn) (hsome _ (by decide)),
        lookup_of_field hkey' (hsome _ (by decide)), trivial, by simp⟩
    · exact
        { timestamp := asMalformed_eq_ok.mp hnorm
          signature := by simpa only [hsiglook, hsig] using hraw
          event := by rw [← hevent.1]; exact hvalid
          size := ⟨b, asMalformed_eq_ok.mp hb, of_decide_eq_true (require_eq_ok.mp hsize)⟩
          nodeId := by rw [← hnode']; exact hnode
          sequence := by rw [← hseq'.1]; exact hseq
          previousEventHash := by rw [← hprev']; exact hprev
          eventHash := by rw [← hhash']; exact hhash
          keyId := by rw [← hkey']; exact hkey }
  · rintro ⟨⟨hkeys, hlook⟩, hc⟩
    simp only [SignedEvent.toDict, List.forall_mem_cons] at hlook
    obtain ⟨h₁, h₂, h₃, h₄, h₅, h₆, h₇, h₈, h₉, h₁₀, h₁₁, -⟩ := hlook
    obtain ⟨b, hb, hsize⟩ := hc.size
    have hknown : (data.all fun p => envelopeFields.any fun f => p.1 = .str f) = true := by
      refine List.all_eq_true.mpr fun p hp => ?_
      obtain ⟨f, hf, hpf⟩ := hkeys p hp
      exact List.any_eq_true.mpr ⟨f, hf, decide_eq_true hpf⟩
    have hpresent :
        ((requiredFields true).all fun f => (data.lookup (.str f)).isSome) = true := by
      simp [requiredFields, envelopeFields, h₁, h₂, h₃, h₄, h₅, h₆, h₇, h₈, h₉, h₁₀, h₁₁]
    rw [parseSignedEvent, field_of_lookup h₁, field_of_lookup h₂, field_of_lookup h₃,
      field_of_lookup h₄, field_of_lookup h₅, field_of_lookup h₆, field_of_lookup h₈,
      field_of_lookup h₉, field_of_lookup h₁₀, field_of_lookup h₁₁, h₁₁]
    refine bind_eq_ok.mpr ⟨(), require_eq_ok.mpr hknown, ?_⟩
    refine bind_eq_ok.mpr ⟨(), require_eq_ok.mpr hpresent, ?_⟩
    refine bind_eq_ok.mpr ⟨_, asText_eq_ok.mpr rfl, ?_⟩
    refine bind_eq_ok.mpr ⟨_, supported_eq_ok.mpr (FormatVersion.ofText?_eq_some.mpr rfl), ?_⟩
    refine bind_eq_ok.mpr ⟨_, asText_eq_ok.mpr rfl, ?_⟩
    refine bind_eq_ok.mpr ⟨_, supported_eq_ok.mpr (SignatureAlgorithm.ofText?_eq_some.mpr rfl), ?_⟩
    refine bind_eq_ok.mpr ⟨_, asText_eq_ok.mpr rfl, ?_⟩
    refine bind_eq_ok.mpr ⟨_, supported_eq_ok.mpr (HashAlgorithm.ofText?_eq_some.mpr rfl), ?_⟩
    refine bind_eq_ok.mpr ⟨_, asText_eq_ok.mpr rfl, ?_⟩
    refine bind_eq_ok.mpr ⟨_, asMalformed_eq_ok.mpr hc.timestamp, ?_⟩
    refine bind_eq_ok.mpr ⟨(), require_eq_ok.mpr (decide_eq_true rfl), ?_⟩
    refine bind_eq_ok.mpr ⟨_, hc.signature, ?_⟩
    refine bind_eq_ok.mpr ⟨e.event, ?_, ?_⟩
    · rw [parseSignedEventSizeGuard, field_of_lookup h₇]
      exact bind_eq_ok.mpr ⟨_, hc.event, bind_eq_ok.mpr ⟨b, asMalformed_eq_ok.mpr hb,
        bind_eq_ok.mpr ⟨(), require_eq_ok.mpr (decide_eq_true hsize), rfl⟩⟩⟩
    refine bind_eq_ok.mpr ⟨_, hc.nodeId, ?_⟩
    refine bind_eq_ok.mpr ⟨_, hc.sequence, ?_⟩
    refine bind_eq_ok.mpr ⟨_, hc.previousEventHash, ?_⟩
    refine bind_eq_ok.mpr ⟨_, hc.eventHash, ?_⟩
    exact bind_eq_ok.mpr ⟨_, hc.keyId, rfl⟩

/-! ## Payloads -/

/-- The fields that the hash covers. -/
def SignedEvent.hashMembers (e : SignedEvent) : List (Str × Value) :=
  [(lit "format_version", .str e.formatVersion.text),
   (lit "node_id", .str e.nodeId),
   (lit "sequence", .int e.sequence),
   (lit "timestamp", .str e.timestamp),
   (lit "previous_event_hash", .str e.previousEventHash),
   (lit "event", .dict e.event),
   (lit "signature_algorithm", .str e.signatureAlgorithm.text),
   (lit "hash_algorithm", .str e.hashAlgorithm.text),
   (lit "key_id", .str e.keyId)]

/-- The names of the fields that the hash covers. -/
def hashFields : List Str :=
  [lit "format_version", lit "node_id", lit "sequence", lit "timestamp",
   lit "previous_event_hash", lit "event", lit "signature_algorithm", lit "hash_algorithm",
   lit "key_id"]

theorem SignedEvent.hashMembers_keys (e : SignedEvent) :
    e.hashMembers.map Prod.fst = hashFields := rfl

theorem SignedEvent.event_mem_hashMembers (e : SignedEvent) :
    (lit "event", Value.dict e.event) ∈ e.hashMembers := by
  simp [hashMembers]

theorem hashFields_nodup : hashFields.Nodup := by decide

theorem canonicalBytes_ofMembers_sub {ms ns : List (Str × Value)} (h : ∀ p ∈ ns, p ∈ ms)
    (hm : Encodable 0 (Value.ofMembers ms)) : ∃ b, canonicalBytes (Value.ofMembers ns) = .ok b := by
  have hn : Encodable 0 (Value.ofMembers ns) := by
    refine ⟨by decide, encodableMembers_iff.mpr fun q hq => ?_⟩
    obtain ⟨p, hp, rfl⟩ := List.mem_map.mp hq
    exact encodableMembers_iff.mp hm.2 _ (List.mem_map_of_mem (h p hp))
  obtain ⟨t, ht⟩ := hn.dump 0 0
  exact ⟨_, canonicalBytes_eq_ok.mpr ⟨hn, t, ht, rfl⟩⟩

/-- An envelope whose mapping has a canonical form has a hash payload. -/
theorem SignedEvent.hashPayload_ok {e : SignedEvent} (h : Encodable 0 (Value.ofMembers e.toDict)) :
    ∃ b, e.hashPayload = .ok b :=
  canonicalBytes_ofMembers_sub (fun _ hp => (List.mem_filter.mp hp).1) h

/-- An envelope whose mapping has a canonical form has a signing payload. -/
theorem SignedEvent.signingPayload_ok {e : SignedEvent}
    (h : Encodable 0 (Value.ofMembers e.toDict)) : ∃ b, e.signingPayload = .ok b :=
  canonicalBytes_ofMembers_sub (fun _ hp => (List.mem_filter.mp hp).1) h

/-- The mapping of a parsed envelope has a canonical form. -/
theorem Checked.encodable {py : Interp} {maxBytes : Nat} {data : List (Key × Value)}
    {e : SignedEvent} (hh : Holds data e) (hc : Checked py maxBytes data e) :
    Encodable 0 (Value.ofMembers e.toDict) := by
  obtain ⟨b, hb, -⟩ := hc.size
  have hd := (canonicalBytes_eq_ok.mp hb).1
  refine ⟨by decide, encodableMembers_iff.mpr fun q hq => ?_⟩
  obtain ⟨p, hp, rfl⟩ := List.mem_map.mp hq
  exact encodableMembers_iff.mp hd.2 _ (mem_of_lookup (hh.lookup p hp))

theorem normMembers_ofMembers {st : Style} (hst : st.ascii = false) (ms : List (Str × Value)) :
    normMembers st (ms.map fun p => (Key.str p.1, p.2)) = ms.map fun p => (p.1, norm st p.2) := by
  induction ms with
  | nil => rfl
  | cons p rest ih =>
      simp only [List.map_cons, normMembers, ih, Style.readBack_raw hst]

/-- A rearrangement that leaves distinct keys in place changes nothing. -/
theorem eq_of_perm_of_keys {κ α : Type} {ms ns : List (κ × α)} (hp : ms.Perm ns)
    (hkeys : ms.map Prod.fst = ns.map Prod.fst) (hn : (ms.map Prod.fst).Nodup) : ms = ns := by
  induction ms generalizing ns with
  | nil => exact (List.Perm.nil_eq hp).symm ▸ rfl
  | cons p rest ih =>
      cases ns with
      | nil => simp at hkeys
      | cons q more =>
          simp only [List.map_cons, List.cons.injEq, List.nodup_cons] at hkeys hn
          have hpq : p = q := by
            rcases List.mem_cons.mp (hp.subset List.mem_cons_self) with h | h
            · exact h
            · exact absurd (List.mem_map_of_mem h) (hkeys.2 ▸ hn.1)
          subst hpq
          rw [ih (List.Perm.cons_inv hp) hkeys.2 hn.2]

/-- Members with the same keys in the same order and one normal form agree value by value. -/
theorem norm_ofMembers_inj {st : Style} (hst : st.ascii = false) {ms ns : List (Str × Value)}
    (hkeys : ms.map Prod.fst = ns.map Prod.fst) (hnodup : (ms.map Prod.fst).Nodup)
    (h : norm st (Value.ofMembers ms) = norm st (Value.ofMembers ns)) :
    ms.map (fun p => (p.1, norm st p.2)) = ns.map fun p => (p.1, norm st p.2) := by
  have hperm : (normMembers st _).Perm (normMembers st _) := normMembers_perm h
  rw [normMembers_ofMembers hst, normMembers_ofMembers hst] at hperm
  have hfst : ∀ l : List (Str × Value),
      (l.map fun p => (p.1, norm st p.2)).map Prod.fst = l.map Prod.fst := by
    intro l
    simp [Function.comp_def]
  exact eq_of_perm_of_keys hperm (by rw [hfst, hfst, hkeys]) (by rw [hfst]; exact hnodup)

/-- Two envelopes that agree on everything the hash covers, event bodies as JSON values. -/
structure SameContent (e f : SignedEvent) : Prop where
  formatVersion : e.formatVersion = f.formatVersion
  nodeId : e.nodeId = f.nodeId
  sequence : e.sequence = f.sequence
  timestamp : e.timestamp = f.timestamp
  previousEventHash : e.previousEventHash = f.previousEventHash
  event : Same (.dict e.event) (.dict f.event)
  signatureAlgorithm : e.signatureAlgorithm = f.signatureAlgorithm
  hashAlgorithm : e.hashAlgorithm = f.hashAlgorithm
  keyId : e.keyId = f.keyId

theorem SignatureAlgorithm.text_injective {v w : SignatureAlgorithm} (h : v.text = w.text) :
    v = w :=
  Option.some.inj ((ofText?_eq_some.mpr h).symm.trans (ofText?_eq_some.mpr rfl))

theorem distinct_hashMembers {e : SignedEvent} (h : (Value.dict e.event).Distinct) :
    (Value.ofMembers e.hashMembers).Distinct := by
  refine Value.distinct_ofMembers (e.hashMembers_keys ▸ hashFields_nodup) ?_
  simp only [SignedEvent.hashMembers, List.forall_mem_cons]
  exact ⟨trivial, trivial, trivial, trivial, trivial, h, trivial, trivial, trivial, by simp⟩

theorem writable_event {e : SignedEvent} {b : Bytes} (he : e.hashPayload = .ok b)
    (hd : (Value.dict e.event).Distinct) : Writable Style.compact (.dict e.event) := by
  have hw := (canonicalBytes_eq_ok (v := Value.ofMembers e.hashMembers).mp he).1.writable 0 _ (distinct_hashMembers hd)
  exact writable_of_mem (k := .str (lit "event")) hw.2
    (List.mem_map_of_mem e.event_mem_hashMembers)

/-- The hash payload determines everything it covers. -/
theorem sameContent_of_hashPayload {e f : SignedEvent} {b : Bytes} (he : e.hashPayload = .ok b)
    (hf : f.hashPayload = .ok b) (hde : (Value.dict e.event).Distinct)
    (hdf : (Value.dict f.event).Distinct) : SameContent e f := by
  have hn := norm_eq_of_canonicalBytes (a := Value.ofMembers e.hashMembers)
    (b := Value.ofMembers f.hashMembers) he hf (distinct_hashMembers hde) (distinct_hashMembers hdf)
  have hl := norm_ofMembers_inj rfl (e.hashMembers_keys.trans f.hashMembers_keys.symm)
    (e.hashMembers_keys ▸ hashFields_nodup) hn
  simp only [SignedEvent.hashMembers, List.map_cons, List.map_nil, List.cons.injEq,
    Prod.mk.injEq, true_and, and_true] at hl
  obtain ⟨hnode, hseq, htime, hprev, hevent, halg, hkey⟩ := hl
  simp only [Json.norm, Value.str.injEq, Value.int.injEq,
    Style.readBack_raw (show Style.compact.ascii = false from rfl)] at hnode hseq htime hprev halg hkey
  -- one version and one hash algorithm are supported, so these two fields always agree
  exact ⟨rfl, hnode, hseq, htime, hprev,
    same_of_norm_eq rfl _ _ (writable_event he hde) (writable_event hf hdf) hevent,
    SignatureAlgorithm.text_injective halg, rfl, hkey⟩

/-! ## Records read from text -/

theorem strictHooks_keeps_distinct : strictHooks.Keeps Value.Distinct where
  null := trivial
  bool _ := trivial
  int _ _ := trivial
  float _ := trivial
  str _ := trivial
  list _ h := Value.distinctItems_iff.mpr h
  constant _ _ h := by simp [strictHooks] at h
  objectPairs pairs v hp h := by
    simp only [strictHooks] at h
    split_ifs at h with hn
    rw [dictOfPairs_of_nodup hn] at h
    exact Except.ok.inj h ▸ Value.distinct_ofMembers hn hp

/-- A record read from text comes from a mapping without repeated keys. -/
theorem parseSignedEventJson_eq_ok {py : Interp} {maxBytes : Nat} {line : Line} {e : SignedEvent} :
    parseSignedEventJson py maxBytes true line = .ok e ↔
      ∃ raw text data, line.raw = some raw ∧ raw.length ≤ maxBytes ∧
        Utf8.decodeStrict raw = some text ∧
        loadsWith strictHooks py.jsonLimit text = .ok (.dict data) ∧
        Holds data e ∧ Checked py maxBytes data e := by
  unfold parseSignedEventJson
  constructor
  · intro h
    obtain ⟨raw, hraw, h⟩ := bind_eq_ok.mp h
    obtain ⟨⟨⟩, hlen, h⟩ := bind_eq_ok.mp h
    obtain ⟨text, htext, h⟩ := bind_eq_ok.mp h
    cases hl : loadsWith strictHooks py.jsonLimit text with
    | error x => simp [hl] at h
    | ok v =>
        simp only [hl] at h
        cases v with
        | dict data =>
            exact ⟨raw, text, data, supported_eq_ok.mp hraw, of_decide_eq_true (require_eq_ok.mp hlen),
              supported_eq_ok.mp htext, hl, parseSignedEvent_eq_ok.mp h⟩
        | _ => simp [parseSignedEvent] at h
  · rintro ⟨raw, text, data, hraw, hlen, htext, hl, hh⟩
    refine bind_eq_ok.mpr ⟨raw, supported_eq_ok.mpr hraw, ?_⟩
    refine bind_eq_ok.mpr ⟨(), require_eq_ok.mpr (decide_eq_true hlen), ?_⟩
    refine bind_eq_ok.mpr ⟨text, supported_eq_ok.mpr htext, ?_⟩
    rw [hl]
    exact parseSignedEvent_eq_ok.mpr hh

/-- What holds of every envelope that the parser returns. -/
structure SignedEvent.WellFormed (e : SignedEvent) : Prop where
  distinct : (Value.dict e.event).Distinct
  encodable : Encodable 0 (Value.ofMembers e.toDict)
  nodeId : Scalar e.nodeId
  sequence : 1 ≤ e.sequence

theorem scalar_of_isIdentifier {s : Str} (h : isIdentifier s = true) : Scalar s := by
  cases s with
  | nil => simp [isIdentifier] at h
  | cons c rest =>
      simp only [isIdentifier, Bool.and_eq_true, List.all_eq_true] at h
      obtain ⟨⟨hc, hr⟩, -⟩ := h
      have halnum : ∀ x, isAlnum x = true → isSurrogate x = false := by
        intro x hx
        simp only [isAlnum, Bool.or_eq_true, Bool.and_eq_true, decide_eq_true_eq] at hx
        simp only [isSurrogate, Bool.and_eq_false_iff, decide_eq_false_iff_not]
        omega
      refine scalar_cons.mpr ⟨halnum c hc, fun x hx => ?_⟩
      have := hr x hx
      simp only [isIdChar, Bool.or_eq_true, beq_iff_eq] at this
      rcases this with (((h | rfl) | rfl) | rfl) | rfl
      · exact halnum x h
      all_goals decide

theorem scalar_of_matchesToEnd {s : Str} (h : matchesToEnd isIdentifier s = true) : Scalar s := by
  simp only [matchesToEnd, Bool.or_eq_true, Bool.and_eq_true, beq_iff_eq] at h
  rcases h with h | ⟨hl, h⟩
  · exact scalar_of_isIdentifier h
  · rw [← List.dropLast_append_getLast? lf hl]
    exact scalar_append.mpr ⟨scalar_of_isIdentifier h, by decide⟩

theorem validateIdentifier_matches {v : Value} {s : Str} (h : validateIdentifier v = .ok s) :
    matchesToEnd isIdentifier s = true ∧ s.length ≤ maxNodeIdLength := by
  obtain ⟨t, -, h⟩ := bind_eq_ok.mp h
  obtain ⟨-, -, h⟩ := bind_eq_ok.mp h
  obtain ⟨⟨⟩, hlen, h⟩ := bind_eq_ok.mp h
  obtain ⟨⟨⟩, hmatch, h⟩ := bind_eq_ok.mp h
  obtain rfl := Except.ok.inj h
  exact ⟨require_eq_ok.mp hmatch, of_decide_eq_true (require_eq_ok.mp hlen)⟩

theorem wellFormed_of_parse {py : Interp} {maxBytes : Nat} {line : Line} {e : SignedEvent}
    (h : parseSignedEventJson py maxBytes true line = .ok e) : e.WellFormed := by
  obtain ⟨raw, text, data, -, -, -, hl, hh, hc⟩ := parseSignedEventJson_eq_ok.mp h
  have hd : (Value.dict data).Distinct := strictHooks_keeps_distinct.loadsWith hl
  have hmem := mem_of_lookup (hh.lookup (lit "event", .dict e.event) (by simp [SignedEvent.toDict]))
  exact
    { distinct := Value.distinctMembers_iff.mp hd.2 _ hmem
      encodable := hc.encodable hh
      nodeId := scalar_of_matchesToEnd (validateIdentifier_matches hc.nodeId).1
      sequence := (validateSequence_eq_ok.mp hc.sequence).2.1 }

end IcsDeception
