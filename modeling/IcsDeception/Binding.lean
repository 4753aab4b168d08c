import IcsDeception.StreamSpec
import IcsDeception.Lib.HashChain

/-!
# A chain is bound by its last hash

Two valid streams of one node that end in the same recomputed hash have the same
records, up to the signatures. The general argument is in the library: a link from
every record to the hash of the one before carries agreement backwards. What is
added here is that the hash payload determines the sequence number, so that the two
streams are equally long, and every other field.
-/

namespace IcsDeception

open Text EventChain Models EvidenceCollector

/-- A stream of records of one node that the collector reports as valid. -/
structure ValidStream (py : Interp) (c : EvidenceCollector) (node : Str) (lines : List Line)
    (rs : List SignedEvent) : Prop where
  valid : ∃ report, verifyStream py c lines = .ok report ∧ report.valid = true
  parses : (nonBlank lines).map (parseSignedEventJson py c.verifier.maxRecordBytes true) =
    rs.map .ok
  node : ∀ e ∈ rs, e.nodeId = node

/-- Agreement on every field except the signature. -/
structure SameRecord (e f : SignedEvent) : Prop extends SameContent e f where
  eventHash : e.eventHash = f.eventHash

section

variable {py : Interp} {c : EvidenceCollector} {node : Str} {lines : List Line}
  {rs : List SignedEvent}

theorem ValidStream.genuine (h : ValidStream py c node lines rs) :
    Genuine py c.verifier lines rs := by
  obtain ⟨report, hreport, hvalid⟩ := h.valid
  obtain ⟨ss, hg⟩ := genuine_of_valid hreport hvalid
  obtain rfl : rs = ss := map_ok_injective (h.parses.symm.trans hg.parses)
  exact hg

theorem ValidStream.chain (h : ValidStream py c node lines rs) : Chain py node rs := by
  have hall : ofNode node rs = rs :=
    List.filter_eq_self.mpr fun e he => decide_eq_true (h.node e he)
  exact hall ▸ h.genuine.chain node

theorem ValidStream.wellFormed (h : ValidStream py c node lines rs) :
    ∀ e ∈ rs, e.WellFormed := by
  intro e he
  have hmem : Except.ok e ∈ rs.map (Except.ok (ε := Exn)) := List.mem_map_of_mem he
  rw [← h.parses] at hmem
  obtain ⟨line, -, hline⟩ := List.mem_map.mp hmem
  exact wellFormed_of_parse hline

theorem Chain.linked (h : Chain py node rs) :
    HashChain.Linked (computeEventHash py) (fun e => .ok e.previousEventHash) rs :=
  List.isChain_iff_getElem.mpr fun i hi => (h.link i hi).symm

theorem Chain.last_sequence (h : Chain py node rs) {e : SignedEvent}
    (he : rs.getLast? = some e) : e.sequence = rs.length := by
  rw [List.getLast?_eq_getElem?] at he
  obtain ⟨hi, rfl⟩ := List.getElem?_eq_some_iff.mp he
  rw [h.sequence _ hi]
  omega

end

section

variable {py : Interp} {c₁ c₂ : EvidenceCollector} {node : Str} {lines₁ lines₂ : List Line}
  {rs₁ rs₂ : List SignedEvent}

/-- Under the injectivity of the hash, equal recomputed hashes mean equal records. -/
theorem sameRecord_of_hash (h₁ : ValidStream py c₁ node lines₁ rs₁)
    (h₂ : ValidStream py c₂ node lines₂ rs₂) (hinj : NoCollision py (rs₁ ++ rs₂))
    {e f : SignedEvent} (he : e ∈ rs₁) (hf : f ∈ rs₂)
    (hash : computeEventHash py e = computeEventHash py f) : SameRecord e f := by
  have hhe := (h₁.genuine.sound e he).hash
  have hhf := (h₂.genuine.sound f hf).hash
  obtain ⟨p, hp, hpe⟩ := Json.bind_eq_ok.mp hhe
  obtain ⟨q, hq, hqf⟩ := Json.bind_eq_ok.mp hhf
  have hdigest : e.eventHash = f.eventHash :=
    Except.ok.inj (hhe.symm.trans (hash.trans hhf))
  have hpq : p = q := by
    refine hinj e (List.mem_append_left _ he) f (List.mem_append_right _ hf) p q hp hq ?_
    rw [Except.ok.inj hpe, Except.ok.inj hqf, hdigest]
  subst hpq
  exact ⟨sameContent_of_hashPayload hp hq (h₁.wellFormed e he).distinct
    (h₂.wellFormed f hf).distinct, hdigest⟩

/-- Streams whose last hashes agree are equally long. -/
theorem length_eq_of_last_hash (h₁ : ValidStream py c₁ node lines₁ rs₁)
    (h₂ : ValidStream py c₂ node lines₂ rs₂) (hinj : NoCollision py (rs₁ ++ rs₂))
    (hlast : rs₁.getLast?.map (computeEventHash py) = rs₂.getLast?.map (computeEventHash py)) :
    rs₁.length = rs₂.length := by
  cases he : rs₁.getLast? with
  | none =>
      cases hf : rs₂.getLast? with
      | none => rw [List.getLast?_eq_none_iff.mp he, List.getLast?_eq_none_iff.mp hf]
      | some f => simp [he, hf] at hlast
  | some e =>
      cases hf : rs₂.getLast? with
      | none => simp [he, hf] at hlast
      | some f =>
          rw [he, hf] at hlast
          have hsame := sameRecord_of_hash h₁ h₂ hinj (List.mem_of_getLast? he)
            (List.mem_of_getLast? hf) (by simpa using hlast)
          have hseq := hsame.sequence
          rw [h₁.chain.last_sequence he, h₂.chain.last_sequence hf] at hseq
          exact_mod_cast hseq

/-- Two valid streams of one node whose last recomputed hashes agree have the same number
of records and agree record by record on everything but the signature. -/
theorem last_hash_binds_stream (h₁ : ValidStream py c₁ node lines₁ rs₁)
    (h₂ : ValidStream py c₂ node lines₂ rs₂) (hinj : NoCollision py (rs₁ ++ rs₂))
    (hlast : rs₁.getLast?.map (computeEventHash py) = rs₂.getLast?.map (computeEventHash py)) :
    rs₁.length = rs₂.length ∧ List.Forall₂ SameRecord rs₁ rs₂ := by
  have hlen := length_eq_of_last_hash h₁ h₂ hinj hlast
  refine ⟨hlen, HashChain.forall₂_of_last_digest h₁.chain.linked h₂.chain.linked hlen ?_ ?_ hlast⟩
  · intro e he f hf hash
    exact sameRecord_of_hash h₁ h₂ hinj he hf hash
  · intro e f hsame
    simp only [hsame.previousEventHash]

end

/-- A collector whose keys have several signatures: the key, with anything behind it. -/
def hedgedCollector : EvidenceCollector :=
  { sampleCollector with
    verifier :=
      { sampleCollector.verifier with
        backend := ⟨fun key _ signature _ => .ok (key.isPrefixOf signature)⟩ } }

/-- A record of node `n` under another signature. -/
def resigned (sequence eventHash previous : Str) : Line :=
  .text (recordText (lit "k") (lit "n") (lit "cGsx") sequence chainTime eventHash previous)

/-- The three records of node `n` under another signature. -/
def resignedLines : List Line :=
  [resigned (lit "1") (chainHash 0) chainGenesis, resigned (lit "2") (chainHash 1) (chainHash 0),
    resigned (lit "3") (chainHash 2) (chainHash 1)]

/-- What the records of the two streams share, and the signature. -/
def signedParts (e : SignedEvent) : Option Bytes × Str × Str × Str :=
  (e.hashPayload.toOption, e.eventHash, e.nodeId, e.signature)

set_option maxRecDepth 100000 in
theorem verifyStream_resigned :
    (verifyStream .reference hedgedCollector resignedLines).toOption.map StreamReport.valid =
        some true ∧
      ((nonBlank resignedLines).map fun line => (parseSignedEventJson .reference
          hedgedCollector.verifier.maxRecordBytes true line).toOption.map signedParts) =
        ((nonBlank (chainFirst :: chainRest)).map fun line => (parseSignedEventJson .reference
          sampleCollector.verifier.maxRecordBytes true line).toOption.map fun e =>
            (e.hashPayload.toOption, e.eventHash, lit "n", lit "cGsx")) ∧
      ((nonBlank (chainFirst :: chainRest)).map fun line => (parseSignedEventJson .reference
          sampleCollector.verifier.maxRecordBytes true line).toOption.map SignedEvent.signature) =
        [some (lit "cGs="), some (lit "cGs="), some (lit "cGs=")] := by
  rw [Interp.reference_eq_unrolled]
  refine ⟨?_, ?_, ?_⟩ <;> decide +kernel

/-- Records with the payloads of others collide with none that these do not collide with. -/
theorem NoCollision.append {py : Interp} {rs ss : List SignedEvent} (h : NoCollision py rs)
    (hs : ∀ f ∈ ss, ∃ e ∈ rs, e.hashPayload.toOption = f.hashPayload.toOption) :
    NoCollision py (rs ++ ss) := by
  have hall : ∀ f ∈ rs ++ ss, ∀ q, f.hashPayload = .ok q → ∃ e ∈ rs, e.hashPayload = .ok q := by
    intro f hf q hq
    rcases List.mem_append.mp hf with hf | hf
    · exact ⟨f, hf, hq⟩
    · obtain ⟨e, he, heq⟩ := hs f hf
      rw [hq] at heq
      cases hp : e.hashPayload with
      | error x =>
          rw [hp] at heq
          cases heq
      | ok p =>
          rw [hp] at heq
          exact ⟨e, he, hp.trans (congrArg _ (Option.some.inj heq))⟩
  intro e he f hf p q hp hq hash
  obtain ⟨e', he', hp'⟩ := hall e he p hp
  obtain ⟨f', hf', hq'⟩ := hall f hf q hq
  exact h e' he' f' hf' p q hp' hq' hash

/-- The recomputed hash of the last of sound records is the one it carries. -/
theorem last_hash_of_sound {py : Interp} {verifier : EvidenceVerifier} {rs : List SignedEvent}
    (hs : ∀ e ∈ rs, Sound py verifier e) :
    rs.getLast?.map (computeEventHash py) = (rs.map SignedEvent.eventHash).getLast?.map .ok := by
  rw [List.getLast?_map, Option.map_map]
  refine Option.map_congr fun e he => (hs e (List.mem_of_getLast? he)).hash

/-- The genuine chain and the same chain under other signatures agree, record by record. -/
theorem last_hash_binds_stream_resigned : ∃ rs ss,
    ValidStream .reference sampleCollector (lit "n") (chainFirst :: chainRest) rs ∧
      ValidStream .reference hedgedCollector (lit "n") resignedLines ss ∧
      (∀ e ∈ rs, ∀ f ∈ ss, e.signature ≠ f.signature) ∧ rs.length = 3 ∧ ss.length = 3 ∧
      List.Forall₂ SameRecord rs ss := by
  obtain ⟨rs, hg, hnodes, hhashes⟩ := chain_genuine
  obtain ⟨hvalid, hparts, hsignatures⟩ := verifyStream_resigned
  obtain ⟨report, hreport, hvalid⟩ := eq_ok_of_toOption hvalid
  obtain ⟨ss, hgs⟩ := genuine_of_valid hreport hvalid
  rw [map_toOption_of_parses hgs.parses, map_toOption_of_parses hg.parses] at hparts
  rw [map_toOption_of_parses hg.parses] at hsignatures
  have hlength : rs.length = 3 := by simpa using congrArg List.length hhashes
  have hlengths : ss.length = rs.length := by simpa using congrArg List.length hparts
  -- every record of the second stream has the payload, the hash and the node of one of the first
  have hshared : ∀ f ∈ ss, ∃ e ∈ rs, e.hashPayload.toOption = f.hashPayload.toOption ∧
      f.nodeId = lit "n" ∧ f.signature = lit "cGsx" := by
    intro f hf
    have hmem := List.mem_map_of_mem (f := fun f => some (signedParts f)) hf
    rw [hparts] at hmem
    obtain ⟨e, he, heq⟩ := List.mem_map.mp hmem
    simp only [signedParts, Option.some.injEq, Prod.mk.injEq] at heq
    exact ⟨e, he, heq.1, heq.2.2.1.symm, heq.2.2.2.symm⟩
  have hsame : ss.map SignedEvent.eventHash = rs.map SignedEvent.eventHash := by
    apply List.map_injective_iff.mpr (Option.some_injective _)
    have := congrArg (List.map fun p : Option (Option Bytes × Str × Str × Str) =>
      p.map fun q => q.2.1) hparts
    simpa [signedParts, Function.comp_def] using this
  have hstream : ValidStream .reference sampleCollector (lit "n") (chainFirst :: chainRest) rs :=
    ⟨verifyStream_chain, hg.parses, fun e he => (hnodes e he).1⟩
  have hresigned : ValidStream .reference hedgedCollector (lit "n") resignedLines ss := by
    refine ⟨⟨report, hreport, hvalid⟩, hgs.parses, fun f hf => ?_⟩
    obtain ⟨-, -, -, hnode, -⟩ := hshared f hf
    exact hnode
  have hcollision : NoCollision .reference (rs ++ ss) := by
    refine NoCollision.append (noCollision_of_sound hg.sound ?_) fun f hf => ?_
    · rw [hhashes]
      decide
    · obtain ⟨e, he, hpayload, -⟩ := hshared f hf
      exact ⟨e, he, hpayload⟩
  have hlast : rs.getLast?.map (computeEventHash .reference) =
      ss.getLast?.map (computeEventHash .reference) := by
    rw [last_hash_of_sound hg.sound, last_hash_of_sound hgs.sound, hsame]
  refine ⟨rs, ss, hstream, hresigned, fun e he f hf => ?_, hlength, hlengths.trans hlength,
    (last_hash_binds_stream hstream hresigned hcollision hlast).2⟩
  obtain ⟨-, -, -, -, hsignature⟩ := hshared f hf
  have hmem := List.mem_map_of_mem (f := fun e => some e.signature) he
  rw [hsignatures] at hmem
  have hold : e.signature = lit "cGs=" := by simpa using hmem
  rw [hsignature, hold]
  decide

end IcsDeception
