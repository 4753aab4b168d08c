import IcsDeception.ArchiveSoundness
import IcsDeception.CanonicalForm
import IcsDeception.Lib.Json.Members
import IcsDeception.Lib.Json.Size

/-!
# From a sealed archive back to the evidence

The manifest of a creation is written without a look at its fields, and checked when it is
read. What is read back is the manifest that was written, with its metadata in the order of
the file, so that the additional data of the cipher is the same. The checks of the reader
that a creation does not make itself are two: the sequences must not be negative, and the
entry must not be too long.
-/

namespace IcsDeception

open Text Json Canonicalizer

namespace Canonicalizer

mutual
/-- A value with a canonical form and distinct keys can be written in every style. -/
theorem Encodable.writable_style (st : Style) : ∀ (d : Nat) (v : Value), Encodable d v →
    v.Distinct → Writable st v
  | _, .null, _, _ => trivial
  | _, .bool _, _, _ => trivial
  | _, .int _, h, _ => h.2
  | _, .float _, h, _ => h.elim
  | _, .other _, h, _ => h.elim
  | _, .str _, _, _ => trivial
  | _, .list xs, h, hd => EncodableItems.writable_style st _ xs h.2 hd
  | _, .tuple xs, h, hd => EncodableItems.writable_style st _ xs h.2 hd
  | _, .dict kvs, h, hd => ⟨hd.1, EncodableMembers.writable_style st _ kvs h.2 hd.2⟩
/-- The same for members. -/
theorem EncodableMembers.writable_style (st : Style) : ∀ (d : Nat) (kvs : List (Key × Value)),
    EncodableMembers d kvs → Value.DistinctMembers kvs → WritableMembers st kvs
  | _, [], _, _ => trivial
  | _, (.other _, _) :: _, h, _ => h.elim
  | d, (.str _, v) :: rest, h, hd =>
      ⟨fun _ => h.1.2, Encodable.writable_style st d v h.2.1 hd.1,
        EncodableMembers.writable_style st d rest h.2.2 hd.2⟩
/-- The same for items. -/
theorem EncodableItems.writable_style (st : Style) : ∀ (d : Nat) (xs : List Value),
    EncodableItems d xs → Value.DistinctItems xs → WritableItems st xs
  | _, [], _, _ => trivial
  | d, v :: rest, h, hd =>
      ⟨Encodable.writable_style st d v h.1 hd.1, EncodableItems.writable_style st d rest h.2 hd.2⟩
end

mutual
/-- Styles that sort their members read a value with a canonical form back alike. -/
theorem Encodable.norm_style {st : Style} (hst : st.sortKeys = true) : ∀ (d : Nat) (v : Value),
    Encodable d v → Json.norm st v = Json.norm Style.compact v
  | _, .null, _ => rfl
  | _, .bool _, _ => rfl
  | _, .int _, _ => rfl
  | _, .float _, h => h.elim
  | _, .other _, h => h.elim
  | _, .str s, h => by
      rw [Json.norm, Json.norm, Style.readBack_eq_self fun _ => h.2.2,
        @Style.readBack_raw Style.compact rfl]
  | _, .list xs, h => by
      rw [Json.norm, Json.norm, EncodableItems.norm_style hst _ xs h.2]
  | _, .tuple xs, h => by
      rw [Json.norm, Json.norm, EncodableItems.norm_style hst _ xs h.2]
  | _, .dict kvs, h => by
      rw [Json.norm, Json.norm, EncodableMembers.norm_style hst _ kvs h.2, Style.order, if_pos hst]
      rfl
/-- The same for members. -/
theorem EncodableMembers.norm_style {st : Style} (hst : st.sortKeys = true) : ∀ (d : Nat)
    (kvs : List (Key × Value)), EncodableMembers d kvs →
    normMembers st kvs = normMembers Style.compact kvs
  | _, [], _ => rfl
  | _, (.other _, _) :: _, h => h.elim
  | d, (.str k, v) :: rest, h => by
      rw [normMembers, normMembers, Encodable.norm_style hst d v h.2.1,
        EncodableMembers.norm_style hst d rest h.2.2, Style.readBack_eq_self fun _ => h.1.2,
        @Style.readBack_raw Style.compact rfl]
/-- The same for items. -/
theorem EncodableItems.norm_style {st : Style} (hst : st.sortKeys = true) : ∀ (d : Nat)
    (xs : List Value), EncodableItems d xs → normItems st xs = normItems Style.compact xs
  | _, [], _ => rfl
  | d, v :: rest, h => by
      rw [normItems, normItems, Encodable.norm_style hst d v h.1,
        EncodableItems.norm_style hst d rest h.2]
end

end Canonicalizer

namespace ArchiveManifest

open Archive

/-- The manifest that is read back: the metadata in the order of the file. -/
def readBack (m : ArchiveManifest) : ArchiveManifest :=
  { m with
      metadata := (Style.compact.order (normMembers Style.compact m.metadata)).map fun p =>
        (.str p.1, p.2) }

/-- The fields of a manifest as a creation fills them. -/
structure Filled (m : ArchiveManifest) : Prop extends m.Textual where
  version : m.archiveFormatVersion = Archive.archiveFormatVersion
  kem : m.kemAlgorithm = Archive.kemAlgorithm
  kdf : m.kdfAlgorithm = Archive.kdfAlgorithm
  aead : m.aeadAlgorithm = Archive.aeadAlgorithm
  count : 0 ≤ m.eventCount
  ciphertext : 0 ≤ m.ciphertextLength
  plaintext : 0 ≤ m.plaintextLength

theorem norm_str {v : Value} (h : ∃ s, v = .str s) : norm Style.compact v = v := by
  obtain ⟨s, rfl⟩ := h
  rw [Json.norm, Style.readBack_raw rfl]

/-- Every field of the manifest that is read back is the normal form of the written one. -/
theorem toDict_readBack {m : ArchiveManifest} (h : m.Textual) :
    m.readBack.toDict = m.toDict.map fun p => (p.1, norm Style.compact p.2) := by
  have hstr : ∀ s, norm Style.compact (.str s) = .str s := fun s => norm_str ⟨s, rfl⟩
  simp only [toDict, readBack, List.map_cons, List.map_nil, hstr, norm_str h.nodeId,
    norm_str h.keyId, norm_str h.createdAt, norm_str h.chainFinalHash, norm_str h.plaintextSha3,
    norm_str h.encapsulatedKey, norm_str h.hkdfSalt, norm_str h.nonce]
  rfl

theorem scalar_fields : ∀ f ∈ fields, Scalar f := by decide

theorem scalar_toDict (m : ArchiveManifest) : ∀ p ∈ m.toDict, Scalar p.1 := by
  intro p hp
  apply scalar_fields
  rw [← m.toDict_keys]
  exact List.mem_map_of_mem hp

/-- The additional data is that of the manifest that is read back. -/
theorem authenticatedData_readBack {m : ArchiveManifest} (ht : m.Textual) (hd : m.Distinct)
    (hb : m.readBack.Distinct) {aad : Bytes} (h : m.authenticatedData = .ok aad) :
    m.readBack.authenticatedData = .ok aad := by
  obtain ⟨henc, t, hdump, rfl⟩ := canonicalBytes_eq_ok.mp h
  have hwritable := henc.writable 0 _ hd.ofMembers
  have hmembers := encodableMembers_ofMembers.mp henc.2
  have hback : Encodable 0 (Value.ofMembers m.readBack.toDict) := by
    refine ⟨henc.1, encodableMembers_ofMembers.mpr fun q hq => ?_⟩
    rw [toDict_readBack ht] at hq
    obtain ⟨p, hp, rfl⟩ := List.mem_map.mp hq
    exact ⟨(hmembers p hp).1, (hmembers p hp).2.norm⟩
  have hsame : Same (Value.ofMembers m.toDict) (Value.ofMembers m.readBack.toDict) := by
    rw [Value.ofMembers, Same]
    refine ⟨_, rfl, sameMembers_norm rfl _ m.readBack.toDict hwritable.2
      (m.readBack.toDict_keys ▸ fields_nodup) ?_, ?_⟩
    · intro p hp
      rw [normMembers_fields m.scalar_toDict] at hp
      rwa [toDict_readBack ht]
    · intro k hk
      rw [List.map_map] at hk ⊢
      exact hk
  obtain ⟨u, hu⟩ := hback.dump 0 0
  rw [dump_eq_of_same rfl 0 _ _ t u hsame hd.ofMembers hb.ofMembers hdump hu]
  exact canonicalBytes_eq_ok.mpr ⟨hback, u, hu, rfl⟩

/-! ## The checks of the reader -/

theorem keys_of_norm {st : Style} {ms : List (Str × Value)} (h : ∀ p ∈ ms, Scalar p.1)
    {kvs : List (Key × Value)} (hk : norm st (Value.ofMembers ms) = .dict kvs) :
    ∀ q ∈ kvs, ∃ f ∈ ms.map Prod.fst, q.1 = .str f := by
  intro q hq
  rw [Value.ofMembers, Json.norm, normMembers_fields h] at hk
  obtain rfl := Value.dict.inj hk
  obtain ⟨r, hr, rfl⟩ := List.mem_map.mp hq
  obtain ⟨p, hp, rfl⟩ := List.mem_map.mp ((st.order_perm _).subset hr)
  exact ⟨p.1, List.mem_map_of_mem hp, rfl⟩

theorem expect_of_lookup {data : List (Key × Value)} {name s : Str} (code : ArchiveCode)
    (h : data.lookup (.str name) = some (.str s)) : expect data name s code = .ok s := by
  rw [expect, h]
  exact if_pos rfl

theorem natural_of_lookup {data : List (Key × Value)} {name : Str} {i : Int}
    (h : data.lookup (.str name) = some (.int i)) :
    natural data name = if i < 0 then .error (.archive .badManifest) else .ok i := by
  rw [natural, h]

theorem field_of_lookup {data : List (Key × Value)} {name : String} {v : Value}
    (h : data.lookup (.str (lit name)) = some v) : Models.field data name = v := by
  rw [Models.field, h]
  rfl

/-- A filled manifest is read back, unless its sequences are negative. -/
theorem Filled.fromDict {m : ArchiveManifest} (h : m.Filled) (py : Interp) :
    ArchiveManifest.fromDict py (norm Style.compact (Value.ofMembers m.toDict)) =
      if m.firstSequence < 0 ∨ m.lastSequence < 0 then .error (.archive .badManifest)
      else .ok m.readBack := by
  obtain ⟨kvs, hkvs, hlookup⟩ := @norm_fields Style.compact _
    (m.toDict_keys ▸ fields_nodup) m.scalar_toDict
  rw [hkvs]
  have hkeys : (kvs.all fun p => fields.any fun f => p.1 = .str f) = true := by
    rw [List.all_eq_true]
    intro q hq
    obtain ⟨f, hf, heq⟩ := keys_of_norm m.scalar_toDict hkvs q hq
    rw [m.toDict_keys] at hf
    exact List.any_eq_true.mpr ⟨f, hf, decide_eq_true heq⟩
  have hpresent : ((fields.filter (· ∉ optional)).all fun f =>
      (kvs.lookup (.str f)).isSome) = true := by
    rw [List.all_eq_true]
    intro f hf
    obtain ⟨p, hp, rfl⟩ := List.mem_map.mp (m.toDict_keys ▸ (List.mem_filter.mp hf).1)
    rw [hlookup p hp]
    rfl
  simp only [toDict, List.forall_mem_cons, Json.norm, @Style.readBack_raw Style.compact rfl]
    at hlookup
  obtain ⟨version, node, key, first, last, count, created, final, digest, length, kem, kdf, aead,
    encapsulated, salt, nonce, ciphertext, strict, metadata, -⟩ := hlookup
  rw [h.version] at version
  rw [h.kem] at kem
  rw [h.kdf] at kdf
  rw [h.aead] at aead
  have hcount : natural kvs (lit "event_count") = .ok m.eventCount := by
    rw [natural_of_lookup count, if_neg (Int.not_lt.mpr h.count)]
  have hciphertext : natural kvs (lit "ciphertext_length") = .ok m.ciphertextLength := by
    rw [natural_of_lookup ciphertext, if_neg (Int.not_lt.mpr h.ciphertext)]
  have hlength : natural kvs (lit "plaintext_length") = .ok m.plaintextLength := by
    rw [natural_of_lookup length, if_neg (Int.not_lt.mpr h.plaintext)]
  simp only [ArchiveManifest.fromDict, archiveCheck, hkeys, hpresent, if_true,
    expect_of_lookup .unsupportedVersion version, expect_of_lookup .unsupportedAlgorithm kem,
    expect_of_lookup .unsupportedAlgorithm kdf, expect_of_lookup .unsupportedAlgorithm aead,
    natural_of_lookup first, natural_of_lookup last, hcount, hciphertext, hlength, metadata,
    strict, Value.ofMembers, readMetadata, readStrict, bind, Except.bind]
  by_cases hfirst : m.firstSequence < 0
  · rw [if_pos hfirst, if_pos (Or.inl hfirst)]
  · rw [if_neg hfirst]
    by_cases hlast : m.lastSequence < 0
    · rw [if_pos hlast, if_pos (Or.inr hlast)]
    · rw [if_neg hlast, if_neg (not_or.mpr ⟨hfirst, hlast⟩)]
      simp only [pure, Except.pure, readBack, field_of_lookup node, field_of_lookup key,
        field_of_lookup created, field_of_lookup final, field_of_lookup digest,
        field_of_lookup encapsulated, field_of_lookup salt, field_of_lookup nonce,
        norm_str h.nodeId, norm_str h.keyId, norm_str h.createdAt, norm_str h.chainFinalHash,
        norm_str h.plaintextSha3, norm_str h.encapsulatedKey, norm_str h.hkdfSalt,
        norm_str h.nonce, h.version, h.kem, h.kdf, h.aead]

end ArchiveManifest

namespace Archive

/-! ## The entries of a sealed archive -/

theorem manifestBytes_eq_ok {py : Interp} {m : ArchiveManifest} {raw : Bytes}
    (h : manifestBytes py m = .ok raw) :
    ∃ text, dump Style.indented 0 (Value.ofMembers m.toDict) = .ok text ∧
      raw = Utf8.encodeAll text := by
  unfold manifestBytes at h
  dsimp only at h
  split_ifs at h
  cases hd : dump Style.indented 0 (Value.ofMembers m.toDict) with
  | ok text =>
      rw [hd] at h
      exact ⟨text, rfl, (Except.ok.inj h).symm⟩
  | error e =>
      rw [hd] at h
      cases e <;> cases h

theorem printable_manifest {m : ArchiveManifest} {aad : Bytes} {text : Str} (hd : m.Distinct)
    (haad : m.authenticatedData = .ok aad)
    (h : dump Style.indented 0 (Value.ofMembers m.toDict) = .ok text) :
    ∀ c ∈ text, PrintableLine c :=
  Style.printed_indented.dump
    ((canonicalBytes_eq_ok.mp haad).1.writable_style Style.indented 0 _ hd.ofMembers) h

/-- The manifest entry is read as the normal form of the manifest. -/
theorem loadManifest_manifestBytes {py : Interp} {m : ArchiveManifest} {raw aad : Bytes}
    (hd : m.Distinct) (haad : m.authenticatedData = .ok aad) (h : manifestBytes py m = .ok raw) :
    loadManifest py raw = .ok (norm Style.compact (Value.ofMembers m.toDict)) := by
  obtain ⟨text, htext, rfl⟩ := manifestBytes_eq_ok h
  have henc := (canonicalBytes_eq_ok.mp haad).1
  obtain ⟨u, hu, hreads⟩ := dump_reads Hooks.plain_default Style.valid_indented 0 _
    (henc.writable_style Style.indented 0 _ hd.ofMembers)
  obtain rfl := Except.ok.inj (htext.symm.trans hu)
  have hload := hreads.loadsWith (w := []) (henc.nest_le_jsonLimit py) (by simp)
  rw [List.append_nil, henc.norm_style rfl] at hload
  rw [loadManifest,
    Utf8.decodeStrict_encodeAll (printableLine_scalar (printable_manifest hd haad htext))]
  simp only [loads, hload]

theorem filled_manifestOf (py : Interp) (request : Request) (draws : Draws) (encapsulated : Bytes)
    (summary : EvidenceSummary) (plaintext : Bytes) (n : Nat) :
    (manifestOf py request draws encapsulated summary plaintext n).Filled where
  toTextual := textual_manifestOf ..
  version := rfl
  kem := rfl
  kdf := rfl
  aead := rfl
  count := Int.natCast_nonneg _
  ciphertext := Int.natCast_nonneg _
  plaintext := Int.natCast_nonneg _

/-- What a sealing has drawn, and the entries that it has written. -/
theorem sealEvidence_eq_ok {py : Interp} {crypto : ArchiveCrypto} {draws : Draws}
    {request : Request} {summary : EvidenceSummary} {plaintext : Bytes} {s : Sealed}
    (h : sealEvidence py crypto draws request summary plaintext = .ok s) :
    ∃ secret encapsulated raw, draws.encapsulation = .ok (secret, encapsulated) ∧
      hkdfSha256 crypto.hmacSha256 secret draws.salt hkdfInfo 32 = .ok s.aesKey ∧
      s.manifest = manifestOf py request draws encapsulated summary plaintext
        (crypto.compress plaintext).length ∧
      s.nonce = draws.nonce ∧ manifestBytes py s.manifest = .ok raw ∧
      s.entries = [⟨manifestEntry, raw.length, some raw⟩,
        ⟨ciphertextEntry, (s.body ++ s.tag).length, some (s.body ++ s.tag)⟩] := by
  obtain ⟨⟨secret, encapsulated⟩, hkem, h⟩ := bind_eq_ok.mp h
  obtain ⟨aesKey, hkey, h⟩ := bind_eq_ok.mp h
  obtain ⟨⟨⟩, -, h⟩ := bind_eq_ok.mp h
  obtain ⟨aad, haad, h⟩ := bind_eq_ok.mp h
  obtain ⟨raw, hraw, h⟩ := bind_eq_ok.mp h
  obtain rfl := Except.ok.inj h
  exact ⟨secret, encapsulated, raw, lift_eq_ok.mp hkem, hkey, rfl, rfl, hraw, rfl⟩

theorem createArchive_eq_ok {py : Interp} {crypto : ArchiveCrypto} {backend : Backend}
    {registry : Option KeyRegistry} {draws : Draws} {request : Request} {file : EvidenceFile}
    {s : Sealed} {trust : ArchiveTrust}
    (h : createArchive py crypto backend registry draws request file = .ok (s, trust)) :
    ∃ summary, summariseEvidence py backend registry request.requireValidEvidence file.scanned
        file.verified = .ok (summary, trust) ∧
      (!(request.requireValidEvidence && trust.failed)) = true ∧
      (!request.requireValidEvidence || summary.nodes.head?.all (· = request.nodeId)) = true ∧
      sealEvidence py crypto draws request summary file.sealed = .ok s := by
  obtain ⟨⟨⟩, -, h⟩ := bind_eq_ok.mp h
  obtain ⟨⟨⟩, -, h⟩ := bind_eq_ok.mp h
  obtain ⟨⟨summary, trust'⟩, hsummary, h⟩ := bind_eq_ok.mp h
  obtain ⟨⟨⟩, haccepted, h⟩ := bind_eq_ok.mp h
  obtain ⟨⟨⟩, hnode, h⟩ := bind_eq_ok.mp h
  obtain ⟨s', hs, h⟩ := bind_eq_ok.mp h
  obtain ⟨rfl, rfl⟩ := Prod.mk.inj (Except.ok.inj h)
  exact ⟨summary, hsummary, archiveCheck_eq_ok.mp haccepted, archiveCheck_eq_ok.mp hnode, hs⟩

theorem read_whole (name : Str) (b : Bytes) : ZipEntry.read ⟨name, b.length, some b⟩ = .ok b := by
  simp [ZipEntry.read]

/-- The entries of a sealed archive are read, unless the manifest is too long or its sequences
are negative. -/
theorem readManifest_entries {py : Interp} {m : ArchiveManifest} {raw aad payload : Bytes}
    (hf : m.Filled) (hd : m.Distinct) (haad : m.authenticatedData = .ok aad)
    (hraw : manifestBytes py m = .ok raw) (hlength : (payload.length : Int) = m.ciphertextLength)
    (htag : gcmTagBytes ≤ payload.length) {limit : Int} (hlimit : (payload.length : Int) ≤ limit) :
    readManifestAndOpenCiphertext py [⟨manifestEntry, raw.length, some raw⟩,
        ⟨ciphertextEntry, payload.length, some payload⟩] limit =
      if maxManifestBytes < raw.length then .error (.archive .oversized)
      else if m.firstSequence < 0 ∨ m.lastSequence < 0 then .error (.archive .badManifest)
      else .ok (m.readBack, ⟨ciphertextEntry, payload.length, some payload⟩) := by
  have hnames : ∀ e e' : ZipEntry, e.name = manifestEntry → e'.name = ciphertextEntry →
      getInfo [e, e'] manifestEntry = .ok e ∧ getInfo [e, e'] ciphertextEntry = .ok e' := by
    intro e e' he he'
    have hne : manifestEntry ≠ ciphertextEntry := by decide
    simp [getInfo, he, he', hne]
  obtain ⟨hmanifest, hciphertext⟩ := hnames ⟨manifestEntry, raw.length, some raw⟩
    ⟨ciphertextEntry, payload.length, some payload⟩ rfl rfl
  have hnodup : archiveCheck [manifestEntry, ciphertextEntry].Nodup .duplicateEntry = .ok () := by
    decide
  have hexpected : archiveCheck ([manifestEntry, ciphertextEntry].all
      (· ∈ [manifestEntry, ciphertextEntry])) .unexpectedEntry = .ok () := by
    decide
  have hmissing : archiveCheck ([manifestEntry, ciphertextEntry].all
      (· ∈ [manifestEntry, ciphertextEntry])) .truncated = .ok () := by
    decide
  have hplain : archiveCheck ([manifestEntry, ciphertextEntry].all plainName) .pathTraversal =
      .ok () := by
    decide
  simp only [readManifestAndOpenCiphertext, List.map_cons, List.map_nil, hnodup, hexpected,
    hmissing, hplain, hmanifest, hciphertext, read_whole, loadManifest_manifestBytes hd haad hraw,
    hf.fromDict, bind, Except.bind]
  by_cases hsize : maxManifestBytes < raw.length
  · simp [archiveCheck, hsize, Nat.not_le.mpr hsize]
  · rw [if_neg hsize]
    by_cases hneg : m.firstSequence < 0 ∨ m.lastSequence < 0
    · simp [archiveCheck, hneg, Nat.not_lt.mp hsize]
    · have hback : m.readBack.ciphertextLength = m.ciphertextLength := rfl
      rw [hlength] at hlimit
      simp [archiveCheck, hneg, Nat.not_lt.mp hsize, hlimit, hback, hlength, htag, pure,
        Except.pure]

/-! ## Decryption -/

/-- The libraries undo what they did: the KEM under the private key, the cipher, which keeps
the length of its data, and the compressor. -/
structure Inverts (crypto : ArchiveCrypto) (draws : Draws) (privateKey : Bytes) : Prop where
  kem : ∀ secret encapsulated, draws.encapsulation = .ok (secret, encapsulated) →
    encapsulated ≠ [] ∧ crypto.kemDecapsulate privateKey encapsulated = .ok secret
  cipher : ∀ key nonce aad data body tag, crypto.encrypt key nonce aad data = (body, tag) →
    body.length = data.length ∧ tag.length = gcmTagBytes ∧
      crypto.decrypt key nonce aad body tag = some data
  gzip : ∀ data, crypto.decompress (crypto.compress data) = (data, false)

/-- An archive file with the entries of a sealed archive, which are stored as they are. -/
structure Stores (archive : ArchiveFile) (s : Sealed) : Prop where
  entries : archive.entries = some s.entries
  size : ∀ e ∈ s.entries, e.fileSize ≤ archive.size

theorem unb64_encode {py : Interp} {b : Bytes} (h : b ≠ []) :
    unb64 py (.str (Base64.encode b)) = .ok b := by
  rw [unb64, if_neg (Base64.encode_ne_nil h), Interp.b64decode, Base64.decodeWith_encode]

/-- The private key leads from the manifest to the key of the sealing. -/
theorem deriveKey_manifestOf {crypto : ArchiveCrypto} {draws : Draws} {privateKey : Bytes}
    (hinv : Inverts crypto draws privateKey) {py : Interp} {request : Request}
    {summary : EvidenceSummary} {plaintext secret encapsulated aesKey : Bytes} {n : Nat}
    (hkem : draws.encapsulation = .ok (secret, encapsulated))
    (hkey : hkdfSha256 crypto.hmacSha256 secret draws.salt hkdfInfo 32 = .ok aesKey) :
    deriveKey py crypto (manifestOf py request draws encapsulated summary plaintext n).readBack
      privateKey = .ok (aesKey, draws.nonce) := by
  obtain ⟨hne, hdecapsulate⟩ := hinv.kem _ _ hkem
  have hsalt : draws.salt ≠ [] := by
    intro h
    have := draws.salt_length
    rw [h] at this
    cases this
  have hnonce : draws.nonce ≠ [] := by
    intro h
    have := draws.nonce_length
    rw [h] at this
    cases this
  simp only [deriveKey, ArchiveManifest.readBack, manifestOf, unb64_encode hne,
    unb64_encode hsalt, unb64_encode hnonce, hdecapsulate, draws.salt_length, draws.nonce_length,
    archiveCheck, decide_true, if_true, ArchiveExn.lift, hkey, bind, Except.bind, pure,
    Except.pure]

theorem authenticate_entry {crypto : ArchiveCrypto} {m : ArchiveManifest}
    {aesKey nonce aad body tag data : Bytes} (haad : m.authenticatedData = .ok aad)
    (htag : tag.length = gcmTagBytes) (hdec : crypto.decrypt aesKey nonce aad body tag = some data)
    (name : Str) :
    authenticate crypto ⟨name, (body ++ tag).length, some (body ++ tag)⟩ m aesKey nonce =
      .ok data := by
  have hbody : (body ++ tag).length - gcmTagBytes = body.length := by
    rw [List.length_append, htag, Nat.add_sub_cancel]
  have htake : tag.take gcmTagBytes = tag := by
    rw [← htag, List.take_length]
  simp only [authenticate, haad, ArchiveExn.lift, read_whole, hbody, List.take_left,
    List.drop_left, htake, htag, archiveCheck, decide_true, if_true, hdec, bind, Except.bind]

/-- A sealed archive decrypts to what was sealed, unless the reader refuses its manifest. -/
theorem decryptArchive_sealed {py : Interp} {crypto : ArchiveCrypto} {draws : Draws}
    {request : Request} {summary : EvidenceSummary} {plaintext privateKey : Bytes} {s : Sealed}
    (hseal : sealEvidence py crypto draws request summary plaintext = .ok s)
    (hinv : Inverts crypto draws privateKey) {archive : ArchiveFile} (hstores : Stores archive s)
    {maxArchiveBytes maxPlaintextBytes : Int} (harchive : (archive.size : Int) ≤ maxArchiveBytes)
    (hplaintext : (plaintext.length : Int) ≤ maxPlaintextBytes) (hpos : 0 < maxPlaintextBytes) :
    ∃ raw, manifestBytes py s.manifest = .ok raw ∧
      decryptArchive py crypto archive privateKey maxArchiveBytes maxPlaintextBytes =
        if maxManifestBytes < raw.length then .error (.archive .oversized)
        else if s.manifest.firstSequence < 0 ∨ s.manifest.lastSequence < 0 then
          .error (.archive .badManifest)
        else .ok (s.manifest.readBack, plaintext) := by
  have hs := seals_of_sealEvidence hseal
  obtain ⟨secret, encapsulated, raw, hkem, hkey, hmanifest, hnonce, hraw, hentries⟩ :=
    sealEvidence_eq_ok hseal
  obtain ⟨hbody, htag, hdec⟩ := hinv.cipher _ _ _ _ _ _ hs.encrypted
  have hfilled : s.manifest.Filled := hmanifest ▸ filled_manifestOf ..
  have hlength : ((s.body ++ s.tag).length : Int) = s.manifest.ciphertextLength := by
    rw [hmanifest, List.length_append, hbody, htag]
    rfl
  have hgcm : gcmTagBytes ≤ (s.body ++ s.tag).length := by
    rw [List.length_append, htag]
    exact Nat.le_add_left _ _
  have hpayload : (s.body ++ s.tag).length ≤ archive.size := by
    refine hstores.size ⟨ciphertextEntry, (s.body ++ s.tag).length, some (s.body ++ s.tag)⟩ ?_
    rw [hentries]
    simp
  have hlimit : ((s.body ++ s.tag).length : Int) ≤ maxArchiveBytes :=
    (Int.ofNat_le.mpr hpayload).trans harchive
  have hread := readManifest_entries hfilled hs.distinct hs.aad hraw hlength hgcm hlimit
  rw [← hentries] at hread
  have hposArchive : 0 < maxArchiveBytes := by
    have : 0 < gcmTagBytes := by decide
    omega
  refine ⟨raw, hraw, ?_⟩
  have hopen : openArchive py crypto archive privateKey maxArchiveBytes maxPlaintextBytes =
      (readManifestAndOpenCiphertext py s.entries maxArchiveBytes).bind fun p =>
        (deriveKey py crypto p.1 privateKey).bind fun key =>
          (authenticate crypto p.2 p.1 key.1 key.2).bind fun compressed => .ok (p.1, compressed) := by
    simp only [openArchive, positive, archiveCheck, hpos, hposArchive, harchive, decide_true,
      if_true, ArchiveFile.open, hstores.entries, bind, Except.bind, pure, Except.pure]
  rw [decryptArchive, decryptBody, hopen, hread]
  by_cases hsize : maxManifestBytes < raw.length
  · simp only [hsize, if_true, Except.bind, bind]
  by_cases hneg : s.manifest.firstSequence < 0 ∨ s.manifest.lastSequence < 0
  · simp only [hsize, hneg, if_true, if_false, Except.bind, bind]
  rw [if_neg hsize, if_neg hneg] at hread
  obtain ⟨v, hv, hfrom⟩ := readManifest_eq_ok hread
  have hback := ArchiveManifest.distinct_of_fromDict hv hfrom
  have haad := ArchiveManifest.authenticatedData_readBack hfilled.toTextual hs.distinct hback hs.aad
  have hderive : deriveKey py crypto s.manifest.readBack privateKey = .ok (s.aesKey, s.nonce) := by
    rw [hmanifest, hnonce]
    exact deriveKey_manifestOf hinv hkem hkey
  have hdigest : s.manifest.readBack.plaintextSha3 = .str (py.sha3_256 plaintext) := hs.digest
  have hplain : s.manifest.readBack.plaintextLength = plaintext.length := hs.length
  simp only [hsize, hneg, if_false, Except.bind, bind, hderive,
    authenticate_entry haad htag hdec, decompress_of_inflates (hinv.gzip plaintext),
    Int.not_lt.mpr hplaintext, hdigest, hplain, isText, decide_true, Bool.and_true, archiveCheck,
    if_true, pure, Except.pure]

/-! ## What a creation takes from the file -/

/-- The lines that are JSON objects. -/
def objectsOf (py : Interp) (lines : List Str) : List (List (Key × Value)) :=
  lines.filterMap fun text =>
    match loads py.jsonLimit text with
    | .ok (.dict record) => some record
    | _ => none

/-- The integers that records have as their sequence. -/
def sequencesOf (records : List (List (Key × Value))) : List Int :=
  records.filterMap fun record =>
    match record.lookup (.str (lit "sequence")) with
    | some (.int i) => some i
    | _ => none

/-- The texts that records have as their hash. -/
def hashesOf (records : List (List (Key × Value))) : List Str :=
  records.filterMap fun record =>
    match record.lookup (.str (lit "event_hash")) with
    | some (.str hash) => some hash
    | _ => none

/-- What a scan has noted of the records. -/
structure Notes (s : Scan) (records : List (List (Key × Value))) : Prop where
  first : s.first = (sequencesOf records).min?
  last : s.last = (sequencesOf records).max?
  finalHash : s.finalHash = (hashesOf records).getLast?.getD []

theorem min?_concat (xs : List Int) (i : Int) :
    (xs ++ [i]).min? = some (xs.min?.elim i fun first => min first i) := by
  cases xs with
  | nil => rfl
  | cons x xs => rw [List.cons_append, List.min?_cons', List.foldl_append, List.min?_cons']; rfl

theorem max?_concat (xs : List Int) (i : Int) :
    (xs ++ [i]).max? = some (xs.max?.elim i fun last => max last i) := by
  cases xs with
  | nil => rfl
  | cons x xs => rw [List.cons_append, List.max?_cons', List.foldl_append, List.max?_cons']; rfl

theorem note_first (s : Scan) (record : List (Key × Value)) :
    (s.note record).first =
      match record.lookup (.str (lit "sequence")) with
      | some (.int i) => some (s.first.elim i fun first => min first i)
      | _ => s.first := by
  unfold Scan.note
  dsimp only
  split <;> split <;> split <;> split <;> simp_all

theorem note_last (s : Scan) (record : List (Key × Value)) :
    (s.note record).last =
      match record.lookup (.str (lit "sequence")) with
      | some (.int i) => some (s.last.elim i fun last => max last i)
      | _ => s.last := by
  unfold Scan.note
  dsimp only
  split <;> split <;> split <;> split <;> simp_all

theorem note_finalHash (s : Scan) (record : List (Key × Value)) :
    (s.note record).finalHash =
      match record.lookup (.str (lit "event_hash")) with
      | some (.str hash) => hash
      | _ => s.finalHash := by
  unfold Scan.note
  dsimp only
  split <;> split <;> split <;> split <;> simp_all

theorem note_count (s : Scan) (record : List (Key × Value)) : (s.note record).count = s.count := by
  unfold Scan.note
  dsimp only
  split <;> split <;> split <;> split <;> rfl

theorem Notes.note {s : Scan} {records : List (List (Key × Value))} (h : Notes s records)
    (record : List (Key × Value)) : Notes (s.note record) (records ++ [record]) := by
  have hseq : sequencesOf (records ++ [record]) = sequencesOf records ++ sequencesOf [record] :=
    List.filterMap_append
  have hhash : hashesOf (records ++ [record]) = hashesOf records ++ hashesOf [record] :=
    List.filterMap_append
  constructor
  · rw [note_first, hseq]
    split
    · next i hl =>
        have hone : sequencesOf [record] = [i] := by simp [sequencesOf, hl]
        rw [hone, min?_concat, h.first]
    · next hl =>
        have hnone : sequencesOf [record] = [] := by simp [sequencesOf]
        rw [hnone, List.append_nil, h.first]
  · rw [note_last, hseq]
    split
    · next i hl =>
        have hone : sequencesOf [record] = [i] := by simp [sequencesOf, hl]
        rw [hone, max?_concat, h.last]
    · next hl =>
        have hnone : sequencesOf [record] = [] := by simp [sequencesOf]
        rw [hnone, List.append_nil, h.last]
  · rw [note_finalHash, hhash]
    split
    · next hash hl =>
        have hone : hashesOf [record] = [hash] := by simp [hashesOf, hl]
        rw [hone, List.getLast?_concat, Option.getD_some]
    · next hl =>
        have hnone : hashesOf [record] = [] := by simp [hashesOf]
        rw [hnone, List.append_nil, h.finalHash]

/-- A scan counts the lines and notes the records. -/
theorem notes_scan {py : Interp} {strict : Bool} {lines : List Str} {s : Scan}
    (h : lines.foldlM (scanStep py strict) .start = .ok s) :
    s.count = lines.length ∧ Notes s (objectsOf py lines) := by
  induction lines using List.reverseRecOn generalizing s with
  | nil =>
      obtain rfl := Except.ok.inj h
      exact ⟨rfl, rfl, rfl, rfl⟩
  | append_singleton lines text ih =>
      rw [List.foldlM_append] at h
      obtain ⟨s', hs', h⟩ := bind_eq_ok.mp h
      obtain ⟨s'', hstep, h⟩ := bind_eq_ok.mp h
      obtain rfl := Except.ok.inj h
      obtain ⟨hcount, hnotes⟩ := ih hs'
      have hobjects : objectsOf py (lines ++ [text]) = objectsOf py lines ++ objectsOf py [text] :=
        List.filterMap_append
      have hlength : (lines ++ [text]).length = s'.count + 1 := by simp [hcount]
      have hadvance : Notes { s' with count := s'.count + 1 } (objectsOf py lines) :=
        ⟨hnotes.first, hnotes.last, hnotes.finalHash⟩
      rw [hlength, hobjects]
      unfold scanStep at hstep
      dsimp only at hstep
      split at hstep
      · cases hstep
      · next e _ hl =>
          obtain rfl := Except.ok.inj hstep
          have hnone : objectsOf py [text] = [] := by simp [objectsOf, hl]
          rw [hnone, List.append_nil]
          exact ⟨rfl, hnotes.first, hnotes.last, hnotes.finalHash⟩
      · next record hl =>
          obtain rfl := Except.ok.inj hstep
          have hone : objectsOf py [text] = [record] := by simp [objectsOf, hl]
          rw [hone]
          exact ⟨note_count .., hadvance.note record⟩
      · next v _ hl =>
          obtain rfl := Except.ok.inj hstep
          have hnone : objectsOf py [text] = [] := by
            cases v <;> simp_all [objectsOf]
          rw [hnone, List.append_nil]
          exact ⟨rfl, hnotes.first, hnotes.last, hnotes.finalHash⟩

/-! ## The length of the manifest -/

/-- The characters of a field of the manifest, the metadata empty. -/
def fieldWidth : Value → Nat
  | .str s => (quote true s).length
  | .int i => (Decimal.intText i).length
  | .bool b => if b then 4 else 5
  | _ => 2

/-- The characters of the manifest beside the texts, numbers and the flag of a creation. -/
def fixedWidth : Nat := 454

/-- The characters of a manifest without metadata. -/
def manifestWidth (texts : List Str) (numbers : List Int) (strict : Bool) : Nat :=
  fixedWidth + (texts.map fun s => (quote true s).length).sum +
    (numbers.map fun i => (Decimal.intText i).length).sum + if strict then 4 else 5

theorem dump_fieldWidth {level : Nat} {v : Value} {t : Str}
    (h : dump Style.indented level v = .ok t)
    (hv : (∃ s, v = .str s) ∨ (∃ i, v = .int i) ∨ (∃ b, v = .bool b) ∨ v = .dict []) :
    t.length = fieldWidth v := by
  rcases hv with ⟨s, rfl⟩ | ⟨i, rfl⟩ | ⟨b, rfl⟩ | rfl
  · obtain rfl := Except.ok.inj h
    rfl
  · rw [dump, dumpInt] at h
    split_ifs at h
    obtain rfl := Except.ok.inj h
    rfl
  · obtain rfl := Except.ok.inj h
    cases b <;> rfl
  · obtain rfl := Except.ok.inj h
    rfl

theorem newline_indented : (Style.indented.newline 0).length = 1 := by decide

theorem separator_indented : Style.indented.itemSeparator.length = 1 := by decide

/-- The names of the fields and what stands around them, apart from the values. -/
theorem sum_fields (ms : List (Str × Value)) (h : ms.map Prod.fst = ArchiveManifest.fields) :
    (ms.map fun p => (Style.indented.itemSeparator ++ Style.indented.newline (0 + 1)).length +
      ((quote Style.indented.ascii p.1).length + Style.indented.keySeparator.length +
        fieldWidth p.2)).sum = 406 + (ms.map fun p => fieldWidth p.2).sum := by
  have hnames : (ArchiveManifest.fields.map fun f => (quote true f).length + 6).sum = 406 := by
    decide
  have hcomma : (Style.indented.itemSeparator ++ Style.indented.newline (0 + 1)).length = 4 := by
    decide
  have hcolon : Style.indented.keySeparator.length = 2 := by decide
  have hascii : Style.indented.ascii = true := rfl
  rw [← hnames, ← h, List.map_map, ← List.sum_map_add, hcomma, hcolon, hascii]
  congr 1
  refine List.map_congr_left fun p _ => ?_
  simp only [Function.comp_apply]
  omega

/-- The entry of a manifest without metadata has the length of its fields. -/
theorem manifestBytes_length {py : Interp} {request : Request} {draws : Draws}
    {encapsulated plaintext raw aad : Bytes} {summary : EvidenceSummary} {n : Nat}
    (hmeta : request.metadata = [])
    (haad : (manifestOf py request draws encapsulated summary plaintext n).authenticatedData =
      .ok aad)
    (hraw : manifestBytes py (manifestOf py request draws encapsulated summary plaintext n) =
      .ok raw) :
    raw.length = manifestWidth
      [request.nodeId, request.keyId, draws.now, summary.chainFinalHash, py.sha3_256 plaintext,
        Base64.encode encapsulated, Base64.encode draws.salt, Base64.encode draws.nonce]
      [summary.firstSequence, summary.lastSequence, summary.eventCount, plaintext.length,
        (n + gcmTagBytes : Nat)]
      request.requireValidEvidence := by
  obtain ⟨text, htext, rfl⟩ := manifestBytes_eq_ok hraw
  have hbytes : (Utf8.encodeAll text).length = text.length :=
    byteLength_printableLine (printable_manifest (distinct_manifestOf ..) haad htext)
  have hflat : ∀ p ∈ (manifestOf py request draws encapsulated summary plaintext n).toDict,
      (∃ s, p.2 = .str s) ∨ (∃ i, p.2 = .int i) ∨ (∃ b, p.2 = .bool b) ∨ p.2 = .dict [] := by
    simp [ArchiveManifest.toDict, manifestOf, hmeta]
  have hwidths : ∀ p ∈ (manifestOf py request draws encapsulated summary plaintext n).toDict,
      ∀ t, dump Style.indented 1 p.2 = .ok t → t.length = fieldWidth p.2 :=
    fun p hp t ht => dump_fieldWidth ht (hflat p hp)
  have hlength := dump_ofMembers_length (by simp [ArchiveManifest.toDict]) hwidths htext
  rw [sum_fields _ rfl, newline_indented, separator_indented] at hlength
  have hversion : (quote true archiveFormatVersion).length = 5 := by decide
  have hkem : (quote true kemAlgorithm).length = 12 := by decide
  have hkdf : (quote true kdfAlgorithm).length = 14 := by decide
  have haead : (quote true aeadAlgorithm).length = 13 := by decide
  simp only [ArchiveManifest.toDict, manifestOf, hmeta, List.map_cons, List.map_nil,
    List.sum_cons, List.sum_nil, fieldWidth, hversion, hkem, hkdf, haead] at hlength
  rw [hbytes]
  simp only [manifestWidth, fixedWidth, List.map_cons, List.map_nil, List.sum_cons, List.sum_nil]
  omega

/-! ## The round trip -/

theorem summariseEvidence_eq_ok {py : Interp} {backend : Backend} {registry : Option KeyRegistry}
    {strict : Bool} {scanned verified : Bytes} {summary : EvidenceSummary} {trust : ArchiveTrust}
    (h : summariseEvidence py backend registry strict scanned verified = .ok (summary, trust)) :
    ∃ s, scanEvidence py strict scanned = .ok s ∧ summary = s.summary := by
  obtain ⟨⟨⟩, -, h⟩ := bind_eq_ok.mp h
  obtain ⟨s, hs, h⟩ := bind_eq_ok.mp h
  refine ⟨s, hs, ?_⟩
  cases registry with
  | none => exact (Prod.mk.inj (Except.ok.inj h)).1.symm
  | some registry =>
      obtain ⟨report, -, h⟩ := bind_eq_ok.mp h
      exact (Prod.mk.inj (Except.ok.inj h)).1.symm

theorem sequences_nonneg (is : List Int) :
    ¬(is.min?.getD 0 < 0 ∨ is.max?.getD 0 < 0) ↔ ∀ i ∈ is, 0 ≤ i := by
  cases hmin : is.min? with
  | none =>
      obtain rfl := List.min?_eq_none_iff.mp hmin
      simp
  | some low =>
      cases hmax : is.max? with
      | none =>
          obtain rfl := List.max?_eq_none_iff.mp hmax
          cases hmin
      | some high =>
          rw [Option.getD_some, Option.getD_some, not_or, Int.not_lt, Int.not_lt]
          constructor
          · rintro ⟨hlow, -⟩ i hi
            exact hlow.trans ((List.min?_eq_some_iff.mp hmin).2 i hi)
          · intro h
            exact ⟨h low (List.min?_mem hmin), h high (List.max?_mem hmax)⟩

/-- The encapsulated key of a creation. -/
def Draws.encapsulated (draws : Draws) : Bytes :=
  match draws.encapsulation with
  | .ok (_, encapsulated) => encapsulated
  | .error _ => []

/-- When the reader takes the manifest of a creation: no record of the scanned file has a
negative sequence, and the texts and numbers of the manifest leave it within the limit. -/
structure Readable (py : Interp) (crypto : ArchiveCrypto) (draws : Draws) (request : Request)
    (file : EvidenceFile) : Prop where
  sequences : ∀ i ∈ sequencesOf (objectsOf py (evidenceLines file.scanned)), 0 ≤ i
  width : manifestWidth
    [request.nodeId, request.keyId, draws.now,
      (hashesOf (objectsOf py (evidenceLines file.scanned))).getLast?.getD [],
      py.sha3_256 file.sealed, Base64.encode draws.encapsulated, Base64.encode draws.salt,
      Base64.encode draws.nonce]
    [(sequencesOf (objectsOf py (evidenceLines file.scanned))).min?.getD 0,
      (sequencesOf (objectsOf py (evidenceLines file.scanned))).max?.getD 0,
      (evidenceLines file.scanned).length, file.sealed.length,
      ((crypto.compress file.sealed).length + gcmTagBytes : Nat)]
    request.requireValidEvidence ≤ maxManifestBytes

/-- A created archive decrypts to the sealed content exactly when its manifest is readable. -/
theorem decryptArchive_created_iff {py : Interp} {crypto : ArchiveCrypto} {backend : Backend}
    {registry : Option KeyRegistry} {draws : Draws} {request : Request} {file : EvidenceFile}
    {s : Sealed} {trust : ArchiveTrust}
    (hcreate : createArchive py crypto backend registry draws request file = .ok (s, trust))
    (hdefault : request.metadata = []) {privateKey : Bytes}
    (hinv : Inverts crypto draws privateKey) {archive : ArchiveFile} (hstores : Stores archive s)
    {maxArchiveBytes maxPlaintextBytes : Int} (harchive : (archive.size : Int) ≤ maxArchiveBytes)
    (hplaintext : (file.sealed.length : Int) ≤ maxPlaintextBytes) (hpos : 0 < maxPlaintextBytes) :
    (∃ m, decryptArchive py crypto archive privateKey maxArchiveBytes maxPlaintextBytes =
        .ok (m, file.sealed)) ↔
      Readable py crypto draws request file := by
  obtain ⟨summary, hsummary, -, -, hseal⟩ := createArchive_eq_ok hcreate
  obtain ⟨scan, hscan, rfl⟩ := summariseEvidence_eq_ok hsummary
  obtain ⟨hcount, hnotes⟩ := notes_scan hscan
  obtain ⟨raw, hraw, hdecrypt⟩ :=
    decryptArchive_sealed hseal hinv hstores harchive hplaintext hpos
  obtain ⟨secret, encapsulated, -, hkem, -, hmanifest, -, -, -⟩ := sealEvidence_eq_ok hseal
  have hencapsulated : draws.encapsulated = encapsulated := by
    rw [Draws.encapsulated, hkem]
  have haad := (seals_of_sealEvidence hseal).aad
  rw [hmanifest] at hraw haad
  have hlength := manifestBytes_length hdefault haad hraw
  have hsequences : ¬(s.manifest.firstSequence < 0 ∨ s.manifest.lastSequence < 0) ↔
      ∀ i ∈ sequencesOf (objectsOf py (evidenceLines file.scanned)), 0 ≤ i := by
    rw [← sequences_nonneg, ← hnotes.first, ← hnotes.last, hmanifest]
    rfl
  simp only [Scan.summary, hnotes.first, hnotes.last, hnotes.finalHash, hcount,
    ← hencapsulated] at hlength
  rw [hdecrypt]
  constructor
  · rintro ⟨m, hm⟩
    split_ifs at hm with hlong hneg
    exact ⟨hsequences.mp hneg, hlength.symm.trans_le (Nat.not_lt.mp hlong)⟩
  · intro h
    rw [if_neg (Nat.not_lt.mpr (hlength.trans_le h.width)), if_neg (hsequences.mpr h.sequences)]
    exact ⟨_, rfl⟩

theorem distinct_noMetadata : (Value.dict []).Distinct := ⟨by decide, trivial⟩

/-- A request with the default metadata. -/
def plainRequest : Request :=
  ⟨lit "plc-01", lit "key-1", false, 1000, [], distinct_noMetadata⟩

/-- A file that does not change. -/
def steadyFile (content : Bytes) : EvidenceFile := ⟨content.length, content, content, content⟩

theorem inverts_keyedCrypto : Inverts keyedCrypto sampleDraws [9] where
  kem secret encapsulated h := by
    obtain ⟨rfl, rfl⟩ := Prod.mk.inj (Except.ok.inj h)
    exact ⟨by decide, rfl⟩
  cipher key nonce aad data body tag h := by
    obtain ⟨rfl, rfl⟩ := Prod.mk.inj h
    refine ⟨rfl, ?_, if_pos rfl⟩
    simp [keyTag, gcmTagBytes]
  gzip _ := rfl

/-- Whether the entries of a sealed archive are within a size. -/
def within (size : Nat) (s : Sealed) : Bool := s.entries.all fun e => e.fileSize ≤ size

theorem stores_of_within {size : Nat} {s : Sealed} (h : within size s = true) :
    Stores ⟨size, some s.entries⟩ s :=
  ⟨rfl, fun e he => of_decide_eq_true (List.all_eq_true.mp h e he)⟩

/-- A note, an object with a number and an object without one. -/
def notedFile : EvidenceFile :=
  steadyFile (Utf8.encodeAll (lit "a note\n\x7b\"sequence\":7\x7d\n\x7b\"sequence\":null\x7d"))

set_option maxRecDepth 100000 in
/-- A file whose numbers are not negative is sealed and decrypted. -/
theorem decryptArchive_created_note :
    ∃ s trust m, createArchive .unrolled keyedCrypto keyBackend none sampleDraws plainRequest
        notedFile = .ok (s, trust) ∧ s.manifest.lastSequence = 7 ∧
      decryptArchive .unrolled keyedCrypto ⟨2000, some s.entries⟩ [9] 5000 5000 =
        .ok (m, notedFile.sealed) := by
  have hcreate : (createArchive .unrolled keyedCrypto keyBackend none sampleDraws plainRequest
      notedFile).toOption.map (fun p => (within 2000 p.1, p.1.manifest.lastSequence)) =
        some (true, 7) := by
    decide +kernel
  obtain ⟨⟨s, trust⟩, hs, hcheck⟩ := eq_ok_of_toOption hcreate
  obtain ⟨hwithin, hlast⟩ := Prod.mk.inj hcheck
  have hreadable : Readable .unrolled keyedCrypto sampleDraws plainRequest notedFile :=
    ⟨by decide +kernel, by decide +kernel⟩
  have harchive : ((2000 : Nat) : Int) ≤ 5000 := by decide
  have hplaintext : (notedFile.sealed.length : Int) ≤ 5000 := by decide +kernel
  obtain ⟨m, hm⟩ := (decryptArchive_created_iff hs rfl inverts_keyedCrypto
    (stores_of_within hwithin) harchive hplaintext (by decide)).mpr hreadable
  exact ⟨s, trust, m, hs, hlast, hm⟩

/-- A line with a negative sequence. -/
def negativeLine : Bytes := Utf8.encodeAll (lit "\x7b\"sequence\":-1\x7d")

set_option maxRecDepth 100000 in
/-- A file with a negative sequence is sealed, and the archive cannot be opened. -/
theorem negative_sequence_unopenable :
    ∃ s trust, createArchive .unrolled keyedCrypto keyBackend none sampleDraws plainRequest
        (steadyFile negativeLine) = .ok (s, trust) ∧
      Inverts keyedCrypto sampleDraws [9] ∧ Stores ⟨2000, some s.entries⟩ s ∧
      decryptArchive .unrolled keyedCrypto ⟨2000, some s.entries⟩ [9] 5000 5000 =
        .error (.archive .badManifest) := by
  have hcreate : (createArchive .unrolled keyedCrypto keyBackend none sampleDraws plainRequest
      (steadyFile negativeLine)).toOption.map (fun p => within 2000 p.1 &&
        match decryptArchive .unrolled keyedCrypto ⟨2000, some p.1.entries⟩ [9] 5000 5000 with
        | .ok _ => false
        | .error e => e = .archive .badManifest) = some true := by
    decide +kernel
  obtain ⟨⟨s, trust⟩, hs, hcheck⟩ := eq_ok_of_toOption hcreate
  obtain ⟨hwithin, hdecrypt⟩ := Bool.and_eq_true_iff.mp hcheck
  refine ⟨s, trust, hs, inverts_keyedCrypto, stores_of_within hwithin, ?_⟩
  split at hdecrypt
  · cases hdecrypt
  · next e he => rw [he, of_decide_eq_true hdecrypt]

end Archive

end IcsDeception
