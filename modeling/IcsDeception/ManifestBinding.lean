import IcsDeception.Archive
import IcsDeception.Envelope
import IcsDeception.Lib.Json.Reading

/-!
# Binding of the manifest

The cipher authenticates the canonical form of the manifest that was read, not the text of
its entry. The canonical form determines every field, so a manifest under which the payload
authenticates is the manifest that was sealed, and the plaintext is the sealed one.

## Implementation notes

Two manifests are compared field by field, and their metadata as JSON values: a tuple of
the caller's metadata is read back as a list, and members may change their order.
-/

namespace IcsDeception

open Text Json Canonicalizer

namespace ArchiveManifest

/-- Manifests that are equal in every field, the metadata as JSON values. -/
structure Equal (m n : ArchiveManifest) : Prop where
  fields : { n with metadata := m.metadata } = m
  metadata : Same (.dict m.metadata) (.dict n.metadata)

/-- The values of a manifest have no repeated keys. -/
structure Distinct (m : ArchiveManifest) : Prop where
  values : ∀ p ∈ m.toDict, p.2.Distinct

theorem toDict_keys (m : ArchiveManifest) : m.toDict.map Prod.fst = fields := rfl

theorem fields_nodup : fields.Nodup := by decide

theorem Distinct.ofMembers {m : ArchiveManifest} (h : m.Distinct) :
    (Value.ofMembers m.toDict).Distinct :=
  Value.distinct_ofMembers (m.toDict_keys ▸ fields_nodup) h.values

/-- The fields of a manifest that hold texts, as a creation fills them. -/
structure Textual (m : ArchiveManifest) : Prop where
  nodeId : ∃ s, m.nodeId = .str s
  keyId : ∃ s, m.keyId = .str s
  createdAt : ∃ s, m.createdAt = .str s
  chainFinalHash : ∃ s, m.chainFinalHash = .str s
  plaintextSha3 : ∃ s, m.plaintextSha3 = .str s
  encapsulatedKey : ∃ s, m.encapsulatedKey = .str s
  hkdfSalt : ∃ s, m.hkdfSalt = .str s
  nonce : ∃ s, m.nonce = .str s

theorem eq_str_of_norm {st : Style} (hst : st.ascii = false) {s : Str} {v : Value}
    (h : norm st (.str s) = norm st v) : v = .str s := by
  cases v <;> simp_all [Json.norm, Value.ofMembers, Style.readBack]

/-- The additional data of a manifest determines it. -/
theorem Textual.equal {m n : ArchiveManifest} (ht : m.Textual) (hm : m.Distinct) (hn : n.Distinct)
    {aad : Bytes} (ham : m.authenticatedData = .ok aad) (han : n.authenticatedData = .ok aad) :
    Equal m n := by
  have hst : Style.compact.ascii = false := rfl
  have hl := norm_ofMembers_inj hst (m.toDict_keys.trans n.toDict_keys.symm)
    (m.toDict_keys ▸ fields_nodup)
    (norm_eq_of_canonicalBytes ham han hm.ofMembers hn.ofMembers)
  obtain ⟨s₁, h₁⟩ := ht.nodeId
  obtain ⟨s₂, h₂⟩ := ht.keyId
  obtain ⟨s₃, h₃⟩ := ht.createdAt
  obtain ⟨s₄, h₄⟩ := ht.chainFinalHash
  obtain ⟨s₅, h₅⟩ := ht.plaintextSha3
  obtain ⟨s₆, h₆⟩ := ht.encapsulatedKey
  obtain ⟨s₇, h₇⟩ := ht.hkdfSalt
  obtain ⟨s₈, h₈⟩ := ht.nonce
  simp only [toDict, List.map_cons, List.map_nil, List.cons.injEq, Prod.mk.injEq, true_and,
    and_true, h₁, h₂, h₃, h₄, h₅, h₆, h₇, h₈] at hl
  obtain ⟨version, node, key, first, last, count, created, final, digest, length, kem, kdf, aead,
    encapsulated, salt, nonce, ciphertext, strict, metadata⟩ := hl
  have hw : ∀ {x : ArchiveManifest}, x.Distinct → x.authenticatedData = .ok aad →
      Writable Style.compact (.dict x.metadata) := by
    intro x hx hax
    have hall := (canonicalBytes_eq_ok.mp hax).1.writable 0 _ hx.ofMembers
    exact writable_of_mem (k := .str (lit "metadata")) hall.2
      (List.mem_map_of_mem (f := fun p : Str × Value => (Key.str p.1, p.2))
        (a := (lit "metadata", Value.dict x.metadata)) (by simp [toDict]))
  refine ⟨?_, same_of_norm_eq hst _ _ (hw hm ham) (hw hn han) metadata⟩
  simp only [Json.norm, Value.int.injEq, Value.bool.injEq, Value.str.injEq, Style.readBack_raw hst]
    at version first last count length kem kdf aead ciphertext strict
  have hnode := (eq_str_of_norm hst node).trans h₁.symm
  have hkey := (eq_str_of_norm hst key).trans h₂.symm
  have hcreated := (eq_str_of_norm hst created).trans h₃.symm
  have hfinal := (eq_str_of_norm hst final).trans h₄.symm
  have hdigest := (eq_str_of_norm hst digest).trans h₅.symm
  have hencapsulated := (eq_str_of_norm hst encapsulated).trans h₆.symm
  have hsalt := (eq_str_of_norm hst salt).trans h₇.symm
  have hnonce := (eq_str_of_norm hst nonce).trans h₈.symm
  obtain ⟨⟩ := m
  obtain ⟨⟩ := n
  simp only [mk.injEq]
  exact ⟨version.symm, hnode, hkey, first.symm, last.symm, count.symm, hcreated, hfinal, hdigest,
    length.symm, kem.symm, kdf.symm, aead.symm, hencapsulated, hsalt, hnonce, ciphertext.symm,
    strict.symm, trivial⟩

/-! ## Manifests that were read -/

theorem distinct_field {data : List (Key × Value)} (h : (Value.dict data).Distinct) (name : String) :
    (Models.field data name).Distinct := by
  rw [Models.field]
  cases hl : data.lookup (Key.str (lit name)) with
  | none => trivial
  | some v => exact Value.distinctMembers_iff.mp h.2 _ (mem_of_lookup hl)

theorem distinct_readMetadata {py : Interp} {data metadata : List (Key × Value)} {name : Str}
    (h : (Value.dict data).Distinct)
    (hr : readMetadata py (data.lookup (.str name)) = .ok metadata) :
    (Value.dict metadata).Distinct := by
  cases hl : data.lookup (Key.str name) with
  | none =>
      rw [hl] at hr
      exact Except.ok.inj hr ▸ ⟨by simp, trivial⟩
  | some v =>
      rw [hl] at hr
      have hv := Value.distinctMembers_iff.mp h.2 _ (mem_of_lookup hl)
      unfold readMetadata at hr
      split at hr
      · next h => cases h
      · next h =>
          obtain rfl := Except.ok.inj hr
          exact Option.some.inj h ▸ hv
      · split_ifs at hr
        exact Except.ok.inj hr ▸ ⟨by simp, trivial⟩

/-- A manifest that was read has no repeated keys. -/
theorem distinct_of_fromDict {py : Interp} {v : Value} {m : ArchiveManifest} (h : v.Distinct)
    (hf : fromDict py v = .ok m) : m.Distinct := by
  cases v with
  | dict data =>
      obtain ⟨⟨⟩, -, hf⟩ := bind_eq_ok.mp hf
      obtain ⟨⟨⟩, -, hf⟩ := bind_eq_ok.mp hf
      obtain ⟨version, -, hf⟩ := bind_eq_ok.mp hf
      obtain ⟨kem, -, hf⟩ := bind_eq_ok.mp hf
      obtain ⟨kdf, -, hf⟩ := bind_eq_ok.mp hf
      obtain ⟨aead, -, hf⟩ := bind_eq_ok.mp hf
      obtain ⟨first, -, hf⟩ := bind_eq_ok.mp hf
      obtain ⟨last, -, hf⟩ := bind_eq_ok.mp hf
      obtain ⟨count, -, hf⟩ := bind_eq_ok.mp hf
      obtain ⟨ciphertext, -, hf⟩ := bind_eq_ok.mp hf
      obtain ⟨length, -, hf⟩ := bind_eq_ok.mp hf
      obtain ⟨metadata, hmeta, hf⟩ := bind_eq_ok.mp hf
      obtain ⟨strict, -, hf⟩ := bind_eq_ok.mp hf
      obtain rfl := Except.ok.inj hf
      have hm := distinct_readMetadata h hmeta
      constructor
      simp only [toDict, List.forall_mem_cons]
      exact ⟨trivial, distinct_field h _, distinct_field h _, trivial, trivial, trivial,
        distinct_field h _, distinct_field h _, distinct_field h _, trivial, trivial, trivial,
        trivial, distinct_field h _, distinct_field h _, distinct_field h _, trivial, trivial, hm,
        by simp⟩
  | _ => cases hf

end ArchiveManifest

namespace Archive

theorem lift_eq_ok {α : Type} {r : Except Exn α} {a : α} :
    ArchiveExn.lift r = .ok a ↔ r = .ok a := by
  cases r <;> simp [ArchiveExn.lift]

theorem archiveCheck_eq_ok {condition : Bool} {code : ArchiveCode} :
    archiveCheck condition code = .ok () ↔ condition = true := by
  unfold archiveCheck
  split_ifs with h <;> simp [h]

theorem loadManifest_eq_ok {py : Interp} {raw : Bytes} {v : Value}
    (h : loadManifest py raw = .ok v) : ∃ text, loads py.jsonLimit text = .ok v := by
  unfold loadManifest at h
  cases ht : Utf8.decodeStrict raw with
  | none => simp [ht] at h
  | some text =>
      simp only [ht] at h
      cases hl : loads py.jsonLimit text with
      | ok w =>
          rw [hl] at h
          exact ⟨text, Except.ok.inj h ▸ hl⟩
      | error e =>
          rw [hl] at h
          cases e <;> cases h

/-- What is read of a container before its payload is decrypted. -/
theorem readManifest_eq_ok {py : Interp} {entries : List ZipEntry} {limit : Int}
    {m : ArchiveManifest} {info : ZipEntry}
    (h : readManifestAndOpenCiphertext py entries limit = .ok (m, info)) :
    ∃ v, v.Distinct ∧ ArchiveManifest.fromDict py v = .ok m := by
  obtain ⟨⟨⟩, -, h⟩ := bind_eq_ok.mp h
  obtain ⟨⟨⟩, -, h⟩ := bind_eq_ok.mp h
  obtain ⟨⟨⟩, -, h⟩ := bind_eq_ok.mp h
  obtain ⟨⟨⟩, -, h⟩ := bind_eq_ok.mp h
  obtain ⟨manifestInfo, -, h⟩ := bind_eq_ok.mp h
  obtain ⟨⟨⟩, -, h⟩ := bind_eq_ok.mp h
  obtain ⟨raw, -, h⟩ := bind_eq_ok.mp h
  obtain ⟨v, hv, h⟩ := bind_eq_ok.mp h
  obtain ⟨m', hm, h⟩ := bind_eq_ok.mp h
  obtain ⟨info', -, h⟩ := bind_eq_ok.mp h
  obtain ⟨⟨⟩, -, h⟩ := bind_eq_ok.mp h
  obtain ⟨⟨⟩, -, h⟩ := bind_eq_ok.mp h
  obtain ⟨⟨⟩, -, h⟩ := bind_eq_ok.mp h
  obtain ⟨rfl, -⟩ := Prod.mk.inj (Except.ok.inj h)
  obtain ⟨text, ht⟩ := loadManifest_eq_ok hv
  exact ⟨v, Hooks.keeps_distinct.loadsWith ht, hm⟩

/-- An authenticated payload was decrypted under the additional data of the manifest. -/
theorem authenticate_eq_ok {crypto : ArchiveCrypto} {info : ZipEntry} {m : ArchiveManifest}
    {aesKey nonce compressed : Bytes}
    (h : authenticate crypto info m aesKey nonce = .ok compressed) :
    ∃ aad body tag, m.authenticatedData = .ok aad ∧
      crypto.decrypt aesKey nonce aad body tag = some compressed := by
  obtain ⟨aad, haad, h⟩ := bind_eq_ok.mp h
  obtain ⟨payload, -, h⟩ := bind_eq_ok.mp h
  obtain ⟨⟨⟩, -, h⟩ := bind_eq_ok.mp h
  obtain ⟨⟨⟩, -, h⟩ := bind_eq_ok.mp h
  split at h
  · cases h
  · next hd =>
      exact ⟨aad, _, _, lift_eq_ok.mp haad, hd.trans (congrArg some (Except.ok.inj h))⟩

/-- An archive that authenticates has a manifest that was read, under the key it leads to. -/
theorem openArchive_eq_ok {py : Interp} {crypto : ArchiveCrypto} {file : ArchiveFile}
    {privateKey compressed : Bytes} {a p : Int} {m : ArchiveManifest}
    (h : openArchive py crypto file privateKey a p = .ok (m, compressed)) :
    m.Distinct ∧ ∃ aesKey nonce aad body tag, deriveKey py crypto m privateKey = .ok (aesKey, nonce) ∧
      m.authenticatedData = .ok aad ∧
      crypto.decrypt aesKey nonce aad body tag = some compressed := by
  obtain ⟨⟨⟩, -, h⟩ := bind_eq_ok.mp h
  obtain ⟨⟨⟩, -, h⟩ := bind_eq_ok.mp h
  obtain ⟨⟨⟩, -, h⟩ := bind_eq_ok.mp h
  obtain ⟨entries, -, h⟩ := bind_eq_ok.mp h
  obtain ⟨⟨m', info⟩, hread, h⟩ := bind_eq_ok.mp h
  obtain ⟨⟨aesKey, nonce⟩, hkey, h⟩ := bind_eq_ok.mp h
  obtain ⟨compressed', hauth, h⟩ := bind_eq_ok.mp h
  obtain ⟨rfl, rfl⟩ := Prod.mk.inj (Except.ok.inj h)
  obtain ⟨v, hv, hm⟩ := readManifest_eq_ok hread
  obtain ⟨aad, body, tag, haad, hdec⟩ := authenticate_eq_ok hauth
  exact ⟨ArchiveManifest.distinct_of_fromDict hv hm, aesKey, nonce, aad, body, tag, hkey, haad,
    hdec⟩

/-! ## Archives that were sealed -/

/-- What a sealing leaves. -/
structure Seals (py : Interp) (crypto : ArchiveCrypto) (plaintext : Bytes) (s : Sealed) : Prop where
  textual : s.manifest.Textual
  distinct : s.manifest.Distinct
  digest : s.manifest.plaintextSha3 = .str (py.sha3_256 plaintext)
  length : s.manifest.plaintextLength = plaintext.length
  aad : s.manifest.authenticatedData = .ok s.aad
  encrypted : crypto.encrypt s.aesKey s.nonce s.aad (crypto.compress plaintext) = (s.body, s.tag)

theorem textual_manifestOf (py : Interp) (request : Request) (draws : Draws) (encapsulated : Bytes)
    (summary : EvidenceSummary) (plaintext : Bytes) (n : Nat) :
    (manifestOf py request draws encapsulated summary plaintext n).Textual :=
  ⟨⟨_, rfl⟩, ⟨_, rfl⟩, ⟨_, rfl⟩, ⟨_, rfl⟩, ⟨_, rfl⟩, ⟨_, rfl⟩, ⟨_, rfl⟩, ⟨_, rfl⟩⟩

theorem distinct_manifestOf (py : Interp) (request : Request) (draws : Draws)
    (encapsulated : Bytes) (summary : EvidenceSummary) (plaintext : Bytes) (n : Nat) :
    (manifestOf py request draws encapsulated summary plaintext n).Distinct := by
  constructor
  simp only [ArchiveManifest.toDict, manifestOf, List.forall_mem_cons]
  exact ⟨trivial, trivial, trivial, trivial, trivial, trivial, trivial, trivial, trivial, trivial,
    trivial, trivial, trivial, trivial, trivial, trivial, trivial, trivial,
    request.metadata_distinct, by simp⟩

theorem seals_of_sealEvidence {py : Interp} {crypto : ArchiveCrypto} {draws : Draws}
    {request : Request} {summary : EvidenceSummary} {plaintext : Bytes} {s : Sealed}
    (h : sealEvidence py crypto draws request summary plaintext = .ok s) :
    Seals py crypto plaintext s := by
  obtain ⟨⟨sharedSecret, encapsulated⟩, -, h⟩ := bind_eq_ok.mp h
  obtain ⟨aesKey, -, h⟩ := bind_eq_ok.mp h
  obtain ⟨⟨⟩, -, h⟩ := bind_eq_ok.mp h
  obtain ⟨aad, haad, h⟩ := bind_eq_ok.mp h
  obtain ⟨raw, -, h⟩ := bind_eq_ok.mp h
  obtain rfl := Except.ok.inj h
  exact ⟨textual_manifestOf .., distinct_manifestOf .., rfl, rfl, lift_eq_ok.mp haad, rfl⟩

/-- A created archive seals the content that the compressor read. -/
theorem seals_of_createArchive {py : Interp} {crypto : ArchiveCrypto} {backend : Backend}
    {registry : Option KeyRegistry} {draws : Draws} {request : Request} {file : EvidenceFile}
    {s : Sealed} {trust : ArchiveTrust}
    (h : createArchive py crypto backend registry draws request file = .ok (s, trust)) :
    Seals py crypto file.sealed s := by
  obtain ⟨⟨⟩, -, h⟩ := bind_eq_ok.mp h
  obtain ⟨⟨⟩, -, h⟩ := bind_eq_ok.mp h
  obtain ⟨⟨summary, trust'⟩, -, h⟩ := bind_eq_ok.mp h
  obtain ⟨⟨⟩, -, h⟩ := bind_eq_ok.mp h
  obtain ⟨⟨⟩, -, h⟩ := bind_eq_ok.mp h
  obtain ⟨s', hs, h⟩ := bind_eq_ok.mp h
  obtain ⟨rfl, -⟩ := Prod.mk.inj (Except.ok.inj h)
  exact seals_of_sealEvidence hs

/-- Under the key of a sealing the cipher opens only what the sealing produced, to the bytes
that were encrypted, and the decompressor inverts the compressor. -/
structure Opens (crypto : ArchiveCrypto) (s : Sealed) (plaintext : Bytes) : Prop where
  only : ∀ nonce aad body tag opened, crypto.decrypt s.aesKey nonce aad body tag = some opened →
    nonce = s.nonce ∧ aad = s.aad ∧ body = s.body ∧ tag = s.tag
  inverts : crypto.encrypt s.aesKey s.nonce s.aad (crypto.compress plaintext) = (s.body, s.tag) →
    crypto.decrypt s.aesKey s.nonce s.aad s.body s.tag = some (crypto.compress plaintext)
  inflates : crypto.decompress (crypto.compress plaintext) = (plaintext, false)

theorem decompress_of_inflates {crypto : ArchiveCrypto} {compressed plaintext : Bytes}
    (h : crypto.decompress compressed = (plaintext, false)) (limit : Int) :
    Archive.decompress crypto compressed limit =
      if limit < plaintext.length then .error (.archive .decompressionBomb)
      else .ok plaintext := by
  unfold Archive.decompress
  rw [h]
  by_cases hl : limit < plaintext.length
  · simp [archiveCheck, hl, Int.not_le.mpr hl, bind, Except.bind]
  · simp [archiveCheck, hl, Int.not_lt.mp hl, bind, Except.bind, pure, Except.pure]

/-- An archive that authenticates under the key and nonce of a sealed archive has its manifest,
and decrypts to the sealed plaintext unless that is larger than the limit. -/
theorem manifest_binding {py : Interp} {crypto : ArchiveCrypto} {backend : Backend}
    {registry : Option KeyRegistry} {draws : Draws} {request : Request} {file : EvidenceFile}
    {s : Sealed} {trust : ArchiveTrust}
    (hseal : createArchive py crypto backend registry draws request file = .ok (s, trust))
    (hopens : Opens crypto s file.sealed) {archive : ArchiveFile} {privateKey compressed : Bytes}
    {maxArchiveBytes maxPlaintextBytes : Int} {m : ArchiveManifest}
    (hopen : openArchive py crypto archive privateKey maxArchiveBytes maxPlaintextBytes =
      .ok (m, compressed))
    (hkey : deriveKey py crypto m privateKey = .ok (s.aesKey, s.nonce)) :
    ArchiveManifest.Equal s.manifest m ∧
      decryptArchive py crypto archive privateKey maxArchiveBytes maxPlaintextBytes =
        if maxPlaintextBytes < file.sealed.length then .error (.archive .decompressionBomb)
        else .ok (m, file.sealed) := by
  have hs := seals_of_createArchive hseal
  obtain ⟨hdistinct, aesKey, nonce, aad, body, tag, hderive, haad, hdec⟩ := openArchive_eq_ok hopen
  obtain ⟨rfl, rfl⟩ := Prod.mk.inj (Except.ok.inj (hderive.symm.trans hkey))
  obtain ⟨-, rfl, rfl, rfl⟩ := hopens.only _ _ _ _ _ hdec
  have hequal := hs.textual.equal hs.distinct hdistinct hs.aad haad
  have hcompressed : compressed = crypto.compress file.sealed :=
    Option.some.inj (hdec.symm.trans (hopens.inverts hs.encrypted))
  have hdigest : m.plaintextSha3 = .str (py.sha3_256 file.sealed) :=
    (congrArg ArchiveManifest.plaintextSha3 hequal.fields).trans hs.digest
  have hlength : m.plaintextLength = file.sealed.length :=
    (congrArg ArchiveManifest.plaintextLength hequal.fields).trans hs.length
  refine ⟨hequal, ?_⟩
  have hbody : decryptBody py crypto archive privateKey maxArchiveBytes maxPlaintextBytes =
      if maxPlaintextBytes < file.sealed.length then .error (.archive .decompressionBomb)
      else .ok (m, file.sealed) := by
    have hpass := decompress_of_inflates hopens.inflates maxPlaintextBytes
    unfold decryptBody
    rw [hopen, hcompressed]
    dsimp only [bind, Except.bind]
    rw [hpass]
    split_ifs with h
    · rfl
    · simp [archiveCheck, hdigest, hlength, isText, pure, Except.pure]
  unfold decryptArchive
  rw [hbody]
  split_ifs <;> rfl

/-! ## A sealed archive -/

/-- A cipher that opens nothing, with data stored as it is. -/
def sampleCipher : ArchiveCrypto where
  hmacSha256 key message := (key ++ message ++ List.replicate 32 0).take 32
  encrypt _ _ _ plaintext := (plaintext, List.replicate 16 7)
  decrypt _ _ _ _ _ := none
  compress plaintext := plaintext
  decompress compressed := (compressed, false)
  kemDecapsulate _ encapsulated := .ok encapsulated

def sampleDraws : Draws :=
  ⟨.ok ([1, 2, 3], [1, 2, 3]), List.replicate 32 4, by decide, List.replicate 12 5, by decide,
    lit "2024-05-01T00:00:00.000000Z"⟩

def sampleRequest : Request :=
  ⟨lit "plc-01", lit "key-1", false, 1000, [(.str (lit "tags"), .tuple [.int 1, .int 2])],
    ⟨by decide, ⟨⟨trivial, trivial, trivial⟩, trivial⟩⟩⟩

def sampleFile : EvidenceFile :=
  let line := Utf8.encodeAll (lit "a note that is not evidence")
  ⟨line.length, line, line, line⟩

def sampleSealing : Except ArchiveExn (Sealed × ArchiveTrust) :=
  createArchive .reference sampleCipher ⟨fun _ _ _ _ => .ok true⟩ none sampleDraws sampleRequest
    sampleFile

/-- The cipher after the sealing: it opens what the sealing produced. -/
def sampleCrypto : ArchiveCrypto :=
  { sampleCipher with
    decrypt := fun key nonce aad body tag =>
      match sampleSealing with
      | .error _ => none
      | .ok (s, _) =>
          if key = s.aesKey ∧ nonce = s.nonce ∧ aad = s.aad ∧ body = s.body ∧ tag = s.tag then
            some s.body
          else none }

/-- The archive file of the sealing. -/
def sampleArchive : ArchiveFile :=
  ⟨700, sampleSealing.toOption.map fun p => p.1.entries⟩

/-- A creation does not decrypt. -/
theorem createArchive_decrypt (py : Interp) (crypto : ArchiveCrypto)
    (decrypt : Bytes → Bytes → Bytes → Bytes → Bytes → Option Bytes) (backend : Backend)
    (registry : Option KeyRegistry) (draws : Draws) (request : Request) (file : EvidenceFile) :
    createArchive py { crypto with decrypt } backend registry draws request file =
      createArchive py crypto backend registry draws request file := rfl

theorem sampleSealing_eq {s : Sealed} {trust : ArchiveTrust}
    (h : sampleSealing = .ok (s, trust)) :
    createArchive .reference sampleCrypto ⟨fun _ _ _ _ => .ok true⟩ none sampleDraws sampleRequest
      sampleFile = .ok (s, trust) := by
  rw [sampleCrypto, createArchive_decrypt]
  exact h

theorem opens_sample {s : Sealed} {trust : ArchiveTrust} (h : sampleSealing = .ok (s, trust)) :
    Opens sampleCrypto s sampleFile.sealed where
  only nonce aad body tag opened hd := by
    simp only [sampleCrypto, h] at hd
    split_ifs at hd with hc
    exact hc.2
  inverts he := by
    have hbody : s.body = sampleFile.sealed := (Prod.mk.inj he).1.symm
    simp only [sampleCrypto, h, and_self, if_true, hbody]
    rfl
  inflates := rfl

set_option maxRecDepth 100000 in
/-- The container of a sealed archive authenticates and has its manifest. -/
theorem manifest_binding_sample :
    ∃ s trust m compressed, createArchive .reference sampleCrypto ⟨fun _ _ _ _ => .ok true⟩ none
        sampleDraws sampleRequest sampleFile = .ok (s, trust) ∧
      openArchive .reference sampleCrypto sampleArchive [9] 1000 1000 = .ok (m, compressed) ∧
      ArchiveManifest.Equal s.manifest m ∧
      decryptArchive .reference sampleCrypto sampleArchive [9] 1000 1000 =
        .ok (m, sampleFile.sealed) := by
  have hkeys : ∃ s trust m compressed, sampleSealing = .ok (s, trust) ∧
      openArchive .reference sampleCrypto sampleArchive [9] 1000 1000 = .ok (m, compressed) ∧
      deriveKey .reference sampleCrypto m [9] = .ok (s.aesKey, s.nonce) := by
    have hcheck : (do
        let p ← sampleSealing
        let q ← openArchive .reference sampleCrypto sampleArchive [9] 1000 1000
        let key ← deriveKey .reference sampleCrypto q.1 [9]
        archiveCheck (key = (p.1.aesKey, p.1.nonce)) .internalError) = .ok () := by
      rw [sampleArchive, sampleCrypto, sampleSealing, Interp.reference_eq_unrolled]
      decide +kernel
    obtain ⟨⟨s, trust⟩, hs, hcheck⟩ := bind_eq_ok.mp hcheck
    obtain ⟨⟨m, compressed⟩, hm, hcheck⟩ := bind_eq_ok.mp hcheck
    obtain ⟨key, hk, hcheck⟩ := bind_eq_ok.mp hcheck
    have hkey := of_decide_eq_true (archiveCheck_eq_ok.mp hcheck)
    exact ⟨s, trust, m, compressed, hs, hm, hkey ▸ hk⟩
  obtain ⟨s, trust, m, compressed, hs, hm, hk⟩ := hkeys
  have h := manifest_binding (sampleSealing_eq hs) (opens_sample hs) hm hk
  rw [if_neg (by decide)] at h
  exact ⟨s, trust, m, compressed, sampleSealing_eq hs, hm, h.1, h.2⟩

end Archive

end IcsDeception
