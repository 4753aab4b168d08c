import IcsDeception.KeyImport
import IcsDeception.Revocation
import IcsDeception.Lib.Json.Reread

/-!
# Saving a registry and loading it again

Every record that an operation can bring into the registry passes the checks of the reader
again. What can stop the reader is the size of the file and the depth of the metadata, which
`save` does not limit as `load` does, and what can change is a text with a pair of
surrogates, which the reader joins.
-/

namespace IcsDeception

open Text Json Calendar

namespace RegisteredKey

variable {py : Interp}

/-- Every float of the record is spelled as the interpreter writes it. -/
structure Spelled (py : Interp) (r : RegisteredKey) : Prop where
  reason : respelled py.floatText r.revocationReason = r.revocationReason
  revoked : respelled py.floatText r.revokedAt = r.revokedAt
  metadata : respelled py.floatText (.dict r.metadata) = .dict r.metadata

/-- What the reader checks of a record, and how it keeps the floats. -/
structure Valid (py : Interp) (r : RegisteredKey) : Prop where
  keyId : r.keyId ≠ [] ∧ r.keyId.length ≤ Models.maxNodeIdLength
  nodeId : r.nodeId ≠ [] ∧ r.nodeId.length ≤ Models.maxNodeIdLength
  publicKey : ∃ b, py.b64decode r.publicKey = some b
  created : ∃ i, KeyRegistry.parseTime py r.createdAt = .ok i
  dates : r.toKeyRecord.DatesRead py
  spelled : r.Spelled py

theorem readIdentifier_eq_ok {v : Value} {s : Str} :
    KeyRecord.readIdentifier v = .ok s ↔
      v = .str s ∧ s ≠ [] ∧ s.length ≤ Models.maxNodeIdLength := by
  cases v with
  | str t =>
      rw [KeyRecord.readIdentifier, KeyRecord.need]
      by_cases h : (decide (t ≠ []) && decide (t.length ≤ Models.maxNodeIdLength)) = true
      · rw [if_pos h]
        simp only [Bool.and_eq_true, decide_eq_true_eq] at h
        constructor
        · intro heq
          obtain rfl := Except.ok.inj heq
          exact ⟨rfl, h⟩
        · rintro ⟨heq, -⟩
          rw [Value.str.inj heq]
          rfl
      · rw [if_neg h]
        constructor
        · intro heq
          cases heq
        · rintro ⟨heq, hs⟩
          obtain rfl := Value.str.inj heq
          exact absurd (by simpa using hs) h
  | _ =>
      constructor
      · intro heq
        cases heq
      · rintro ⟨heq, -⟩
        cases heq

theorem readTime_text {v : Value} {s : Str} (h : KeyRecord.readTime py v = .ok s) : v = .str s := by
  cases v with
  | str t =>
      obtain ⟨i, -, h⟩ := bind_eq_ok.mp h
      rw [Except.ok.inj h]
  | _ => cases h

theorem respelled_spelled (py : Interp) (d : Document) :
    respelled py.floatText (d.spelled py).value = (d.spelled py).value :=
  respelled_respelled (fun l hl => (py.floatText_spelled l hl).2) d.value d.legible

theorem respelled_membersOf {f : Str → Str} {v : Value} (h : respelled f v = v) :
    respelled f (.dict (Document.membersOf v)) = .dict (Document.membersOf v) := by
  cases v with
  | dict data => exact h
  | _ => rfl

/-- A record holds its floats as they are written. -/
theorem spelled_of_fromDict {d : Document} {r : RegisteredKey} (h : fromDict py d = .ok r) :
    r.Spelled py := by
  obtain ⟨record, -, h⟩ := bind_eq_ok.mp h
  obtain rfl := Except.ok.inj h
  exact ⟨respelled_spelled py _, respelled_spelled py _, respelled_membersOf (respelled_spelled py _)⟩

/-- A record that `from_dict` accepts passes its checks. -/
theorem valid_of_fromDict {d : Document} {r : RegisteredKey} (h : fromDict py d = .ok r) :
    r.Valid py := by
  have hspelled := spelled_of_fromDict h
  obtain ⟨record, hrecord, h⟩ := bind_eq_ok.mp h
  obtain rfl := Except.ok.inj h
  have hdates := KeyRecord.datesRead_of_fromDict hrecord
  cases hd : d.value with
  | dict data =>
      rw [hd, KeyRecord.fromDict] at hrecord
      obtain ⟨-, -, h⟩ := bind_eq_ok.mp hrecord
      obtain ⟨keyId, hkey, h⟩ := bind_eq_ok.mp h
      obtain ⟨nodeId, hnode, h⟩ := bind_eq_ok.mp h
      obtain ⟨algorithm, -, h⟩ := bind_eq_ok.mp h
      obtain ⟨state, -, h⟩ := bind_eq_ok.mp h
      obtain ⟨-, -, h⟩ := bind_eq_ok.mp h
      obtain ⟨publicKey, hpublic, h⟩ := bind_eq_ok.mp h
      obtain ⟨created, hcreated, h⟩ := bind_eq_ok.mp h
      obtain ⟨activatedAt, -, h⟩ := bind_eq_ok.mp h
      obtain ⟨expiresAt, -, h⟩ := bind_eq_ok.mp h
      obtain rfl := Except.ok.inj h
      refine ⟨(readIdentifier_eq_ok.mp hkey).2, (readIdentifier_eq_ok.mp hnode).2, ?_, ?_, hdates,
        hspelled⟩
      · cases hv : Models.field data "public_key" with
        | str t =>
            rw [hv] at hpublic
            obtain ⟨rfl, hb⟩ := KeyRegistry.readPublicKey_eq_ok hpublic
            exact hb
        | _ =>
            rw [hv] at hpublic
            cases hpublic
      · have htext : Document.textOf (d.field "created_at").value = created := by
          change Document.textOf (Document.fieldOf d.value "created_at") = created
          rw [hd, Document.fieldOf, readTime_text hcreated]
          rfl
        change ∃ i, KeyRegistry.parseTime py (Document.textOf (d.field "created_at").value) = .ok i
        rw [htext]
        exact KeyRecord.readTime_eq_ok hcreated
  | _ =>
      rw [hd] at hrecord
      cases hrecord

end RegisteredKey

namespace KeyTable

variable {copyLimit : Nat} {py : Interp}

/-! ## Every record passes the checks again -/

/-- Every record of the table passes the checks of the reader. -/
def AllValid (py : Interp) (t : KeyTable) : Prop := ∀ r ∈ t.keys, r.Valid py

theorem allValid_modify {t : KeyTable} (h : t.AllValid py) (keyId : Str)
    {f : RegisteredKey → RegisteredKey} (hid : ∀ r, (f r).keyId = r.keyId)
    (hkey : ∀ r, (f r).publicKey = r.publicKey) (hf : ∀ r : RegisteredKey, r.Valid py → (f r).Valid py) :
    (t.modify keyId f hid hkey).AllValid py := by
  intro x hx
  obtain ⟨r, hr, rfl⟩ := List.mem_map.mp hx
  split_ifs
  · exact hf r (h r hr)
  · exact h r hr

theorem allValid_setState {t : KeyTable} (h : t.AllValid py) (keyId : Str) (state : KeyState) :
    (t.setState keyId state).AllValid py :=
  allValid_modify h keyId _ _ fun _ hr =>
    ⟨hr.keyId, hr.nodeId, hr.publicKey, hr.created, hr.dates,
      hr.spelled.reason, hr.spelled.revoked, hr.spelled.metadata⟩

theorem allValid_insert {t t' : KeyTable} {r : RegisteredKey} (h : t.AllValid py) (hr : r.Valid py)
    (hins : t.insert r = .ok t') : t'.AllValid py := by
  obtain ⟨-, -, hkeys⟩ := insert_eq_ok hins
  intro x hx
  rw [hkeys] at hx
  rcases List.mem_append.mp hx with hx | hx
  · exact h x hx
  · rw [List.mem_singleton.mp hx]
    exact hr

theorem allValid_without {t : KeyTable} (h : t.AllValid py) (keyId : Str) :
    (t.without keyId).AllValid py := fun r hr => h r (List.mem_filter.mp hr).1

theorem allValid_register {t : KeyTable} (h : t.AllValid py) (now : Instant) (keyId nodeId : Str)
    (publicKey : Bytes) (algorithm : Str) (activatedAt expiresAt : Option Str)
    (metadata : RegisteredKey.Metadata) (makeActive : Bool) :
    (t.register copyLimit py now keyId nodeId publicKey algorithm activatedAt expiresAt metadata
      makeActive).2.AllValid py := by
  have hdemoted : (t.demoted nodeId makeActive).AllValid py := by
    unfold demoted
    split_ifs
    · cases t.activeKey nodeId with
      | none => exact h
      | some previous => exact allValid_setState h _ _
    · exact h
  unfold register
  cases hnew : RegisteredKey.newRecord copyLimit py now keyId nodeId publicKey algorithm activatedAt
      expiresAt metadata makeActive with
  | error e => exact h
  | ok r =>
      have hr : r.Valid py := by
        obtain ⟨-, -, hnew⟩ := bind_eq_ok.mp hnew
        obtain ⟨-, -, hnew⟩ := bind_eq_ok.mp hnew
        obtain ⟨activated, -, hnew⟩ := bind_eq_ok.mp hnew
        obtain ⟨expires, -, hnew⟩ := bind_eq_ok.mp hnew
        split_ifs at hnew
        exact RegisteredKey.valid_of_fromDict hnew
      dsimp only
      cases hins : (t.demoted nodeId makeActive).insert r with
      | error e => exact hdemoted
      | ok t' => exact allValid_insert hdemoted hr hins

theorem allValid_importEntry {t : KeyTable} (h : t.AllValid py) (overwrite : Bool)
    (entry : Document) : (importEntry py overwrite t entry).2.AllValid py := by
  unfold importEntry
  cases hfrom : RegisteredKey.fromDict py entry with
  | error e => exact h
  | ok r =>
      have hr := RegisteredKey.valid_of_fromDict hfrom
      dsimp only
      split_ifs
      · cases hins : (t.without r.keyId).insert r with
        | error e => exact allValid_without h _
        | ok t' => exact allValid_insert (allValid_without h _) hr hins
      · exact h
      · cases hins : t.insert r with
        | error e => exact h
        | ok t' => exact allValid_insert h hr hins

theorem allValid_importEntries {t : KeyTable} (h : t.AllValid py) (overwrite : Bool)
    (entries : List Document) : (importEntries py overwrite t entries).2.AllValid py := by
  induction entries generalizing t with
  | nil => exact h
  | cons entry rest ih =>
      have hone := allValid_importEntry h overwrite entry
      rw [importEntries]
      cases hresult : importEntry py overwrite t entry with
      | mk result t' =>
          rw [hresult] at hone
          cases result with
          | error e => exact hone
          | ok _ => exact ih hone

theorem allValid_foldlM {records : List RegisteredKey} (hrecords : ∀ r ∈ records, r.Valid py)
    {t t' : KeyTable} (h : t.AllValid py) (hfold : records.foldlM insert t = .ok t') :
    t'.AllValid py := by
  induction records generalizing t with
  | nil =>
      obtain rfl := Except.ok.inj hfold
      exact h
  | cons r rest ih =>
      obtain ⟨hr, hrest⟩ := List.forall_mem_cons.mp hrecords
      rw [List.foldlM_cons] at hfold
      obtain ⟨next, hnext, hfold⟩ := bind_eq_ok.mp hfold
      exact ih hrest (allValid_insert h hr hnext) hfold

theorem allValid_empty : empty.AllValid py := fun _ hr => absurd hr List.not_mem_nil

/-- What a load that succeeds has read. -/
theorem load_eq_ok {bytes : Bytes} {t : KeyTable} (h : load py (some bytes) = .ok t) :
    bytes.length ≤ maxRegistryBytes ∧ ∃ text data entries records,
      Utf8.decodeStrict bytes = some text ∧
      Document.read py.jsonLimit (universalNewlines text) = .ok data ∧ data.entries = .ok entries ∧
      entries.mapM (RegisteredKey.fromDict py) = .ok records ∧ records.foldlM insert empty = .ok t := by
  rw [load] at h
  split_ifs at h with hsize
  cases htext : Utf8.decodeStrict bytes with
  | none =>
      rw [htext] at h
      cases h
  | some text =>
      rw [htext] at h
      dsimp only at h
      cases hdata : Document.read py.jsonLimit (universalNewlines text) with
      | error e =>
          rw [hdata] at h
          cases e <;> cases h
      | ok data =>
          rw [hdata] at h
          obtain ⟨entries, hentries, h⟩ := bind_eq_ok.mp h
          obtain ⟨records, hrecords, h⟩ := bind_eq_ok.mp h
          exact ⟨Nat.not_lt.mp hsize, text, data, entries, records, rfl, hdata, hentries, hrecords, h⟩

theorem allValid_apply {t : KeyTable} (h : t.AllValid py) (op : Operation) :
    (t.apply copyLimit py op).AllValid py := by
  cases op with
  | register now keyId nodeId publicKey algorithm activatedAt expiresAt metadata makeActive =>
      exact allValid_register h now keyId nodeId publicKey algorithm activatedAt expiresAt metadata
        makeActive
  | rotate now nodeId newKeyId publicKey algorithm activatedAt expiresAt metadata =>
      simp only [apply, rotate]
      split_ifs
      · exact h
      · exact allValid_register h now newKeyId nodeId publicKey algorithm activatedAt expiresAt
          metadata true
  | revoke now keyId reason =>
      simp only [apply, revoke]
      split_ifs
      · exact h
      · exact h
      · refine allValid_modify h keyId ?_ ?_ ?_
        · exact fun _ => rfl
        · exact fun _ => rfl
        · exact fun _ hr =>
            ⟨hr.keyId, hr.nodeId, hr.publicKey, hr.created, hr.dates, rfl, rfl, hr.spelled.metadata⟩
  | disable keyId =>
      simp only [apply, disable]
      split_ifs
      · exact h
      · exact allValid_setState h _ _
  | importPublic document overwrite =>
      simp only [apply, importPublic]
      cases document.entries with
      | error e => exact h
      | ok entries => exact allValid_importEntries h overwrite entries
  | load content =>
      simp only [apply]
      cases hload : load py content with
      | error e => exact h
      | ok loaded =>
          cases content with
          | none =>
              obtain rfl := Except.ok.inj hload
              exact allValid_empty
          | some bytes =>
              obtain ⟨-, text, data, entries, records, -, -, -, hrecords, hfold⟩ := load_eq_ok hload
              exact allValid_foldlM
                (KeyRegistry.forall_of_mapM (fun _ _ => RegisteredKey.valid_of_fromDict) hrecords)
                allValid_empty hfold

/-- Every record that a run of operations leaves passes the checks of the reader. -/
theorem allValid_run {t : KeyTable} (h : t.AllValid py) (ops : List Operation) :
    (t.run copyLimit py ops).AllValid py := by
  induction ops generalizing t with
  | nil => exact h
  | cons op rest ih => exact ih (allValid_apply h op)

end KeyTable

/-! ## A record read back -/

namespace RegisteredKey

variable {copyLimit : Nat} {py : Interp}

/-- No text of the record holds a pair of surrogates. -/
structure NoPairs (r : RegisteredKey) : Prop where
  keyId : Unpaired r.keyId
  nodeId : Unpaired r.nodeId
  publicKey : Unpaired r.publicKey
  created : Unpaired r.createdAt
  activated : Unpaired r.activatedAt
  expires : ∀ t, r.expiresAt = some t → Unpaired t
  reason : Json.NoPairs r.revocationReason
  revoked : Json.NoPairs r.revokedAt
  metadata : Json.NoPairs (.dict r.metadata)

instance (r : RegisteredKey) : Decidable r.NoPairs :=
  decidable_of_iff
    (Unpaired r.keyId ∧ Unpaired r.nodeId ∧ Unpaired r.publicKey ∧ Unpaired r.createdAt ∧
      Unpaired r.activatedAt ∧ (∀ t ∈ r.expiresAt, Unpaired t) ∧ Json.NoPairs r.revocationReason ∧
      Json.NoPairs r.revokedAt ∧ Json.NoPairs (.dict r.metadata))
    ⟨fun ⟨h₁, h₂, h₃, h₄, h₅, h₆, h₇, h₈, h₉⟩ => ⟨h₁, h₂, h₃, h₄, h₅, h₆, h₇, h₈, h₉⟩,
     fun h => ⟨h.keyId, h.nodeId, h.publicKey, h.created, h.activated, h.expires, h.reason,
      h.revoked, h.metadata⟩⟩

/-- The same record: every field is equal, as a JSON value where it is one. -/
structure SameKey (r s : RegisteredKey) : Prop where
  record : r.toKeyRecord = s.toKeyRecord
  created : r.createdAt = s.createdAt
  reason : Same r.revocationReason s.revocationReason
  revoked : Same r.revokedAt s.revokedAt
  metadata : Same (.dict r.metadata) (.dict s.metadata)

/-- What the reader makes of the record. -/
structure RereadAs (r s : RegisteredKey) : Prop where
  record : s.toKeyRecord = { r.toKeyRecord with
    keyId := joinSurrogates r.keyId
    nodeId := joinSurrogates r.nodeId
    publicKey := joinSurrogates r.publicKey
    activatedAt := joinSurrogates r.activatedAt
    expiresAt := r.expiresAt.map joinSurrogates }
  created : s.createdAt = joinSurrogates r.createdAt
  reason : s.revocationReason = reread Style.indented r.revocationReason
  revoked : s.revokedAt = reread Style.indented r.revokedAt
  metadata : .dict s.metadata = reread Style.indented (.dict r.metadata)

/-- A record that is read back is the same exactly if no text in it changes. -/
theorem RereadAs.same_iff {r s : RegisteredKey} (h : RereadAs r s) : SameKey r s ↔ r.NoPairs := by
  have hreason := @same_reread_iff Style.indented rfl _ r.distinct_reason
  have htime := @same_reread_iff Style.indented rfl _ r.distinct_time
  have hmetadata := @same_reread_iff Style.indented rfl _ r.distinct_metadata
  constructor
  · intro hsame
    have hrecord := hsame.record.trans h.record
    have hfield := fun {α : Type} (f : KeyRecord → α) => congrArg f hrecord
    refine ⟨(hfield KeyRecord.keyId).symm, (hfield KeyRecord.nodeId).symm,
      (hfield KeyRecord.publicKey).symm, (hsame.created.trans h.created).symm,
      (hfield KeyRecord.activatedAt).symm, ?_, ?_, ?_, ?_⟩
    · intro t ht
      have hexpires : r.expiresAt = r.expiresAt.map joinSurrogates := hfield KeyRecord.expiresAt
      rw [ht] at hexpires
      exact (Option.some.inj hexpires).symm
    · exact hreason.mp (h.reason ▸ hsame.reason)
    · exact htime.mp (h.revoked ▸ hsame.revoked)
    · exact hmetadata.mp (h.metadata ▸ hsame.metadata)
  · intro hpairs
    have hexpires : r.expiresAt.map joinSurrogates = r.expiresAt := by
      cases hexp : r.expiresAt with
      | none => rfl
      | some t => exact congrArg some (hpairs.expires t hexp)
    refine ⟨?_, ?_, ?_, ?_, ?_⟩
    · rw [h.record, hpairs.keyId, hpairs.nodeId, hpairs.publicKey, hpairs.activated, hexpires]
    · rw [h.created, hpairs.created]
    · rw [h.reason]
      exact hreason.mpr hpairs.reason
    · rw [h.revoked]
      exact htime.mpr hpairs.revoked
    · rw [h.metadata]
      exact hmetadata.mpr hpairs.metadata

theorem toDict_eq_ok {r : RegisteredKey} {ms : List (Str × Value)}
    (h : r.toDict copyLimit py = .ok ms) : r.toKeyRecord.toDict py r.toKeyNotes = .ok ms := by
  unfold toDict at h
  split_ifs at h
  exact h

/-- The fields of a written record are found again under their names. -/
theorem entry_lookup {r : RegisteredKey} {ms : List (Str × Value)}
    (h : r.toDict copyLimit py = .ok ms) :
    ∃ kws, reread Style.indented (Value.ofMembers ms) = .dict kws ∧
      ∀ p ∈ ms, kws.lookup (.str p.1) = some (reread Style.indented p.2) := by
  have hnames := KeyRegistry.toDict_names (toDict_eq_ok h)
  have hkeys : (ms.map fun p => (Key.str p.1, p.2)).map Prod.fst =
      (ms.map Prod.fst).map Key.str := by
    rw [List.map_map, List.map_map]
    rfl
  have hnodup : ((ms.map fun p => (Key.str p.1, p.2)).map Prod.fst).Nodup := by
    rw [hkeys, hnames]
    exact KeyRegistry.recordFields_nodup.map fun _ _ heq => Key.str.inj heq
  obtain ⟨kws, hdict, -, hlookup⟩ := @lookup_reread Style.indented _ hnodup (by
    intro p hp
    obtain ⟨q, hq, rfl⟩ := List.mem_map.mp hp
    refine ⟨q.1, rfl, joinSurrogates_of_scalar ?_⟩
    exact KeyRegistry.recordFields_scalar _ (hnames ▸ List.mem_map_of_mem hq))
  refine ⟨kws, hdict, fun p hp => ?_⟩
  exact hlookup _ (List.mem_map_of_mem (f := fun p : Str × Value => (Key.str p.1, p.2)) hp)

/-- The value of an optional date. -/
def expiryValue : Option Str → Value
  | none => .null
  | some t => .str t

/-- The reader's checks of a record that was written. -/
def checkReread (py : Interp) (r : RegisteredKey) : Except Exn KeyRecord := do
  let keyId ← KeyRecord.readIdentifier (.str (joinSurrogates r.keyId))
  let nodeId ← KeyRecord.readIdentifier (.str (joinSurrogates r.nodeId))
  let publicKey ← KeyRecord.readPublicKey py (.str (joinSurrogates r.publicKey))
  let _ ← KeyRecord.readTime py (.str (joinSurrogates r.createdAt))
  let activatedAt ← KeyRecord.readTime py (.str (joinSurrogates r.activatedAt))
  let expiresAt ← KeyRecord.readExpiry py (expiryValue (r.expiresAt.map joinSurrogates))
  return { keyId, nodeId, algorithm := r.algorithm, publicKey, activatedAt, expiresAt,
           state := r.state }

theorem readAlgorithm_text (a : SignatureAlgorithm) :
    KeyRecord.readAlgorithm (.str (joinSurrogates a.text)) = .ok a := by
  cases a <;> decide

theorem readState_join (state : KeyState) :
    KeyRecord.readState (some (.str (joinSurrogates state.text))) = .ok state := by
  cases state <;> decide

/-- Of a written record the reader checks these texts, and takes the values as they are read. -/
theorem fromDict_entry {r : RegisteredKey} {ms : List (Str × Value)} {d : Document}
    (h : r.toDict copyLimit py = .ok ms)
    (hd : d.value = reread Style.indented (Value.ofMembers ms)) :
    KeyRecord.fromDict py d.value = checkReread py r ∧
      (d.field "created_at").value = .str (joinSurrogates r.createdAt) ∧
      (d.field "revocation_reason").value = reread Style.indented r.revocationReason ∧
      (d.field "revoked_at").value = reread Style.indented r.revokedAt ∧
      (d.field "metadata").value = reread Style.indented (.dict r.metadata) := by
  obtain ⟨kws, hkws, hlookup⟩ := entry_lookup h
  rw [hkws] at hd
  obtain ⟨publicKey, -, hms⟩ := bind_eq_ok.mp (toDict_eq_ok h)
  obtain rfl := Except.ok.inj hms
  simp only [List.forall_mem_cons] at hlookup
  obtain ⟨h₁, h₂, h₃, h₄, h₅, h₆, h₇, h₈, h₉, h₁₀, h₁₁, -⟩ := hlookup
  have hfield : ∀ {name : String} {v : Value}, kws.lookup (.str (lit name)) = some v →
      Models.field kws name = v := by
    intro name v hv
    rw [Models.field, hv]
    rfl
  have hdoc : ∀ {name : String} {v : Value}, kws.lookup (.str (lit name)) = some v →
      (d.field name).value = v := by
    intro name v hv
    change Document.fieldOf d.value name = v
    rw [hd]
    exact hfield hv
  refine ⟨?_, hdoc h₅, hdoc h₉, hdoc h₁₀, hdoc h₁₁⟩
  have hrequired : (KeyRecord.requiredFields.all fun f => (kws.lookup (.str f)).isSome) = true := by
    simp only [KeyRecord.requiredFields, List.all_cons, List.all_nil, h₁, h₂, h₃, h₄, h₅, h₆,
      Option.isSome_some, Bool.and_true]
  have hexpires : kws.lookup (.str (lit "expires_at")) =
      some (expiryValue (r.expiresAt.map joinSurrogates)) := by
    rw [h₇]
    cases r.expiresAt with
    | none => rfl
    | some t => rfl
  have hmetadata : KeyRecord.metadataOk py (kws.lookup (.str (lit "metadata"))) = true := by
    rw [h₁₁]
    rfl
  rw [hd, KeyRecord.fromDict, hrequired, hmetadata, hfield h₁, hfield h₂, hfield h₃, hfield h₄,
    hfield h₅, hfield h₆, hfield hexpires, h₈]
  change _ = checkReread py r
  simp only [reread, Style.readBack, Style.indented, if_true, KeyRecord.need, readAlgorithm_text,
    readState_join]
  rfl

theorem readExpiry_text {o o' : Option Str} (h : KeyRecord.readExpiry py (expiryValue o) = .ok o') :
    o' = o := by
  cases o with
  | none => exact (Except.ok.inj h).symm
  | some t =>
      obtain ⟨s, hs, h⟩ := bind_eq_ok.mp h
      rw [← Except.ok.inj h, ← Value.str.inj (readTime_text hs)]

/-- What is read of a written record is the record as it is read back. -/
theorem rereadAs_of_fromDict {r s : RegisteredKey} {ms : List (Str × Value)} {d : Document}
    (h : r.toDict copyLimit py = .ok ms)
    (hd : d.value = reread Style.indented (Value.ofMembers ms)) (hspelled : r.Spelled py)
    (hs : fromDict py d = .ok s) : RereadAs r s := by
  obtain ⟨hrecord, hcreated, hreason, hrevoked, hmetadata⟩ := fromDict_entry h hd
  have hrespelled : ∀ {name : String} {v : Value}, (d.field name).value = reread Style.indented v →
      respelled py.floatText v = v → ((d.field name).spelled py).value = reread Style.indented v := by
    intro name v hfield hv
    change respelled py.floatText (d.field name).value = _
    rw [hfield, respelled_reread, hv]
  obtain ⟨record, hfrom, hs⟩ := bind_eq_ok.mp hs
  obtain rfl := Except.ok.inj hs
  rw [hrecord] at hfrom
  obtain ⟨keyId, hkey, hfrom⟩ := bind_eq_ok.mp hfrom
  obtain ⟨nodeId, hnode, hfrom⟩ := bind_eq_ok.mp hfrom
  obtain ⟨publicKey, hpublic, hfrom⟩ := bind_eq_ok.mp hfrom
  obtain ⟨created, -, hfrom⟩ := bind_eq_ok.mp hfrom
  obtain ⟨activatedAt, hactivated, hfrom⟩ := bind_eq_ok.mp hfrom
  obtain ⟨expiresAt, hexpires, hfrom⟩ := bind_eq_ok.mp hfrom
  obtain rfl := Except.ok.inj hfrom
  refine ⟨?_, ?_, hrespelled hreason hspelled.reason, hrespelled hrevoked hspelled.revoked, ?_⟩
  · rw [Value.str.inj (readIdentifier_eq_ok.mp hkey).1,
      Value.str.inj (readIdentifier_eq_ok.mp hnode).1,
      ← (KeyRegistry.readPublicKey_eq_ok hpublic).1, ← Value.str.inj (readTime_text hactivated),
      readExpiry_text hexpires]
  · change Document.textOf (d.field "created_at").value = _
    rw [hcreated]
    rfl
  · change Value.dict (Document.membersOf ((d.field "metadata").spelled py).value) = _
    rw [hrespelled hmetadata hspelled.metadata]
    rfl

/-- The reader takes a valid record in which no text changes. -/
theorem exists_fromDict {r : RegisteredKey} {ms : List (Str × Value)} {d : Document}
    (h : r.toDict copyLimit py = .ok ms)
    (hd : d.value = reread Style.indented (Value.ofMembers ms)) (hvalid : r.Valid py)
    (hpairs : r.NoPairs) : ∃ s, fromDict py d = .ok s := by
  obtain ⟨hrecord, -⟩ := fromDict_entry h hd
  have htime : ∀ {t : Str}, (∃ i, KeyRegistry.parseTime py t = .ok i) →
      KeyRecord.readTime py (.str t) = .ok t := by
    rintro t ⟨i, hi⟩
    exact bind_eq_ok.mpr ⟨i, hi, rfl⟩
  have hexpires : KeyRecord.readExpiry py (expiryValue r.expiresAt) = .ok r.expiresAt := by
    cases hexp : r.expiresAt with
    | none => rfl
    | some t => exact bind_eq_ok.mpr ⟨t, htime (hvalid.dates.2 t hexp), rfl⟩
  have hjoined : r.expiresAt.map joinSurrogates = r.expiresAt := by
    cases hexp : r.expiresAt with
    | none => rfl
    | some t => exact congrArg some (hpairs.expires t hexp)
  have hpublic : KeyRecord.readPublicKey py (.str r.publicKey) = .ok r.publicKey := by
    obtain ⟨b, hb⟩ := hvalid.publicKey
    rw [KeyRecord.readPublicKey, hb]
  have hcheck : ∃ record, checkReread py r = .ok record := by
    unfold checkReread
    rw [hpairs.keyId, hpairs.nodeId, hpairs.publicKey, hpairs.created, hpairs.activated, hjoined]
    refine ⟨r.toKeyRecord, bind_eq_ok.mpr ⟨_, readIdentifier_eq_ok.mpr ⟨rfl, hvalid.keyId⟩, ?_⟩⟩
    refine bind_eq_ok.mpr ⟨_, readIdentifier_eq_ok.mpr ⟨rfl, hvalid.nodeId⟩, ?_⟩
    refine bind_eq_ok.mpr ⟨_, hpublic, bind_eq_ok.mpr ⟨_, htime hvalid.created, ?_⟩⟩
    exact bind_eq_ok.mpr ⟨_, htime hvalid.dates.1, bind_eq_ok.mpr ⟨_, hexpires, rfl⟩⟩
  obtain ⟨record, hok⟩ := hcheck
  rw [← hrecord] at hok
  exact ⟨_, bind_eq_ok.mpr ⟨record, hok, rfl⟩⟩

end RegisteredKey

namespace KeyTable

variable {copyLimit : Nat} {py : Interp}

/-! ## The file read back -/

/-- The document that `save` writes. -/
def fileDocument (py : Interp) (now : Instant) (entries : List (List (Str × Value))) : Value :=
  Value.ofMembers (KeyRegistry.payload py now (entries.map Value.ofMembers))

/-- What a successful save has written. -/
theorem save_eq_ok {now : Instant} {t : KeyTable} {content : Bytes}
    (h : t.save copyLimit py now = .ok content) : ∃ entries text,
      t.sortedRecords.mapM (RegisteredKey.toDict copyLimit py) = .ok entries ∧
      dump Style.indented 0 (fileDocument py now entries) = .ok text ∧
      content = Utf8.encodeAll (text ++ [lf]) := by
  obtain ⟨entries, hentries, h⟩ := bind_eq_ok.mp h
  dsimp only at h
  split_ifs at h
  split at h
  · next text htext => exact ⟨entries, text, hentries, htext, (Except.ok.inj h).symm⟩
  · cases h
  · cases h

theorem rereadItems_eq_map (st : Style) (xs : List Value) :
    rereadItems st xs = xs.map (reread st) := by
  induction xs with
  | nil => rfl
  | cons x xs ih => rw [rereadItems, ih, List.map_cons]

/-- The entries of the document read back are the records read back. -/
theorem documentEntries_reread (now : Instant) (entries : List (List (Str × Value))) :
    KeyRegistry.documentEntries (reread Style.indented (fileDocument py now entries)) =
      .ok (entries.map fun ms => reread Style.indented (Value.ofMembers ms)) := by
  have hkeys : ((KeyRegistry.payload py now (entries.map Value.ofMembers)).map fun p =>
      (Key.str p.1, p.2)).map Prod.fst =
      [Key.str (lit "format_version"), Key.str (lit "updated_at"), Key.str (lit "keys")] := rfl
  obtain ⟨kws, hdict, -, hlookup⟩ := @lookup_reread Style.indented
    ((KeyRegistry.payload py now (entries.map Value.ofMembers)).map fun p => (Key.str p.1, p.2))
    (by rw [hkeys]; decide)
    (by
      simp only [KeyRegistry.payload, List.map_cons, List.map_nil, List.forall_mem_cons]
      refine ⟨⟨_, rfl, joinSurrogates_of_scalar (by decide)⟩,
        ⟨_, rfl, joinSurrogates_of_scalar (by decide)⟩,
        ⟨_, rfl, joinSurrogates_of_scalar (by decide)⟩, by simp⟩)
  simp only [KeyRegistry.payload, List.map_cons, List.map_nil, List.forall_mem_cons] at hlookup
  obtain ⟨hversion, -, hentries, -⟩ := hlookup
  change KeyRegistry.documentEntries (reread Style.indented (.dict _)) = _
  rw [hdict, KeyRegistry.documentEntries, hversion, hentries]
  simp only [reread, rereadItems_eq_map, List.map_map]
  have hread : Style.indented.readBack registryFormatVersion = registryFormatVersion := by decide
  rw [hread, if_pos rfl]
  rfl

theorem fileDocument_legible {now : Instant} {rs : List RegisteredKey}
    {entries : List (List (Str × Value))}
    (h : rs.mapM (RegisteredKey.toDict copyLimit py) = .ok entries) :
    Legible (fileDocument py now entries) := by
  have hlegible : ∀ ms ∈ entries, ∀ p ∈ ms, Legible p.2 :=
    KeyRegistry.forall_of_mapM
      (fun r ms hms => KeyRegistry.toDict_legible (RegisteredKey.toDict_eq_ok hms)) h
  apply KeyRegistry.legible_ofMembers
  simp only [KeyRegistry.payload, List.forall_mem_cons]
  refine ⟨trivial, trivial, ?_, by simp⟩
  rw [Legible, legibleItems_iff]
  intro x hx
  obtain ⟨ms, hms, rfl⟩ := List.mem_map.mp hx
  exact KeyRegistry.legible_ofMembers (hlegible ms hms)

/-- The text of a saved file is read as the document read back, up to its depth. -/
theorem read_saved {now : Instant} {rs : List RegisteredKey} {entries : List (List (Str × Value))}
    {text : Str} (hentries : rs.mapM (RegisteredKey.toDict copyLimit py) = .ok entries)
    (hdump : dump Style.indented 0 (fileDocument py now entries) = .ok text) :
    Utf8.decodeStrict (Utf8.encodeAll (text ++ [lf])) = some (text ++ [lf]) ∧
      universalNewlines (text ++ [lf]) = text ++ [lf] ∧
      (Utf8.encodeAll (text ++ [lf])).length =
        textLength Style.indented 0 (fileDocument py now entries) + 1 ∧
      ((fileDocument py now entries).nest ≤ py.jsonLimit →
        loads py.jsonLimit (text ++ [lf]) =
          .ok (reread Style.indented (fileDocument py now entries))) ∧
      ∀ data, loads py.jsonLimit (text ++ [lf]) = .ok data →
        data = reread Style.indented (fileDocument py now entries) ∧ data.nest ≤ py.jsonLimit := by
  obtain ⟨t, ht, hr, hprinted⟩ := readsAs_reread Style.printed_indented 0 _ _
    (fileDocument_legible hentries) hdump
  obtain rfl := Except.ok.inj (hdump.symm.trans ht)
  have hprinted' : ∀ c ∈ text ++ [lf], PrintableLine c := by
    intro c hc
    rcases List.mem_append.mp hc with hc | hc
    · exact hprinted c hc
    · exact .inr (List.mem_singleton.mp hc)
  have hws : ∀ c ∈ [lf], isWs c = true := by
    rw [List.forall_mem_singleton]
    decide
  refine ⟨Utf8.decodeStrict_encodeAll (printableLine_scalar hprinted'),
    universalNewlines_eq_self (printableLine_cr hprinted'), ?_, ?_, ?_⟩
  · have hbytes := byteLength_printableLine hprinted'
    rw [byteLength] at hbytes
    rw [hbytes, List.length_append, dump_length 0 _ text hdump]
    rfl
  · exact fun hnest => hr.loadsWith hnest hws
  · intro data hdata
    exact ⟨hr.eq_of_loadsWith hws hdata, nest_le_of_loads hdata⟩

/-- Records with distinct identities can be inserted one after another. -/
theorem foldlM_insert_of_nodup {records : List RegisteredKey} {t : KeyTable}
    (hid : ((t.keys ++ records).map fun r => r.keyId).Nodup)
    (hkey : ((t.keys ++ records).map fun r => r.publicKey).Nodup) :
    ∃ t', records.foldlM insert t = .ok t' ∧ t'.keys = t.keys ++ records := by
  induction records generalizing t with
  | nil => exact ⟨t, rfl, (List.append_nil _).symm⟩
  | cons r rest ih =>
      have hfresh : ∀ {α : Type} (f : RegisteredKey → α), ((t.keys ++ r :: rest).map f).Nodup →
          f r ∉ t.keys.map f := by
        intro α f hn hmem
        rw [List.map_append, List.map_cons] at hn
        exact List.disjoint_of_nodup_append hn hmem List.mem_cons_self
      cases hins : t.insert r with
      | error e =>
          rcases insert_eq_error hins with hmem | hmem
          · exact absurd hmem (hfresh _ hid)
          · exact absurd hmem (hfresh _ hkey)
      | ok next =>
          obtain ⟨-, -, hkeys⟩ := insert_eq_ok hins
          have hsplit : next.keys ++ rest = t.keys ++ r :: rest := by
            rw [hkeys, List.append_assoc]
            rfl
          obtain ⟨t', hfold, hkeys'⟩ := ih (hsplit ▸ hid) (hsplit ▸ hkey)
          refine ⟨t', ?_, hkeys'.trans hsplit⟩
          rw [List.foldlM_cons, hins]
          exact hfold

theorem keys_of_foldlM {records : List RegisteredKey} {t t' : KeyTable}
    (h : records.foldlM insert t = .ok t') : t'.keys = t.keys ++ records := by
  induction records generalizing t with
  | nil =>
      obtain rfl := Except.ok.inj h
      exact (List.append_nil _).symm
  | cons r rest ih =>
      rw [List.foldlM_cons] at h
      obtain ⟨next, hnext, h⟩ := bind_eq_ok.mp h
      obtain ⟨-, -, hkeys⟩ := insert_eq_ok hnext
      rw [ih h, hkeys, List.append_assoc]
      rfl

theorem forall₂_of_mapM {α β ε : Type} {f : α → Except ε β} {xs : List α} {ys : List β}
    (h : xs.mapM f = .ok ys) : List.Forall₂ (fun x y => f x = .ok y) xs ys := by
  induction xs generalizing ys with
  | nil =>
      obtain rfl := Except.ok.inj h
      exact .nil
  | cons x xs ih =>
      rw [List.mapM_cons] at h
      obtain ⟨y, hy, h⟩ := bind_eq_ok.mp h
      obtain ⟨zs, hzs, h⟩ := bind_eq_ok.mp h
      obtain rfl := Except.ok.inj h
      exact .cons hy (ih hzs)

theorem exists_mapM {α β ε : Type} {f : α → Except ε β} {xs : List α}
    (h : ∀ x ∈ xs, ∃ y, f x = .ok y) : ∃ ys, xs.mapM f = .ok ys := by
  induction xs with
  | nil => exact ⟨[], rfl⟩
  | cons x xs ih =>
      obtain ⟨⟨y, hy⟩, hxs⟩ := List.forall_mem_cons.mp h
      obtain ⟨ys, hys⟩ := ih hxs
      refine ⟨y :: ys, ?_⟩
      rw [List.mapM_cons]
      exact bind_eq_ok.mpr ⟨y, hy, bind_eq_ok.mpr ⟨ys, hys, rfl⟩⟩

/-- The records of the table and what was read are related one by one. -/
theorem rereadAs_all {rs records : List RegisteredKey} {entries : List (List (Str × Value))}
    {ds : List Document} (hspelled : ∀ r ∈ rs, r.Spelled py)
    (hentries : rs.mapM (RegisteredKey.toDict copyLimit py) = .ok entries)
    (hds : ds.map Document.value = entries.map fun ms => reread Style.indented (Value.ofMembers ms))
    (hrecords : ds.mapM (RegisteredKey.fromDict py) = .ok records) :
    List.Forall₂ RegisteredKey.RereadAs rs records := by
  have hwritten := forall₂_of_mapM hentries
  have hread := forall₂_of_mapM hrecords
  clear hentries hrecords
  induction hwritten generalizing ds records with
  | nil =>
      obtain rfl := List.map_eq_nil_iff.mp hds
      cases hread
      exact .nil
  | @cons r ms rs entries hr _ ih =>
      cases ds with
      | nil => cases hds
      | cons d ds =>
          obtain ⟨hd, hds⟩ := List.cons.inj hds
          obtain ⟨hone, hrest⟩ := List.forall_mem_cons.mp hspelled
          cases hread with
          | cons hs hread =>
              exact .cons (RegisteredKey.rereadAs_of_fromDict hr hd hone hs) (ih hrest hds hread)

theorem exists_of_map_eq_ok {α β ε : Type} {x : Except ε α} {f : α → β} {b : β}
    (h : x.map f = .ok b) : ∃ a, x = .ok a ∧ f a = b := by
  cases x with
  | error e => cases h
  | ok a => exact ⟨a, rfl, Except.ok.inj h⟩

/-- Records that are read back without pairs are the same records. -/
theorem sameKey_all {rs records : List RegisteredKey}
    (h : List.Forall₂ RegisteredKey.RereadAs rs records) (hpairs : ∀ r ∈ rs, r.NoPairs) :
    List.Forall₂ RegisteredKey.SameKey rs records := by
  induction h with
  | nil => exact .nil
  | cons hrs _ ih =>
      obtain ⟨hr, hrest⟩ := List.forall_mem_cons.mp hpairs
      exact .cons (hrs.same_iff.mpr hr) (ih hrest)

/-- The same records have the same identifiers and public keys. -/
theorem identities_of_sameKey {rs records : List RegisteredKey}
    (h : List.Forall₂ RegisteredKey.SameKey rs records) :
    records.map (fun r => r.keyId) = rs.map (fun r => r.keyId) ∧
      records.map (fun r => r.publicKey) = rs.map fun r => r.publicKey := by
  induction h with
  | nil => exact ⟨rfl, rfl⟩
  | @cons r s rs ss hrs _ ih =>
      have hid : s.keyId = r.keyId := (congrArg KeyRecord.keyId hrs.record).symm
      have hkey : s.publicKey = r.publicKey := (congrArg KeyRecord.publicKey hrs.record).symm
      constructor
      · rw [List.map_cons, List.map_cons, hid, ih.1]
      · rw [List.map_cons, List.map_cons, hkey, ih.2]

theorem mem_of_forall₂ {α β : Type} {R : α → β → Prop} {xs : List α} {ys : List β}
    (h : List.Forall₂ R xs ys) :
    (∀ x ∈ xs, ∃ y ∈ ys, R x y) ∧ ∀ y ∈ ys, ∃ x ∈ xs, R x y := by
  induction h with
  | nil => exact ⟨by simp, by simp⟩
  | cons hxy _ ih =>
      constructor
      · refine List.forall_mem_cons.mpr ⟨⟨_, List.mem_cons_self, hxy⟩, fun x hx => ?_⟩
        obtain ⟨y, hy, hR⟩ := ih.1 x hx
        exact ⟨y, List.mem_cons_of_mem _ hy, hR⟩
      · refine List.forall_mem_cons.mpr ⟨⟨_, List.mem_cons_self, hxy⟩, fun y hy => ?_⟩
        obtain ⟨x, hx, hR⟩ := ih.2 y hy
        exact ⟨x, List.mem_cons_of_mem _ hx, hR⟩

/-! ## The depth of the file -/

theorem nest_field_le {kws : List (Key × Value)} {name : Str} {v : Value}
    (h : kws.lookup (.str name) = some v) : v.nest + 1 ≤ (Value.dict kws).nest := by
  rw [Value.nest]
  exact Nat.succ_le_succ (Value.nest_le_of_mem_members (mem_of_lookup h))

theorem nest_of_documentEntries {v : Value} {ws : List Value}
    (h : KeyRegistry.documentEntries v = .ok ws) : ∀ w ∈ ws, w.nest + 2 ≤ v.nest := by
  intro w hw
  cases v with
  | dict data =>
      rw [KeyRegistry.documentEntries] at h
      split at h
      · next version entries _ hkeys =>
          split_ifs at h
          obtain rfl := Except.ok.inj h
          have houter := nest_field_le hkeys
          have hinner := Value.nest_le_of_mem hw
          rw [Value.nest] at houter
          omega
      · cases h
  | _ => cases h

/-- A record takes one level more than what is inside it. -/
theorem nest_toDict {r : RegisteredKey} {ms : List (Str × Value)}
    (h : r.toDict copyLimit py = .ok ms) : (Value.ofMembers ms).nest = r.copyDepth + 1 := by
  obtain ⟨publicKey, -, h⟩ := bind_eq_ok.mp (RegisteredKey.toDict_eq_ok h)
  obtain rfl := Except.ok.inj h
  cases r.expiresAt with
  | none =>
      simp only [Value.ofMembers, List.map_cons, List.map_nil, Value.nest, Value.nestMembers,
        RegisteredKey.copyDepth]
      omega
  | some t =>
      simp only [Value.ofMembers, List.map_cons, List.map_nil, Value.nest, Value.nestMembers,
        RegisteredKey.copyDepth]
      omega

/-- The file is as deep as its deepest record, and two levels more. -/
theorem nest_fileDocument_le_iff {now : Instant} {rs : List RegisteredKey}
    {entries : List (List (Str × Value))}
    (h : rs.mapM (RegisteredKey.toDict copyLimit py) = .ok entries) :
    (fileDocument py now entries).nest ≤ py.jsonLimit ↔
      ∀ r ∈ rs, r.copyDepth + 3 ≤ py.jsonLimit := by
  have hlimit := py.jsonLimit_le
  have hpairs := mem_of_forall₂ (forall₂_of_mapM h)
  have hnest : (fileDocument py now entries).nest =
      Value.nestItems (entries.map Value.ofMembers) + 2 := by
    simp only [fileDocument, KeyRegistry.payload, Value.ofMembers, List.map_cons, List.map_nil,
      Value.nest, Value.nestMembers]
    omega
  rw [hnest]
  constructor
  · intro hle r hr
    obtain ⟨ms, hms, htodict⟩ := hpairs.1 r hr
    have hitem := Value.nest_le_of_mem (List.mem_map_of_mem (f := Value.ofMembers) hms)
    rw [nest_toDict htodict] at hitem
    omega
  · intro hle
    have hitems : Value.nestItems (entries.map Value.ofMembers) ≤ py.jsonLimit - 2 := by
      rw [nestItems_le_iff]
      intro x hx
      obtain ⟨ms, hms, rfl⟩ := List.mem_map.mp hx
      obtain ⟨r, hr, htodict⟩ := hpairs.2 ms hms
      rw [nest_toDict htodict]
      have := hle r hr
      omega
    omega

/-! ## The round trip -/

/-- The same records, in any order. -/
def Restored (t t' : KeyTable) : Prop :=
  (∀ r ∈ t.keys, ∃ s ∈ t'.keys, r.SameKey s) ∧ ∀ s ∈ t'.keys, ∃ r ∈ t.keys, r.SameKey s

/-- The same answer of `check_usable` to every question. -/
def SameAnswers (py : Interp) (t t' : KeyTable) : Prop :=
  ∀ keyId nodeId at_ algorithm : Str,
    t'.registry.checkUsableNamed py keyId nodeId at_ algorithm =
      t.registry.checkUsableNamed py keyId nodeId at_ algorithm

/-- The length of the file that is written for the records. -/
def fileLength (py : Interp) (now : Instant) (t : KeyTable) : Nat :=
  textLength Style.indented 0 (fileDocument py now (t.sortedRecords.map fun r =>
    (r.toKeyRecord.toDict py r.toKeyNotes).toOption.getD [])) + 1

/-- The file is one that the reader takes, and reads without changing a text. -/
structure Lasting (py : Interp) (now : Instant) (t : KeyTable) : Prop where
  size : t.fileLength py now ≤ maxRegistryBytes
  depth : ∀ r ∈ t.keys, r.copyDepth + 3 ≤ py.jsonLimit
  pairs : ∀ r ∈ t.keys, r.NoPairs

/-- A record without pairs lies three levels inside the file that it is read from. -/
theorem copyDepth_of_entry {r s : RegisteredKey} {ms : List (Str × Value)} {v : Value}
    {ws : List Value} (hvalues : KeyRegistry.documentEntries v = .ok ws)
    (hmem : reread Style.indented (Value.ofMembers ms) ∈ ws)
    (htodict : r.toDict copyLimit py = .ok ms) (h : RegisteredKey.RereadAs r s)
    (hpairs : r.NoPairs) : r.copyDepth + 3 ≤ v.nest := by
  have hentry := nest_of_documentEntries hvalues _ hmem
  obtain ⟨kws, hdict, hlookup⟩ := RegisteredKey.entry_lookup htodict
  rw [hdict] at hentry
  obtain ⟨publicKey, -, hfields⟩ := bind_eq_ok.mp (RegisteredKey.toDict_eq_ok htodict)
  obtain rfl := Except.ok.inj hfields
  have hreason := nest_field_le (hlookup (lit "revocation_reason", r.revocationReason) (by simp))
  have hrevoked := nest_field_le (hlookup (lit "revoked_at", r.revokedAt) (by simp))
  have hmetadata := nest_field_le (hlookup (lit "metadata", .dict r.metadata) (by simp))
  dsimp only at hreason hrevoked hmetadata
  have hsame := h.same_iff.mpr hpairs
  have hreason' := nest_le_of_same _ _ hsame.reason
  have hrevoked' := nest_le_of_same _ _ hsame.revoked
  have hmetadata' := nest_le_of_same _ _ hsame.metadata
  rw [h.reason] at hreason'
  rw [h.revoked] at hrevoked'
  rw [h.metadata] at hmetadata'
  unfold RegisteredKey.copyDepth
  omega

theorem mem_sortedRecords {t : KeyTable} {r : RegisteredKey} : r ∈ t.sortedRecords ↔ r ∈ t.keys :=
  List.mem_insertionSort _

/-- The answers of a registry depend on its records only. -/
theorem checkUsableNamed_of_mem_iff {reg reg' : KeyRegistry}
    (h : ∀ r, r ∈ reg.records ↔ r ∈ reg'.records) (keyId nodeId at_ algorithm : Str) :
    reg.checkUsableNamed py keyId nodeId at_ algorithm =
      reg'.checkUsableNamed py keyId nodeId at_ algorithm := by
  have hget : reg.get keyId = reg'.get keyId := by
    apply Option.ext
    intro r
    rw [KeyRegistry.get_eq_some, KeyRegistry.get_eq_some, h r]
  have hall : (reg.records.all fun r => r.nodeId ≠ nodeId) =
      reg'.records.all fun r => r.nodeId ≠ nodeId := by
    rw [Bool.eq_iff_iff, List.all_eq_true, List.all_eq_true]
    exact forall_congr' fun r => by rw [h r]
  unfold KeyRegistry.checkUsableNamed
  rw [hget, hall]

theorem Restored.sameAnswers {t t' : KeyTable} (h : Restored t t') : SameAnswers py t t' := by
  intro keyId nodeId at_ algorithm
  apply checkUsableNamed_of_mem_iff
  intro record
  constructor
  · intro hrecord
    obtain ⟨s, hs, rfl⟩ := List.mem_map.mp hrecord
    obtain ⟨r, hr, hsame⟩ := h.2 s hs
    exact List.mem_map.mpr ⟨r, hr, hsame.record⟩
  · intro hrecord
    obtain ⟨r, hr, rfl⟩ := List.mem_map.mp hrecord
    obtain ⟨s, hs, hsame⟩ := h.1 r hr
    exact List.mem_map.mpr ⟨s, hs, hsame.record.symm⟩

theorem fields_of_mapM {rs : List RegisteredKey} {entries : List (List (Str × Value))}
    (h : rs.mapM (RegisteredKey.toDict copyLimit py) = .ok entries) :
    entries = rs.map fun r => (r.toKeyRecord.toDict py r.toKeyNotes).toOption.getD [] := by
  have hwritten := forall₂_of_mapM h
  clear h
  induction hwritten with
  | nil => rfl
  | @cons r ms rs entries hr _ ih =>
      rw [List.map_cons, ← ih, RegisteredKey.toDict_eq_ok hr]
      rfl

/-- A file that is loaded with the same records was one that the reader takes as it is. -/
theorem lasting_of_restored {now : Instant} {t t' : KeyTable} {content : Bytes}
    (hvalid : t.AllValid py) (hsave : t.save copyLimit py now = .ok content)
    (hload : load py (some content) = .ok t')
    (h : Restored t t') : Lasting py now t := by
  obtain ⟨entries, text, hentries, hdump, rfl⟩ := save_eq_ok hsave
  obtain ⟨hdecode, hnewlines, hlength, -, honly⟩ := read_saved hentries hdump
  obtain ⟨hsize, text', data, ds, records, htext', hread, hds, hrecords, hfold⟩ := load_eq_ok hload
  obtain rfl := Option.some.inj (hdecode.symm.trans htext')
  have hloads : loads py.jsonLimit (text ++ [lf]) = .ok data.value := by
    rw [← Document.read_value, ← hnewlines, hread]
    rfl
  obtain ⟨hvalue, hnest⟩ := honly data.value hloads
  have hvalues : KeyRegistry.documentEntries data.value = .ok (ds.map Document.value) := by
    rw [← entries_value, hds]
    rfl
  have hds' : ds.map Document.value =
      entries.map fun ms => reread Style.indented (Value.ofMembers ms) := by
    rw [hvalue, documentEntries_reread] at hvalues
    exact (Except.ok.inj hvalues).symm
  have hspelled : ∀ r ∈ t.sortedRecords, r.Spelled py := fun r hr =>
    (hvalid r (mem_sortedRecords.mp hr)).spelled
  have hreread := mem_of_forall₂ (rereadAs_all hspelled hentries hds' hrecords)
  have hkeys : t'.keys = records := keys_of_foldlM hfold
  have hids : (t.sortedRecords.map fun r => r.keyId).Nodup :=
    (((List.perm_insertionSort _ t.keys).map _).nodup_iff).mpr t.nodup
  -- every identifier is found again, so none of them has changed
  have hunpaired := unpaired_of_subset_join hids (by
    intro k hk
    obtain ⟨r, hr, rfl⟩ := List.mem_map.mp hk
    obtain ⟨s, hs, hsame⟩ := h.1 r (mem_sortedRecords.mp hr)
    obtain ⟨q, hq, hqs⟩ := hreread.2 s (hkeys ▸ hs)
    have hid : r.keyId = joinSurrogates q.keyId :=
      (congrArg KeyRecord.keyId hsame.record).trans (congrArg KeyRecord.keyId hqs.record)
    rw [hid]
    exact List.mem_map_of_mem (List.mem_map_of_mem (f := fun r : RegisteredKey => r.keyId) hq))
  have hsameKey : ∀ r ∈ t.keys, ∃ s ∈ records, RegisteredKey.RereadAs r s ∧ r.NoPairs := by
    intro r hr
    obtain ⟨s, hs, hsame⟩ := h.1 r hr
    obtain ⟨q, hq, hqs⟩ := hreread.2 s (hkeys ▸ hs)
    have hid : r.keyId = q.keyId := by
      have hjoined : r.keyId = joinSurrogates q.keyId :=
        (congrArg KeyRecord.keyId hsame.record).trans (congrArg KeyRecord.keyId hqs.record)
      exact hjoined.trans
        (hunpaired _ (List.mem_map_of_mem (f := fun r : RegisteredKey => r.keyId) hq))
    obtain rfl := List.inj_on_of_nodup_map t.nodup hr (mem_sortedRecords.mp hq) hid
    exact ⟨s, hkeys ▸ hs, hqs, hqs.same_iff.mp hsame⟩
  refine ⟨?_, ?_, ?_⟩
  · rw [fileLength, ← fields_of_mapM hentries, ← hlength]
    exact hsize
  · intro r hr
    obtain ⟨s, -, hrs, hpairs⟩ := hsameKey r hr
    obtain ⟨ms, hms, htodict⟩ := (mem_of_forall₂ (forall₂_of_mapM hentries)).1 r
      (mem_sortedRecords.mpr hr)
    have hmem : reread Style.indented (Value.ofMembers ms) ∈ ds.map Document.value := by
      rw [hds']
      exact List.mem_map_of_mem (f := fun ms => reread Style.indented (Value.ofMembers ms)) hms
    exact (copyDepth_of_entry hvalues hmem htodict hrs hpairs).trans hnest
  · intro r hr
    obtain ⟨s, -, -, hpairs⟩ := hsameKey r hr
    exact hpairs

/-- A file that the reader takes as it is gives the same records. -/
theorem restored_of_lasting {now : Instant} {t : KeyTable} {content : Bytes}
    (hvalid : t.AllValid py) (hsave : t.save copyLimit py now = .ok content)
    (h : Lasting py now t) : ∃ t', load py (some content) = .ok t' ∧ Restored t t' := by
  obtain ⟨entries, text, hentries, hdump, rfl⟩ := save_eq_ok hsave
  obtain ⟨hdecode, hnewlines, hlength, hloads, -⟩ := read_saved hentries hdump
  have hnest := (@nest_fileDocument_le_iff _ _ now _ _ hentries).mpr fun r hr =>
    h.depth r (mem_sortedRecords.mp hr)
  obtain ⟨data, hread, hvalue⟩ := exists_of_map_eq_ok
    ((Document.read_value py.jsonLimit (text ++ [lf])).trans (hloads hnest))
  have hvalues := entries_value data
  rw [hvalue, documentEntries_reread] at hvalues
  obtain ⟨ds, hds, hds'⟩ := exists_of_map_eq_ok hvalues
  have hrecords : ∃ records, ds.mapM (RegisteredKey.fromDict py) = .ok records := by
    apply exists_mapM
    intro d hd
    have hmem := hds' ▸ List.mem_map_of_mem (f := Document.value) hd
    obtain ⟨ms, hms, hmsd⟩ := List.mem_map.mp hmem
    obtain ⟨r, hr, htodict⟩ := (mem_of_forall₂ (forall₂_of_mapM hentries)).2 ms hms
    have hr' := mem_sortedRecords.mp hr
    exact RegisteredKey.exists_fromDict htodict hmsd.symm (hvalid r hr') (h.pairs r hr')
  obtain ⟨records, hrecords⟩ := hrecords
  have hspelled : ∀ r ∈ t.sortedRecords, r.Spelled py := fun r hr =>
    (hvalid r (mem_sortedRecords.mp hr)).spelled
  have hsame := sameKey_all (rereadAs_all hspelled hentries hds' hrecords) fun r hr =>
    h.pairs r (mem_sortedRecords.mp hr)
  have hidentities := identities_of_sameKey hsame
  have hperm := List.perm_insertionSort (fun a b : RegisteredKey =>
    a.nodeId ≤ b.nodeId ∧ (a.nodeId = b.nodeId → a.keyId ≤ b.keyId)) t.keys
  obtain ⟨t', hfold, hkeys⟩ := @foldlM_insert_of_nodup records empty
    (by
      change (records.map fun r => r.keyId).Nodup
      rw [hidentities.1]
      exact ((hperm.map _).nodup_iff).mpr t.nodup)
    (by
      change (records.map fun r => r.publicKey).Nodup
      rw [hidentities.2]
      exact ((hperm.map _).nodup_iff).mpr t.nodup_key)
  have hkeys' : t'.keys = records := hkeys
  refine ⟨t', ?_, ?_, ?_⟩
  · have hsize : ¬ maxRegistryBytes < (Utf8.encodeAll (text ++ [lf])).length := by
      rw [hlength, Nat.not_lt]
      have := h.size
      rw [fileLength, ← fields_of_mapM hentries] at this
      exact this
    rw [load, if_neg hsize, hdecode]
    dsimp only
    rw [hnewlines, hread]
    refine bind_eq_ok.mpr ⟨ds, hds, bind_eq_ok.mpr ⟨records, hrecords, hfold⟩⟩
  · intro r hr
    rw [hkeys']
    exact (mem_of_forall₂ hsame).1 r (mem_sortedRecords.mpr hr)
  · intro s hs
    rw [hkeys'] at hs
    obtain ⟨r, hr, hrs⟩ := (mem_of_forall₂ hsame).2 s hs
    exact ⟨r, mem_sortedRecords.mp hr, hrs⟩

/-- A registry that any operations have built is saved and loaded with the same records and the
same answers exactly if its file is within the limits of the reader and no text in it holds a
pair of surrogates. -/
theorem registry_restored_iff {ops : List Operation} {now : Instant} {content : Bytes}
    (hsave : (run copyLimit py empty ops).save copyLimit py now = .ok content) :
    (∃ t', load py (some content) = .ok t' ∧ Restored (run copyLimit py empty ops) t' ∧
      SameAnswers py (run copyLimit py empty ops) t') ↔
    Lasting py now (run copyLimit py empty ops) := by
  constructor
  · rintro ⟨t', hload, hrestored, -⟩
    exact lasting_of_restored (allValid_run allValid_empty ops) hsave hload hrestored
  · intro hlasting
    obtain ⟨t', hload, hrestored⟩ :=
      restored_of_lasting (allValid_run allValid_empty ops) hsave hlasting
    exact ⟨t', hload, hrestored, hrestored.sameAnswers⟩

theorem exists_ok {ε α : Type} {r : Except ε α} (h : r.toOption.isSome = true) :
    ∃ a, r = .ok a := by
  cases r with
  | error e => cases h
  | ok a => exact ⟨a, rfl⟩

theorem scanNumber_one : scanNumber (lit "1.0") = .ok (.float (lit "1.0"), []) := by rfl

theorem scanNumber_exponent : scanNumber (lit "1e0") = .ok (.float (lit "1e0"), []) := by rfl

/-- The reference interpreter, which writes the float `1e0` as `1.0`. -/
def spellingOne : Interp :=
  { Interp.reference with
    floatText := fun l => if l = lit "1e0" then lit "1.0" else l
    floatText_spelled := by
      intro l hl
      by_cases h : l = lit "1e0"
      · rw [if_pos h]
        exact ⟨floatText_of_scanNumber scanNumber_one, if_neg (by decide)⟩
      · rw [if_neg h]
        exact ⟨hl, if_neg h⟩ }

/-- Metadata with a float. -/
def weighted : RegisteredKey.Metadata where
  members := [(.str (lit "weight"), .float (lit "1e0"))]
  legible := ⟨floatText_of_scanNumber scanNumber_exponent, trivial⟩
  distinct := ⟨List.nodup_singleton _, trivial, trivial⟩

/-- A key, its successor with metadata, and the revocation of the first. -/
def succession : List Operation :=
  [.register .first (lit "a") (lit "n") [1] (lit "ML-DSA-65") none none .empty true,
   .rotate .first (lit "n") (lit "b") [2] (lit "ML-DSA-65") none none weighted,
   .revoke .first (lit "a") (lit "stolen")]

set_option maxRecDepth 100000 in
/-- A revoked key and its successor come back from the file. -/
theorem succession_restored : ∃ content t',
    (run 1000 spellingOne empty succession).save 1000 spellingOne .first = .ok content ∧
    load spellingOne (some content) = .ok t' ∧
      Restored (run 1000 spellingOne empty succession) t' ∧
      SameAnswers spellingOne (run 1000 spellingOne empty succession) t' := by
  have hok : ((run 1000 spellingOne empty succession).save 1000 spellingOne
      .first).toOption.isSome = true := by
    decide +kernel
  obtain ⟨content, hsave⟩ := exists_ok hok
  obtain ⟨t', h⟩ := (registry_restored_iff hsave).mpr
    ⟨by decide +kernel, by decide +kernel, by decide +kernel⟩
  exact ⟨content, t', hsave, h⟩

/-- A high and a low surrogate. -/
def surrogates : Str := [ofCode 0xD800, ofCode 0xDC00]

/-- The registration of one key under an identifier. -/
def oneRegistration (keyId : Str) : List Operation :=
  [.register .first keyId (lit "n") [1] (lit "ML-DSA-65") none none .empty true]

set_option maxRecDepth 100000 in
/-- A key whose identifier is a pair of surrogates does not come back. -/
theorem pair_not_restored : ¬ ∀ (ops : List Operation) (now : Instant) (content : Bytes),
    (run 1000 .reference empty ops).save 1000 .reference now = .ok content →
    ∃ t', load .reference (some content) = .ok t' ∧ Restored (run 1000 .reference empty ops) t' ∧
      SameAnswers .reference (run 1000 .reference empty ops) t' := by
  intro h
  have hok : ((run 1000 .reference empty (oneRegistration surrogates)).save 1000 .reference
      .first).toOption.isSome = true := by
    decide +kernel
  obtain ⟨content, hsave⟩ := exists_ok hok
  obtain ⟨t', hload, hrestored, -⟩ := h _ _ content hsave
  have hpairs :=
    (lasting_of_restored (allValid_run allValid_empty _) hsave hload hrestored).pairs
  revert hpairs
  decide +kernel

end KeyTable

end IcsDeception
