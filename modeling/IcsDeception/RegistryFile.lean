import IcsDeception.Rotation
import IcsDeception.Lib.Json.Written

/-!
# The file of a registry

`save` writes every record with what the registry keeps of it besides, and `load` reads the
file back. A key comes back in its state, under its identifier: the reader joins a pair of
surrogates, so an identifier that holds one comes back as another.

## Implementation notes

What only the export repeats is no part of a record here. A save takes it as the notes of
each key, and the results hold for any notes. The temporary file, its permissions and its
renaming are left out: a save leaves the whole text under the name, or it raises.
-/

namespace IcsDeception

open Text Json Calendar

/-- What a registry keeps of a key besides its record. -/
structure KeyNotes where
  createdAt : Str
  revocationReason : Value
  revokedAt : Value
  metadata : List (Key × Value)
  legible_reason : Legible revocationReason
  legible_time : Legible revokedAt
  legible_metadata : LegibleMembers metadata

/-- `fingerprint`. -/
def fingerprint (py : Interp) (publicKey : Bytes) : Str :=
  joined (lit ":") (((py.sha3_256 publicKey).take 16).toChunks 2)

/-- `KeyRecord.to_dict`. -/
def KeyRecord.toDict (py : Interp) (notes : KeyNotes) (r : KeyRecord) :
    Except Exn (List (Str × Value)) := do
  let publicKey ← r.publicKeyBytes py
  return [(lit "key_id", .str r.keyId),
    (lit "node_id", .str r.nodeId),
    (lit "algorithm", .str r.algorithm.text),
    (lit "public_key", .str r.publicKey),
    (lit "created_at", .str notes.createdAt),
    (lit "activated_at", .str r.activatedAt),
    (lit "expires_at", match r.expiresAt with
      | none => .null
      | some t => .str t),
    (lit "state", .str r.state.text),
    (lit "revocation_reason", notes.revocationReason),
    (lit "revoked_at", notes.revokedAt),
    (lit "metadata", .dict notes.metadata),
    (lit "fingerprint", .str (fingerprint py publicKey)),
    (lit "public_key_sha3_256", .str (py.sha3_256 publicKey))]

namespace KeyRegistry

variable {py : Interp}

/-- `KeyRegistry.sorted_records`. -/
def sortedRecords (reg : KeyRegistry) : List KeyRecord :=
  reg.records.insertionSort fun a b =>
    a.nodeId ≤ b.nodeId ∧ (a.nodeId = b.nodeId → a.keyId ≤ b.keyId)

/-- The fields of the file. -/
def payload (py : Interp) (now : Instant) (entries : List Value) : List (Str × Value) :=
  [(lit "format_version", .str registryFormatVersion),
   (lit "updated_at", .str (now.text py.padYears ++ [cp 'Z'])),
   (lit "keys", .list entries)]

/-- `KeyRegistry.save`: the content that it leaves in the file. -/
def save (py : Interp) (now : Instant) (notes : Str → KeyNotes) (reg : KeyRegistry) :
    Except Exn Bytes := do
  let entries ← reg.sortedRecords.mapM fun r => r.toDict py (notes r.keyId)
  let document := Value.ofMembers (payload py now (entries.map Value.ofMembers))
  if py.dumpLimit < document.nest then .error .recursion
  else
    match dump Style.indented 0 document with
    | .ok text => .ok (Utf8.encodeAll (text ++ [lf]))
    | .error .tooManyDigits => .error .valueError
    | .error .unsupported => .error .typeError

/-! ## The fields of a record -/

/-- The names of the fields of a record. -/
def recordFields : List Str :=
  [lit "key_id", lit "node_id", lit "algorithm", lit "public_key", lit "created_at",
   lit "activated_at", lit "expires_at", lit "state", lit "revocation_reason", lit "revoked_at",
   lit "metadata", lit "fingerprint", lit "public_key_sha3_256"]

theorem recordFields_nodup : recordFields.Nodup := by decide

set_option maxRecDepth 4000 in
theorem recordFields_scalar : ∀ f ∈ recordFields, Scalar f := by decide

theorem toDict_names {notes : KeyNotes} {r : KeyRecord} {ms : List (Str × Value)}
    (h : r.toDict py notes = .ok ms) : ms.map Prod.fst = recordFields := by
  obtain ⟨publicKey, -, h⟩ := bind_eq_ok.mp h
  obtain rfl := Except.ok.inj h
  rfl

theorem toDict_legible {notes : KeyNotes} {r : KeyRecord} {ms : List (Str × Value)}
    (h : r.toDict py notes = .ok ms) : ∀ p ∈ ms, Legible p.2 := by
  obtain ⟨publicKey, -, h⟩ := bind_eq_ok.mp h
  obtain rfl := Except.ok.inj h
  have hexpiry : Legible (match r.expiresAt with
      | none => .null
      | some t => .str t) := by
    cases r.expiresAt <;> trivial
  simp only [List.forall_mem_cons]
  exact ⟨trivial, trivial, trivial, trivial, trivial, trivial, hexpiry, trivial,
    notes.legible_reason, notes.legible_time, notes.legible_metadata, trivial, trivial, by simp⟩

theorem toDict_fields {notes : KeyNotes} {r : KeyRecord} {ms : List (Str × Value)}
    (h : r.toDict py notes = .ok ms) :
    (lit "key_id", .str r.keyId) ∈ ms ∧ (lit "state", .str r.state.text) ∈ ms := by
  obtain ⟨publicKey, -, h⟩ := bind_eq_ok.mp h
  obtain rfl := Except.ok.inj h
  simp

/-- A record that is read has the identifier and the state of its entry. -/
theorem fromDict_fields {kvs : List (Key × Value)} {r : KeyRecord}
    (h : KeyRecord.fromDict py (.dict kvs) = .ok r) {k : Str}
    (hk : kvs.lookup (.str (lit "key_id")) = some (.str k)) {state : KeyState}
    (hs : kvs.lookup (.str (lit "state")) = some (.str state.text)) :
    r.keyId = k ∧ r.state = state := by
  rw [KeyRecord.fromDict] at h
  obtain ⟨-, -, h⟩ := bind_eq_ok.mp h
  obtain ⟨keyId', hkey, h⟩ := bind_eq_ok.mp h
  obtain ⟨nodeId', -, h⟩ := bind_eq_ok.mp h
  obtain ⟨algorithm', -, h⟩ := bind_eq_ok.mp h
  obtain ⟨state', hstate, h⟩ := bind_eq_ok.mp h
  obtain ⟨-, -, h⟩ := bind_eq_ok.mp h
  obtain ⟨publicKey', -, h⟩ := bind_eq_ok.mp h
  obtain ⟨-, -, h⟩ := bind_eq_ok.mp h
  obtain ⟨activatedAt', -, h⟩ := bind_eq_ok.mp h
  obtain ⟨expiresAt', -, h⟩ := bind_eq_ok.mp h
  obtain rfl := Except.ok.inj h
  rw [Models.field, hk] at hkey
  obtain ⟨-, -, hkey⟩ := bind_eq_ok.mp hkey
  rw [hs, readState_text] at hstate
  exact ⟨(Except.ok.inj hkey).symm, (Except.ok.inj hstate).symm⟩

/-! ## Reading the file back -/

/-- What a successful save has written. -/
theorem save_eq_ok {now : Instant} {notes : Str → KeyNotes} {reg : KeyRegistry} {content : Bytes}
    (h : reg.save py now notes = .ok content) : ∃ entries text,
      reg.sortedRecords.mapM (fun r => r.toDict py (notes r.keyId)) = .ok entries ∧
      dump Style.indented 0 (Value.ofMembers (payload py now (entries.map Value.ofMembers))) =
        .ok text ∧ content = Utf8.encodeAll (text ++ [lf]) := by
  obtain ⟨entries, hentries, h⟩ := bind_eq_ok.mp h
  dsimp only at h
  split_ifs at h
  split at h
  · next text htext => exact ⟨entries, text, hentries, htext, (Except.ok.inj h).symm⟩
  · cases h
  · cases h

/-- A registry that is loaded from a text holds the records of its entries, in order. -/
theorem load_text {text : Str} {loaded : KeyRegistry}
    (hprinted : ∀ c ∈ text, PrintableLine c)
    (h : load py (some (Utf8.encodeAll text)) = .ok loaded) : ∃ data entries records,
      loads py.jsonLimit text = .ok data ∧ documentEntries data = .ok entries ∧
        entries.mapM (KeyRecord.fromDict py) = .ok records ∧
        records.foldlM insert empty = .ok loaded := by
  rw [load] at h
  split_ifs at h
  rw [Utf8.decodeStrict_encodeAll (printableLine_scalar hprinted)] at h
  dsimp only at h
  rw [universalNewlines_eq_self (printableLine_cr hprinted)] at h
  cases hdata : loads py.jsonLimit text with
  | error e =>
      rw [hdata] at h
      cases e <;> cases h
  | ok data =>
      rw [hdata] at h
      obtain ⟨entries, hentries, h⟩ := bind_eq_ok.mp h
      obtain ⟨records, hrecords, h⟩ := bind_eq_ok.mp h
      exact ⟨data, entries, records, rfl, hentries, hrecords, h⟩

theorem mem_of_foldlM_insert {records : List KeyRecord} {reg reg' : KeyRegistry}
    (h : records.foldlM insert reg = .ok reg') :
    (∀ r ∈ reg.records, r ∈ reg'.records) ∧ ∀ r ∈ records, r ∈ reg'.records := by
  induction records generalizing reg with
  | nil =>
      obtain rfl := Except.ok.inj h
      exact ⟨fun r hr => hr, by simp⟩
  | cons r rest ih =>
      rw [List.foldlM_cons] at h
      obtain ⟨next, hnext, h⟩ := bind_eq_ok.mp h
      obtain ⟨-, -, hrecords⟩ := insert_eq_ok hnext
      obtain ⟨hold, hrest⟩ := ih h
      rw [hrecords] at hold
      refine ⟨fun s hs => hold s (List.mem_append_left _ hs), ?_⟩
      exact List.forall_mem_cons.mpr ⟨hold r (by simp), hrest⟩

theorem mem_of_mapM {α β ε : Type} {f : α → Except ε β} {xs : List α} {ys : List β}
    (h : xs.mapM f = .ok ys) {x : α} (hx : x ∈ xs) : ∃ y ∈ ys, f x = .ok y := by
  induction xs generalizing ys with
  | nil => cases hx
  | cons a rest ih =>
      rw [List.mapM_cons] at h
      obtain ⟨y, hy, h⟩ := bind_eq_ok.mp h
      obtain ⟨zs, hzs, h⟩ := bind_eq_ok.mp h
      obtain rfl := Except.ok.inj h
      rcases List.mem_cons.mp hx with rfl | hx
      · exact ⟨y, List.mem_cons_self, hy⟩
      · obtain ⟨z, hz, hfz⟩ := ih hzs hx
        exact ⟨z, List.mem_cons_of_mem _ hz, hfz⟩

theorem payload_names (now : Instant) (entries : List Value) :
    (payload py now entries).map Prod.fst = [lit "format_version", lit "updated_at", lit "keys"] :=
  rfl

theorem legibleItems_iff {xs : List Value} : LegibleItems xs ↔ ∀ x ∈ xs, Legible x := by
  induction xs with
  | nil => simp [LegibleItems]
  | cons x xs ih => simp [LegibleItems, ih]

theorem legible_ofMembers {ms : List (Str × Value)} (h : ∀ p ∈ ms, Legible p.2) :
    Legible (Value.ofMembers ms) := by
  rw [Value.ofMembers, Legible]
  induction ms with
  | nil => trivial
  | cons p rest ih =>
      obtain ⟨hp, hrest⟩ := List.forall_mem_cons.mp h
      exact ⟨hp, ih hrest⟩

/-- The entries of a document that was read from a payload are what its entries are read as. -/
theorem documentEntries_payload {now : Instant} {xs ws : List Value} {w : Value}
    (hl : LegibleItems xs) (hread : ReadsAs Style.indented 0 (Value.ofMembers (payload py now xs)) w)
    (h : documentEntries w = .ok ws) : List.Forall₂ (ReadsAs Style.indented 2) xs ws := by
  have hfields : ∀ p ∈ payload py now xs, Legible p.2 := by
    simp only [payload, List.forall_mem_cons]
    exact ⟨trivial, trivial, hl, by simp⟩
  have hscalar : ∀ f ∈ (payload py now xs).map Prod.fst, Scalar f := by
    rw [payload_names]
    decide
  obtain ⟨kvs, rfl, hlookup⟩ := hread.fields Style.printed_indented
    (by rw [payload_names]; decide) (fun p hp => hscalar _ (List.mem_map_of_mem hp)) hfields
  obtain ⟨x, hx, hkeys⟩ := hlookup (lit "keys", .list xs) (by simp [payload])
  obtain ⟨ws', rfl, hws⟩ := hkeys.list Style.printed_indented hl
  rw [documentEntries, hx] at h
  split at h
  · next version entries _ heq =>
      split_ifs at h
      obtain rfl := Except.ok.inj h
      obtain rfl := Value.list.inj (Option.some.inj heq)
      exact hws
  · cases h

theorem exists_of_forall₂ {α β : Type} {R : α → β → Prop} {xs : List α} {ys : List β}
    (h : List.Forall₂ R xs ys) {x : α} (hx : x ∈ xs) : ∃ y ∈ ys, R x y := by
  induction h with
  | nil => cases hx
  | cons hxy _ ih =>
      rcases List.mem_cons.mp hx with rfl | hx
      · exact ⟨_, List.mem_cons_self, hxy⟩
      · obtain ⟨y, hy, hR⟩ := ih hx
        exact ⟨y, List.mem_cons_of_mem _ hy, hR⟩

/-- A registry that is saved and loaded holds a key of the identifier as it is read back, in
the state of before. -/
theorem get_load_save {now : Instant} {notes : Str → KeyNotes} {reg loaded : KeyRegistry}
    {content : Bytes} (hsave : reg.save py now notes = .ok content)
    (hload : load py (some content) = .ok loaded) {keyId : Str} {r : KeyRecord}
    (hget : reg.get keyId = some r) :
    ∃ s, loaded.get (joinSurrogates keyId) = some s ∧ s.state = r.state := by
  obtain ⟨entries, text, hentries, hdump, rfl⟩ := save_eq_ok hsave
  have hlegible : ∀ ms ∈ entries, ∀ p ∈ ms, Legible p.2 :=
    forall_of_mapM (fun r ms hms => toDict_legible hms) hentries
  have hitems : LegibleItems (entries.map Value.ofMembers) := by
    rw [legibleItems_iff]
    intro x hx
    obtain ⟨ms, hms, rfl⟩ := List.mem_map.mp hx
    exact legible_ofMembers (hlegible ms hms)
  have hdocument : Legible (Value.ofMembers (payload py now (entries.map Value.ofMembers))) := by
    apply legible_ofMembers
    simp only [payload, List.forall_mem_cons]
    exact ⟨trivial, trivial, hitems, by simp⟩
  obtain ⟨w, hw⟩ := exists_readsAs Style.printed_indented 0 _ _ hdocument hdump
  obtain ⟨t, ht, hr, hprinted⟩ := id hw
  obtain rfl := Except.ok.inj (hdump.symm.trans ht)
  have hprinted' : ∀ c ∈ text ++ [lf], PrintableLine c := by
    intro c hc
    rcases List.mem_append.mp hc with hc | hc
    · exact hprinted c hc
    · exact .inr (List.mem_singleton.mp hc)
  obtain ⟨data, found, records, hdata, hfound, hrecords, hfold⟩ := load_text hprinted' hload
  obtain rfl := hr.eq_of_loadsWith (by simp [isWs]; decide) hdata
  have hitemsread := documentEntries_payload hitems hw hfound
  obtain ⟨hmem, hid⟩ := get_eq_some.mp hget
  have hsorted : r ∈ reg.sortedRecords := List.mem_insertionSort _ |>.mpr hmem
  obtain ⟨ms, hms, htodict⟩ := mem_of_mapM hentries hsorted
  obtain ⟨entry, hentry, hread⟩ := exists_of_forall₂ hitemsread (List.mem_map_of_mem hms)
  have hnames := toDict_names htodict
  obtain ⟨kvs, rfl, hlookup⟩ := hread.fields Style.printed_indented
    (hnames ▸ recordFields_nodup)
    (fun p hp => recordFields_scalar _ (hnames ▸ List.mem_map_of_mem hp)) (hlegible ms hms)
  obtain ⟨s, hs, hfrom⟩ := mem_of_mapM hrecords hentry
  obtain ⟨hkeyField, hstateField⟩ := toDict_fields htodict
  obtain ⟨x, hx, hxread⟩ := hlookup _ hkeyField
  obtain rfl := hxread.unique (readsAs_str Style.printed_indented _ _)
  obtain ⟨y, hy, hyread⟩ := hlookup _ hstateField
  obtain rfl := hyread.unique (readsAs_str Style.printed_indented _ _)
  have hstate : Style.indented.readBack r.state.text = r.state.text := by
    cases r.state <;> decide
  rw [hstate] at hy
  obtain ⟨hsid, hsstate⟩ := fromDict_fields hfrom hx hy
  refine ⟨s, get_eq_some.mpr ⟨(mem_of_foldlM_insert hfold).2 s hs, ?_⟩, hsstate⟩
  rw [hsid, hid]
  rfl

end KeyRegistry

end IcsDeception
