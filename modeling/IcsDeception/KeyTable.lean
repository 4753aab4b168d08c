import IcsDeception.RegistryFile
import IcsDeception.Lib.Json.Reading
import IcsDeception.Lib.Json.Respelled

/-!
# The registry with all fields of its records

What a record holds besides the fields that decide whether a key is trusted: when it was
created, why and when it was revoked, and its metadata. Every operation of the registry is
stated here over whole records, and leaves the registry of the other modules behind when
these fields are dropped.

## Implementation notes

A document is a value of the interpreter: no dictionary in it repeats a key, and a float is
given by a literal. A record holds its floats as the interpreter spells them, so that equal
floats of records are equal spellings and a saved file has the floats it is written with. How
deep `asdict` copies before it raises `RecursionError` is a parameter, as the limits of the
reader and of the writer are.
-/

namespace IcsDeception

open Text Json Calendar

/-- A value that the interpreter holds. -/
structure Document where
  value : Value
  legible : Legible value
  distinct : value.Distinct

namespace Document

/-- The value of a name in a dictionary, or `None`. -/
def fieldOf (v : Value) (name : String) : Value :=
  match v with
  | .dict data => Models.field data name
  | _ => .null

theorem field_cases (data : List (Key × Value)) (name : String) :
    Models.field data name = .null ∨ ∃ k, (k, Models.field data name) ∈ data := by
  unfold Models.field
  cases h : data.lookup (.str (lit name)) with
  | none => exact .inl rfl
  | some v => exact .inr ⟨_, mem_of_lookup h⟩

theorem legible_fieldOf {v : Value} (h : Legible v) (name : String) : Legible (fieldOf v name) := by
  cases v with
  | dict data =>
      rcases field_cases data name with hnull | ⟨k, hmem⟩
      · rw [fieldOf, hnull]
        trivial
      · exact legibleMembers_iff.mp h _ hmem
  | _ => trivial

theorem distinct_fieldOf {v : Value} (h : v.Distinct) (name : String) :
    (fieldOf v name).Distinct := by
  cases v with
  | dict data =>
      rcases field_cases data name with hnull | ⟨k, hmem⟩
      · rw [fieldOf, hnull]
        trivial
      · exact Value.distinctMembers_iff.mp h.2 _ hmem
  | _ => trivial

/-- The same value, with every float spelled as the interpreter writes it. -/
def spelled (py : Interp) (d : Document) : Document where
  value := respelled py.floatText d.value
  legible := legible_respelled (fun l hl => (py.floatText_spelled l hl).1) d.value d.legible
  distinct := distinct_respelled py.floatText d.value d.distinct

/-- `data.get(name)`. -/
def field (d : Document) (name : String) : Document :=
  ⟨fieldOf d.value name, legible_fieldOf d.legible name, distinct_fieldOf d.distinct name⟩

/-- The members of a dictionary; no members of any other value. -/
def membersOf : Value → List (Key × Value)
  | .dict data => data
  | _ => []

theorem legible_membersOf {v : Value} (h : Legible v) : LegibleMembers (membersOf v) := by
  cases v with
  | dict data => exact h
  | _ => trivial

theorem distinct_membersOf {v : Value} (h : v.Distinct) : (Value.dict (membersOf v)).Distinct := by
  cases v with
  | dict data => exact h
  | _ => exact ⟨List.nodup_nil, trivial⟩

/-- The text of a value that is one. -/
def textOf : Value → Str
  | .str s => s
  | _ => []

end Document

/-- `KeyRecord`, with every field. -/
structure RegisteredKey extends KeyRecord, KeyNotes where
  distinct_reason : revocationReason.Distinct
  distinct_time : revokedAt.Distinct
  distinct_metadata : (Value.dict metadata).Distinct

namespace RegisteredKey

variable (copyLimit : Nat) (py : Interp)

/-- `KeyRecord.from_dict`. -/
def fromDict (d : Document) : Except Exn RegisteredKey := do
  let record ← KeyRecord.fromDict py d.value
  return {
    toKeyRecord := record
    createdAt := Document.textOf (d.field "created_at").value
    revocationReason := ((d.field "revocation_reason").spelled py).value
    revokedAt := ((d.field "revoked_at").spelled py).value
    metadata := Document.membersOf ((d.field "metadata").spelled py).value
    legible_reason := ((d.field "revocation_reason").spelled py).legible
    legible_time := ((d.field "revoked_at").spelled py).legible
    legible_metadata := Document.legible_membersOf ((d.field "metadata").spelled py).legible
    distinct_reason := ((d.field "revocation_reason").spelled py).distinct
    distinct_time := ((d.field "revoked_at").spelled py).distinct
    distinct_metadata := Document.distinct_membersOf ((d.field "metadata").spelled py).distinct }

/-- How deep `asdict` goes into a record. -/
def copyDepth (r : RegisteredKey) : Nat :=
  max (Value.dict r.metadata).nest (max r.revocationReason.nest r.revokedAt.nest)

/-- `KeyRecord.to_dict`. -/
def toDict (r : RegisteredKey) : Except Exn (List (Str × Value)) :=
  if copyLimit < r.copyDepth then .error .recursion
  else r.toKeyRecord.toDict py r.toKeyNotes

/-- The metadata of a new record: a dictionary of the caller. -/
structure Metadata where
  members : List (Key × Value)
  legible : LegibleMembers members
  distinct : (Value.dict members).Distinct

/-- `{}`. -/
def Metadata.empty : Metadata := ⟨[], trivial, List.nodup_nil, trivial⟩

/-- The fields of a new record, as `to_dict` gives them to `from_dict`. -/
def newFields (keyId nodeId algorithm publicKey now activatedAt : Str) (expiresAt : Option Str)
    (metadata : List (Key × Value)) (makeActive : Bool) : List (Str × Value) :=
  [(lit "key_id", .str keyId), (lit "node_id", .str nodeId), (lit "algorithm", .str algorithm),
   (lit "public_key", .str publicKey), (lit "created_at", .str now),
   (lit "activated_at", .str activatedAt),
   (lit "expires_at", match expiresAt with
     | none => .null
     | some t => .str t),
   (lit "state", .str (if makeActive then KeyState.active else .disabled).text),
   (lit "revocation_reason", .null), (lit "revoked_at", .null), (lit "metadata", .dict metadata)]

/-- The record of these fields. -/
def newDocument (keyId nodeId algorithm publicKey now activatedAt : Str) (expiresAt : Option Str)
    (metadata : Metadata) (makeActive : Bool) : Document where
  value := Value.ofMembers
    (newFields keyId nodeId algorithm publicKey now activatedAt expiresAt metadata.members makeActive)
  legible := by
    apply KeyRegistry.legible_ofMembers
    simp only [newFields, List.forall_mem_cons]
    refine ⟨trivial, trivial, trivial, trivial, trivial, trivial, ?_, trivial, trivial, trivial,
      metadata.legible, by simp⟩
    cases expiresAt <;> trivial
  distinct := by
    apply Value.distinct_ofMembers
    · rw [show (newFields keyId nodeId algorithm publicKey now activatedAt expiresAt
        metadata.members makeActive).map Prod.fst = KeyRegistry.recordFields.take 11 from rfl]
      decide
    · simp only [newFields, List.forall_mem_cons]
      refine ⟨trivial, trivial, trivial, trivial, trivial, trivial, ?_, trivial, trivial, trivial,
        metadata.distinct, by simp⟩
      cases expiresAt <;> trivial

/-- The record that `register` makes, before the registry changes. -/
def newRecord (now : Instant) (keyId nodeId : Str) (publicKey : Bytes) (algorithm : Str)
    (activatedAt expiresAt : Option Str) (metadata : Metadata) (makeActive : Bool) :
    Except Exn RegisteredKey := do
  KeyRecord.need (SignatureAlgorithm.ofText? algorithm).isSome
  KeyRecord.need (publicKey ≠ [])
  let nowText := now.text py.padYears ++ [cp 'Z']
  let activated ← KeyRegistry.normalizedOr py (some nowText) activatedAt
  let expires ← KeyRegistry.normalizedOr py none expiresAt
  -- `asdict` copies the metadata of the caller
  if copyLimit < (Value.dict metadata.members).nest then .error .recursion
  else
    fromDict py (newDocument keyId nodeId algorithm (Base64.encode publicKey) nowText
      (activated.getD nowText) expires metadata makeActive)

end RegisteredKey

/-- `KeyRegistry`, with every field of its records. -/
structure KeyTable where
  keys : List RegisteredKey
  nodup : (keys.map fun r => r.keyId).Nodup
  nodup_key : (keys.map fun r => r.publicKey).Nodup

namespace KeyTable

variable (copyLimit : Nat) (py : Interp)

/-- `KeyRegistry()`. -/
def empty : KeyTable := ⟨[], List.nodup_nil, List.nodup_nil⟩

/-- The registry of the fields that decide about trust. -/
def registry (t : KeyTable) : KeyRegistry :=
  ⟨t.keys.map RegisteredKey.toKeyRecord, by
    rw [List.map_map]
    exact t.nodup⟩

/-- `KeyRegistry.get`. -/
def get (t : KeyTable) (keyId : Str) : Option RegisteredKey :=
  t.keys.find? fun r => r.keyId = keyId

/-- `KeyRegistry.for_node`. -/
def forNode (t : KeyTable) (nodeId : Str) : List RegisteredKey :=
  (t.keys.filter fun r => r.nodeId = nodeId).insertionSort fun a b => b.activatedAt ≤ a.activatedAt

/-- `KeyRegistry.active_key`. -/
def activeKey (t : KeyTable) (nodeId : Str) : Option RegisteredKey :=
  (t.forNode nodeId).find? fun r => r.state = .active

theorem nodup_concat {α β : Type} {f : α → β} {xs : List α} {x : α} (h : (xs.map f).Nodup)
    (hx : f x ∉ xs.map f) : ((xs ++ [x]).map f).Nodup := by
  rw [List.map_append, List.map_singleton]
  exact h.append (List.nodup_singleton _) (List.disjoint_singleton.mpr hx)

/-- `KeyRegistry._insert`. -/
def insert (t : KeyTable) (r : RegisteredKey) : Except Exn KeyTable :=
  if hid : r.keyId ∈ t.keys.map fun r => r.keyId then .error .keyRegistry
  else if hkey : r.publicKey ∈ t.keys.map fun r => r.publicKey then .error .keyRegistry
  else .ok ⟨t.keys ++ [r], nodup_concat t.nodup hid, nodup_concat t.nodup_key hkey⟩

/-- The table without the key of an identifier. -/
def without (t : KeyTable) (keyId : Str) : KeyTable :=
  ⟨t.keys.filter fun r => r.keyId ≠ keyId, t.nodup.sublist (List.filter_sublist.map _),
    t.nodup_key.sublist (List.filter_sublist.map _)⟩

/-- An assignment to fields of the record of an identifier, other than its two identities. -/
def modify (t : KeyTable) (keyId : Str) (f : RegisteredKey → RegisteredKey)
    (hid : ∀ r, (f r).keyId = r.keyId) (hkey : ∀ r, (f r).publicKey = r.publicKey) : KeyTable where
  keys := t.keys.map fun r => if r.keyId = keyId then f r else r
  nodup := by
    rw [List.map_map]
    convert t.nodup using 2
    funext r
    simp only [Function.comp_apply]
    split_ifs
    · exact hid r
    · rfl
  nodup_key := by
    rw [List.map_map]
    convert t.nodup_key using 2
    funext r
    simp only [Function.comp_apply]
    split_ifs
    · exact hkey r
    · rfl

/-- `record.state = state`. -/
def setState (t : KeyTable) (keyId : Str) (state : KeyState) : KeyTable :=
  t.modify keyId (fun r => { r with state }) (fun _ => rfl) fun _ => rfl

/-- The table in which `register` inserts the new record. -/
def demoted (t : KeyTable) (nodeId : Str) (makeActive : Bool) : KeyTable :=
  if makeActive then
    match t.activeKey nodeId with
    | none => t
    | some previous => t.setState previous.keyId .rotated
  else t

/-- `KeyRegistry.register`. -/
def register (now : Instant) (keyId nodeId : Str) (publicKey : Bytes) (algorithm : Str)
    (activatedAt expiresAt : Option Str) (metadata : RegisteredKey.Metadata) (makeActive : Bool)
    (t : KeyTable) : Except Exn RegisteredKey × KeyTable :=
  match RegisteredKey.newRecord copyLimit py now keyId nodeId publicKey algorithm activatedAt
      expiresAt metadata makeActive with
  | .error e => (.error e, t)
  | .ok record =>
      match (t.demoted nodeId makeActive).insert record with
      | .error e => (.error e, t.demoted nodeId makeActive)
      | .ok t => (.ok record, t)

/-- `KeyRegistry.rotate`. -/
def rotate (now : Instant) (nodeId newKeyId : Str) (publicKey : Bytes) (algorithm : Str)
    (activatedAt expiresAt : Option Str) (metadata : RegisteredKey.Metadata) (t : KeyTable) :
    Except Exn RegisteredKey × KeyTable :=
  if (t.activeKey nodeId).isNone && (t.forNode nodeId).isEmpty then (.error .keyRegistry, t)
  else t.register copyLimit py now newKeyId nodeId publicKey algorithm activatedAt expiresAt metadata
    true

/-- `KeyRegistry.revoke`. -/
def revoke (now : Instant) (keyId reason : Str) (t : KeyTable) : Except Exn Unit × KeyTable :=
  if (t.get keyId).isNone then (.error .keyRegistry, t)
  else if strip reason = [] then (.error .keyRegistry, t)
  else
    (.ok (), t.modify keyId
      (fun r => { r with
        state := .revoked
        revocationReason := .str (strip reason)
        revokedAt := .str (now.text py.padYears ++ [cp 'Z'])
        legible_reason := trivial
        legible_time := trivial
        distinct_reason := trivial
        distinct_time := trivial })
      (fun _ => rfl) fun _ => rfl)

/-- `KeyRegistry.disable`. -/
def disable (keyId : Str) (t : KeyTable) : Except Exn Unit × KeyTable :=
  if (t.get keyId).isNone then (.error .keyRegistry, t)
  else (.ok (), t.setState keyId .disabled)

/-- One entry of `import_public`. -/
def importEntry (overwrite : Bool) (t : KeyTable) (entry : Document) : Except Exn Unit × KeyTable :=
  match RegisteredKey.fromDict py entry with
  | .error e => (.error e, t)
  | .ok record =>
      if record.keyId ∈ t.keys.map fun r => r.keyId then
        if overwrite then
          match (t.without record.keyId).insert record with
          | .error e => (.error e, t.without record.keyId)
          | .ok t => (.ok (), t)
        else (.ok (), t)
      else
        match t.insert record with
        | .error e => (.error e, t)
        | .ok t => (.ok (), t)

/-- The loop of `import_public`. -/
def importEntries (overwrite : Bool) : KeyTable → List Document → Except Exn Unit × KeyTable
  | t, [] => (.ok (), t)
  | t, entry :: rest =>
      match importEntry py overwrite t entry with
      | (.error e, t) => (.error e, t)
      | (.ok _, t) => importEntries overwrite t rest

end KeyTable

namespace Document

/-- The items of a list; no items of any other value. -/
def itemsOf : Value → List Value
  | .list xs => xs
  | _ => []

theorem legible_itemsOf {v : Value} (h : Legible v) : ∀ x ∈ itemsOf v, Legible x := by
  cases v with
  | list xs => exact legibleItems_iff.mp h
  | _ => exact fun x hx => absurd hx List.not_mem_nil

theorem distinct_itemsOf {v : Value} (h : v.Distinct) : ∀ x ∈ itemsOf v, x.Distinct := by
  cases v with
  | list xs => exact Value.distinctItems_iff.mp h
  | _ => exact fun x hx => absurd hx List.not_mem_nil

/-- The items of a list, each a document. -/
def items (d : Document) : List Document :=
  (itemsOf d.value).attach.map fun x =>
    ⟨x.1, legible_itemsOf d.legible x.1 x.2, distinct_itemsOf d.distinct x.1 x.2⟩

theorem items_value (d : Document) : d.items.map Document.value = itemsOf d.value := by
  rw [items, List.map_map]
  exact List.attach_map_subtype_val _

/-- The entries of a registry document, after its version and shape were checked. -/
def entries (d : Document) : Except Exn (List Document) := do
  let _ ← KeyRegistry.documentEntries d.value
  return (d.field "keys").items

/-- `json.loads`. -/
def read (limit : Nat) (s : Str) : Except LoadsError Document :=
  match h : loads limit s with
  | .error e => .error e
  | .ok v => .ok ⟨v, Hooks.keepsRead_legible.loadsWith h, Hooks.keeps_distinct.loadsWith h⟩

theorem read_value (limit : Nat) (s : Str) : (read limit s).map value = loads limit s := by
  unfold read
  split
  · next e h => exact h.symm
  · next v h => exact h.symm

end Document

namespace KeyTable

variable (copyLimit : Nat) (py : Interp)

/-- `KeyRegistry.import_public`. -/
def importPublic (document : Document) (overwrite : Bool) (t : KeyTable) :
    Except Exn Unit × KeyTable :=
  match document.entries with
  | .error e => (.error e, t)
  | .ok entries => importEntries py overwrite t entries

/-- `KeyRegistry(records)`. -/
def ofRecords (records : List RegisteredKey) : Except Exn KeyTable := records.foldlM insert empty

/-- `KeyRegistry.load`, on the content of the file, if there is one. -/
def load : Option Bytes → Except Exn KeyTable
  | none => .ok empty
  | some content =>
      if maxRegistryBytes < content.length then .error .keyRegistry
      else
        match Utf8.decodeStrict content with
        | none => .error .keyRegistry
        | some text =>
            match Document.read py.jsonLimit (universalNewlines text) with
            | .error .digits => .error .valueError
            | .error .recursion => .error .recursion
            | .error _ => .error .keyRegistry
            | .ok data => do
                let entries ← data.entries
                let records ← entries.mapM (RegisteredKey.fromDict py)
                ofRecords records

/-- `KeyRegistry.sorted_records`. -/
def sortedRecords (t : KeyTable) : List RegisteredKey :=
  t.keys.insertionSort fun a b => a.nodeId ≤ b.nodeId ∧ (a.nodeId = b.nodeId → a.keyId ≤ b.keyId)

/-- `KeyRegistry.save`: the content that it leaves in the file. -/
def save (now : Instant) (t : KeyTable) : Except Exn Bytes := do
  let entries ← t.sortedRecords.mapM (RegisteredKey.toDict copyLimit py)
  let document := Value.ofMembers (KeyRegistry.payload py now (entries.map Value.ofMembers))
  if py.dumpLimit < document.nest then .error .recursion
  else
    match dump Style.indented 0 document with
    | .ok text => .ok (Utf8.encodeAll (text ++ [lf]))
    | .error .tooManyDigits => .error .valueError
    | .error .unsupported => .error .typeError

/-- An operation on a registry. -/
inductive Operation
  | register (now : Instant) (keyId nodeId : Str) (publicKey : Bytes) (algorithm : Str)
      (activatedAt expiresAt : Option Str) (metadata : RegisteredKey.Metadata) (makeActive : Bool)
  | rotate (now : Instant) (nodeId newKeyId : Str) (publicKey : Bytes) (algorithm : Str)
      (activatedAt expiresAt : Option Str) (metadata : RegisteredKey.Metadata)
  | revoke (now : Instant) (keyId reason : Str)
  | disable (keyId : Str)
  | importPublic (document : Document) (overwrite : Bool)
  | load (content : Option Bytes)

/-- The table that an operation leaves, whether or not it raises. A file that cannot be loaded
leaves the table of before. -/
def apply (t : KeyTable) : Operation → KeyTable
  | .register now keyId nodeId publicKey algorithm activatedAt expiresAt metadata makeActive =>
      (t.register copyLimit py now keyId nodeId publicKey algorithm activatedAt expiresAt metadata
        makeActive).2
  | .rotate now nodeId newKeyId publicKey algorithm activatedAt expiresAt metadata =>
      (t.rotate copyLimit py now nodeId newKeyId publicKey algorithm activatedAt expiresAt metadata).2
  | .revoke now keyId reason => (t.revoke py now keyId reason).2
  | .disable keyId => (t.disable keyId).2
  | .importPublic document overwrite => (t.importPublic py document overwrite).2
  | .load content =>
      match load py content with
      | .error _ => t
      | .ok loaded => loaded

/-- The table after a run of operations. -/
def run (t : KeyTable) (ops : List Operation) : KeyTable := ops.foldl (apply copyLimit py) t

/-! ## The registry of a table -/

section Registry

variable {copyLimit : Nat} {py : Interp}

theorem fromDict_map (d : Document) :
    (RegisteredKey.fromDict py d).map RegisteredKey.toKeyRecord = KeyRecord.fromDict py d.value := by
  unfold RegisteredKey.fromDict
  cases KeyRecord.fromDict py d.value with
  | error e => rfl
  | ok record => rfl

theorem fromDict_record {d : Document} {r : RegisteredKey}
    (h : RegisteredKey.fromDict py d = .ok r) :
    KeyRecord.fromDict py d.value = .ok r.toKeyRecord := by
  rw [← fromDict_map, h]
  rfl

theorem newRecord_record {now : Instant} {keyId nodeId : Str} {publicKey : Bytes} {algorithm : Str}
    {activatedAt expiresAt : Option Str} {metadata : RegisteredKey.Metadata} {makeActive : Bool}
    {r : RegisteredKey}
    (h : RegisteredKey.newRecord copyLimit py now keyId nodeId publicKey algorithm activatedAt
      expiresAt metadata makeActive = .ok r) :
    KeyRegistry.newRecord py now keyId nodeId publicKey algorithm activatedAt expiresAt makeActive =
      .ok r.toKeyRecord := by
  obtain ⟨u, halgorithm, h⟩ := bind_eq_ok.mp h
  obtain ⟨v, hkey, h⟩ := bind_eq_ok.mp h
  obtain ⟨activated, hactivated, h⟩ := bind_eq_ok.mp h
  obtain ⟨expires, hexpires, h⟩ := bind_eq_ok.mp h
  split_ifs at h
  refine bind_eq_ok.mpr ⟨u, halgorithm, bind_eq_ok.mpr ⟨v, hkey, bind_eq_ok.mpr ⟨activated,
    hactivated, bind_eq_ok.mpr ⟨expires, hexpires, ?_⟩⟩⟩⟩
  exact fromDict_record h

theorem get_eq_some {t : KeyTable} {keyId : Str} {r : RegisteredKey} :
    t.get keyId = some r ↔ r ∈ t.keys ∧ r.keyId = keyId := by
  constructor
  · intro h
    exact ⟨List.mem_of_find?_eq_some h, by simpa using List.find?_some h⟩
  · rintro ⟨hmem, rfl⟩
    cases hfound : t.get r.keyId with
    | none =>
        have hnone := List.find?_eq_none.mp hfound r hmem
        exact absurd (decide_eq_true rfl) hnone
    | some s =>
        have hid : s.keyId = r.keyId := by simpa using List.find?_some hfound
        rw [List.inj_on_of_nodup_map t.nodup (List.mem_of_find?_eq_some hfound) hmem hid]

theorem mem_forNode {t : KeyTable} {nodeId : Str} {r : RegisteredKey} :
    r ∈ t.forNode nodeId ↔ r ∈ t.keys ∧ r.nodeId = nodeId := by
  rw [forNode, List.mem_insertionSort, List.mem_filter, decide_eq_true_eq]

theorem activeKey_eq_some {t : KeyTable} {nodeId : Str} {r : RegisteredKey}
    (h : t.activeKey nodeId = some r) : r ∈ t.keys ∧ r.nodeId = nodeId ∧ r.state = .active := by
  obtain ⟨hmem, hnode⟩ := mem_forNode.mp (List.mem_of_find?_eq_some h)
  have hstate := List.find?_some (p := fun r : RegisteredKey => decide (r.state = .active)) h
  exact ⟨hmem, hnode, of_decide_eq_true hstate⟩

theorem insert_eq_ok {t t' : KeyTable} {r : RegisteredKey} (h : t.insert r = .ok t') :
    (r.keyId ∉ t.keys.map fun s => s.keyId) ∧ (r.publicKey ∉ t.keys.map fun s => s.publicKey) ∧
      t'.keys = t.keys ++ [r] := by
  unfold insert at h
  split_ifs at h with hid hkey
  obtain rfl := Except.ok.inj h
  exact ⟨hid, hkey, rfl⟩

theorem insert_eq_error {t : KeyTable} {r : RegisteredKey} {e : Exn} (h : t.insert r = .error e) :
    r.keyId ∈ (t.keys.map fun s => s.keyId) ∨ r.publicKey ∈ t.keys.map fun s => s.publicKey := by
  unfold insert at h
  split_ifs at h with hid hkey
  · exact .inl hid
  · exact .inr hkey

/-- An insertion is refused when an identity of the record is taken. -/
theorem insert_of_taken {t : KeyTable} {r : RegisteredKey}
    (h : r.keyId ∈ (t.keys.map fun s => s.keyId) ∨ r.publicKey ∈ t.keys.map fun s => s.publicKey) :
    t.insert r = .error .keyRegistry := by
  unfold insert
  split_ifs with hid hkey
  · rfl
  · rfl
  · exact absurd h (not_or.mpr ⟨hid, hkey⟩)

theorem registry_get (t : KeyTable) (keyId : Str) :
    t.registry.get keyId = (t.get keyId).map RegisteredKey.toKeyRecord := by
  unfold KeyRegistry.get get registry
  rw [List.find?_map]
  rfl

theorem registry_forNode (t : KeyTable) (nodeId : Str) :
    t.registry.forNode nodeId = (t.forNode nodeId).map RegisteredKey.toKeyRecord := by
  unfold KeyRegistry.forNode forNode registry
  rw [List.filter_map]
  exact (List.map_insertionSort (r := fun a b : RegisteredKey => b.activatedAt ≤ a.activatedAt)
    (s := fun a b : KeyRecord => b.activatedAt ≤ a.activatedAt) _ _ fun _ _ _ _ => Iff.rfl).symm

theorem registry_activeKey (t : KeyTable) (nodeId : Str) :
    t.registry.activeKey nodeId = (t.activeKey nodeId).map RegisteredKey.toKeyRecord := by
  unfold KeyRegistry.activeKey activeKey
  rw [registry_forNode, List.find?_map]
  rfl

/-- A registry is its list of records. -/
theorem registry_ext {reg reg' : KeyRegistry} (h : reg.records = reg'.records) : reg = reg' := by
  cases reg
  cases reg'
  congr

theorem registry_modify {t : KeyTable} {keyId : Str} {f : RegisteredKey → RegisteredKey}
    {state : KeyState} (hid : ∀ r, (f r).keyId = r.keyId) (hkey : ∀ r, (f r).publicKey = r.publicKey)
    (hf : ∀ r, (f r).toKeyRecord = { r.toKeyRecord with state }) :
    (t.modify keyId f hid hkey).registry = t.registry.setState keyId state := by
  apply registry_ext
  simp only [registry, modify, KeyRegistry.setState, List.map_map]
  apply List.map_congr_left
  intro r _
  simp only [Function.comp_apply]
  split_ifs
  · exact hf r
  · rfl

theorem registry_demoted (t : KeyTable) (nodeId : Str) (makeActive : Bool) :
    (t.demoted nodeId makeActive).registry = t.registry.demoted nodeId makeActive := by
  unfold demoted KeyRegistry.demoted
  rw [registry_activeKey]
  cases makeActive with
  | false => rfl
  | true =>
      simp only [if_true]
      cases t.activeKey nodeId with
      | none => rfl
      | some previous => exact registry_modify _ _ fun _ => rfl

theorem registry_insert {t : KeyTable} {r : RegisteredKey} :
    t.registry.insert r.toKeyRecord = (t.insert r).map registry := by
  have hids : r.keyId ∈ t.registry.records.map KeyRecord.keyId ↔
      r.keyId ∈ t.keys.map fun s => s.keyId := by
    rw [registry, List.map_map]
    rfl
  have hkeys : (t.registry.records.any fun s => s.publicKey = r.publicKey) = true ↔
      r.publicKey ∈ t.keys.map fun s => s.publicKey := by
    rw [registry, List.any_map, List.any_eq_true, List.mem_map]
    simp only [Function.comp_apply, decide_eq_true_eq]
  unfold KeyRegistry.insert insert
  by_cases hid : r.keyId ∈ t.keys.map fun s => s.keyId
  · rw [dif_pos (hids.mpr hid), dif_pos hid]
    rfl
  · rw [dif_neg (mt hids.mp hid), dif_neg hid]
    by_cases hkey : r.publicKey ∈ t.keys.map fun s => s.publicKey
    · rw [if_pos (hkeys.mpr hkey), dif_pos hkey]
      rfl
    · rw [if_neg (mt hkeys.mp hkey), dif_neg hkey]
      refine congrArg Except.ok (registry_ext ?_)
      simp only [registry, List.map_append, List.map_singleton]

theorem registry_without (t : KeyTable) (keyId : Str) :
    (t.without keyId).registry = t.registry.without keyId := by
  apply registry_ext
  simp only [registry, without, KeyRegistry.without, List.filter_map]
  rfl

/-- Both tables are left as they are by an insertion that fails. -/
theorem registry_inserted (t : KeyTable) (r : RegisteredKey) :
    (match t.registry.insert r.toKeyRecord with
      | .error e => ((.error e, t.registry) : Except Exn Unit × KeyRegistry)
      | .ok reg => (.ok (), reg)) =
    ((match t.insert r with
      | .error e => ((.error e, t) : Except Exn Unit × KeyTable)
      | .ok u => (.ok (), u)).1,
     (match t.insert r with
      | .error e => ((.error e, t) : Except Exn Unit × KeyTable)
      | .ok u => (.ok (), u)).2.registry) := by
  rw [registry_insert]
  cases t.insert r with
  | error e => rfl
  | ok u => rfl

theorem registry_importEntry (overwrite : Bool) (t : KeyTable) (entry : Document) :
    KeyRegistry.importEntry py overwrite t.registry entry.value =
      ((importEntry py overwrite t entry).1, (importEntry py overwrite t entry).2.registry) := by
  have hmem : ∀ r : RegisteredKey, r.keyId ∈ t.registry.records.map KeyRecord.keyId ↔
      r.keyId ∈ t.keys.map fun s => s.keyId := by
    intro r
    rw [registry, List.map_map]
    rfl
  unfold KeyRegistry.importEntry importEntry
  rw [← fromDict_map]
  cases RegisteredKey.fromDict py entry with
  | error e => rfl
  | ok r =>
      simp only [Except.map, hmem r]
      split_ifs
      · have hwithout := registry_inserted (t.without r.keyId) r
        rw [registry_without] at hwithout
        exact hwithout
      · rfl
      · exact registry_inserted t r

theorem registry_importEntries (overwrite : Bool) (entries : List Document) (t : KeyTable) :
    KeyRegistry.importEntries py overwrite t.registry (entries.map Document.value) =
      ((importEntries py overwrite t entries).1, (importEntries py overwrite t entries).2.registry) := by
  induction entries generalizing t with
  | nil => rfl
  | cons entry rest ih =>
      rw [List.map_cons, KeyRegistry.importEntries, registry_importEntry, importEntries]
      cases importEntry py overwrite t entry with
      | mk result t' =>
          cases result with
          | error e => rfl
          | ok _ => exact ih t'

theorem entries_value (d : Document) :
    d.entries.map (List.map Document.value) = KeyRegistry.documentEntries d.value := by
  unfold Document.entries
  cases h : KeyRegistry.documentEntries d.value with
  | error e => rfl
  | ok entries =>
      change Except.ok (List.map Document.value (d.field "keys").items) = _
      rw [Document.items_value]
      change Except.ok (Document.itemsOf (Document.fieldOf d.value "keys")) = _
      cases hvalue : d.value with
      | dict data =>
          rw [hvalue, KeyRegistry.documentEntries] at h
          split at h
          · next version xs hversion hkeys =>
              split_ifs at h
              obtain rfl := Except.ok.inj h
              simp only [Document.fieldOf, Models.field, hkeys, Option.getD_some, Document.itemsOf]
          · cases h
      | _ =>
          rw [hvalue] at h
          cases h

theorem registry_importPublic (document : Document) (overwrite : Bool) (t : KeyTable) :
    KeyRegistry.importPublic py document.value overwrite t.registry =
      ((importPublic py document overwrite t).1, (importPublic py document overwrite t).2.registry) := by
  unfold KeyRegistry.importPublic importPublic
  rw [← entries_value]
  cases document.entries with
  | error e => rfl
  | ok entries => exact registry_importEntries overwrite entries t

theorem registry_foldlM (records : List RegisteredKey) (t : KeyTable) :
    (records.map RegisteredKey.toKeyRecord).foldlM KeyRegistry.insert t.registry =
      (records.foldlM insert t).map registry := by
  induction records generalizing t with
  | nil => rfl
  | cons r rest ih =>
      rw [List.map_cons, List.foldlM_cons, List.foldlM_cons, registry_insert]
      cases t.insert r with
      | error e => rfl
      | ok t' => exact ih t'

theorem fromDict_mapM (entries : List Document) :
    (entries.map Document.value).mapM (KeyRecord.fromDict py) =
      (entries.mapM (RegisteredKey.fromDict py)).map (List.map RegisteredKey.toKeyRecord) := by
  induction entries with
  | nil => rfl
  | cons entry rest ih =>
      rw [List.map_cons, List.mapM_cons, List.mapM_cons, ← fromDict_map, ih]
      cases RegisteredKey.fromDict py entry with
      | error e => rfl
      | ok r =>
          cases rest.mapM (RegisteredKey.fromDict py) with
          | error e => rfl
          | ok rs => rfl

/-- What is loaded from a file is loaded with every field. -/
theorem registry_load (content : Option Bytes) :
    KeyRegistry.load py content = (load py content).map registry := by
  cases content with
  | none => rfl
  | some bytes =>
      rw [KeyRegistry.load, load]
      split_ifs
      · rfl
      · cases Utf8.decodeStrict bytes with
        | none => rfl
        | some text =>
            dsimp only
            rw [← Document.read_value]
            cases Document.read py.jsonLimit (universalNewlines text) with
            | error e => cases e <;> rfl
            | ok data =>
                simp only [Except.map]
                rw [← entries_value]
                cases data.entries with
                | error e => rfl
                | ok entries =>
                    change (List.mapM (KeyRecord.fromDict py) (entries.map Document.value) >>= _) = _
                    rw [fromDict_mapM]
                    cases hrecords : entries.mapM (RegisteredKey.fromDict py) with
                    | error e =>
                        change _ = Except.map registry ((entries.mapM _) >>= _)
                        rw [hrecords]
                        rfl
                    | ok records =>
                        change _ = Except.map registry ((entries.mapM _) >>= _)
                        rw [hrecords]
                        exact registry_foldlM records empty

/-- A registration that `asdict` stops changes nothing; any other acts on the registry. -/
theorem registry_register (t : KeyTable) (now : Instant) (keyId nodeId : Str) (publicKey : Bytes)
    (algorithm : Str) (activatedAt expiresAt : Option Str) (metadata : RegisteredKey.Metadata)
    (makeActive : Bool) :
    (t.register copyLimit py now keyId nodeId publicKey algorithm activatedAt expiresAt metadata
        makeActive).2.registry = t.registry ∨
      (t.register copyLimit py now keyId nodeId publicKey algorithm activatedAt expiresAt metadata
        makeActive).2.registry =
        (t.registry.register py now keyId nodeId publicKey algorithm activatedAt expiresAt
          makeActive).2 := by
  unfold register
  cases hnew : RegisteredKey.newRecord copyLimit py now keyId nodeId publicKey algorithm activatedAt
      expiresAt metadata makeActive with
  | error e => exact .inl rfl
  | ok r =>
      right
      have hbase := newRecord_record hnew
      obtain ⟨e, hins, hreg⟩ | ⟨reg', hins, hreg⟩ :=
        @KeyRegistry.register_of_newRecord py t.registry _ _ _ _ _ _ _ _ _ hbase
      · rw [hreg, ← registry_demoted]
        rw [← registry_demoted, registry_insert] at hins
        dsimp only
        cases h : (t.demoted nodeId makeActive).insert r with
        | error e' => rfl
        | ok t' =>
            rw [h] at hins
            cases hins
      · rw [hreg]
        rw [← registry_demoted, registry_insert] at hins
        dsimp only
        cases h : (t.demoted nodeId makeActive).insert r with
        | error e' =>
            rw [h] at hins
            cases hins
        | ok t' =>
            rw [h] at hins
            exact Except.ok.inj hins

/-- The registry of a table is one that the package built. -/
theorem built_register {t : KeyTable} (h : KeyRegistry.Built py t.registry) (now : Instant)
    (keyId nodeId : Str) (publicKey : Bytes) (algorithm : Str) (activatedAt expiresAt : Option Str)
    (metadata : RegisteredKey.Metadata) (makeActive : Bool) :
    KeyRegistry.Built py (t.register copyLimit py now keyId nodeId publicKey algorithm activatedAt
      expiresAt metadata makeActive).2.registry := by
  rcases registry_register t now keyId nodeId publicKey algorithm activatedAt expiresAt metadata
    makeActive with hsame | hregistered
  · rw [hsame]
    exact h
  · rw [hregistered]
    exact .register now keyId nodeId publicKey algorithm activatedAt expiresAt makeActive h

theorem built_apply {t : KeyTable} (h : KeyRegistry.Built py t.registry) (op : Operation) :
    KeyRegistry.Built py (t.apply copyLimit py op).registry := by
  cases op with
  | register now keyId nodeId publicKey algorithm activatedAt expiresAt metadata makeActive =>
      exact built_register h now keyId nodeId publicKey algorithm activatedAt expiresAt metadata
        makeActive
  | rotate now nodeId newKeyId publicKey algorithm activatedAt expiresAt metadata =>
      simp only [apply, rotate]
      split_ifs
      · exact h
      · exact built_register h now newKeyId nodeId publicKey algorithm activatedAt expiresAt metadata
          true
  | revoke now keyId reason =>
      have hrevoked := KeyRegistry.Built.revoke keyId reason h
      unfold KeyRegistry.revoke at hrevoked
      simp only [apply, revoke]
      rw [registry_get] at hrevoked
      split_ifs with hget hreason
      · exact h
      · exact h
      · rw [Option.isNone_map, if_neg hget, if_neg hreason] at hrevoked
        rw [registry_modify _ _ fun _ => rfl]
        exact hrevoked
  | disable keyId =>
      have hdisabled := KeyRegistry.Built.disable keyId h
      unfold KeyRegistry.disable at hdisabled
      simp only [apply, disable]
      rw [registry_get] at hdisabled
      split_ifs with hget
      · exact h
      · rw [Option.isNone_map, if_neg hget] at hdisabled
        rw [setState, registry_modify _ _ fun _ => rfl]
        exact hdisabled
  | importPublic document overwrite =>
      have himported := KeyRegistry.Built.importPublic document.value overwrite h
      rw [registry_importPublic] at himported
      exact himported
  | load content =>
      simp only [apply]
      cases hload : load py content with
      | error e => exact h
      | ok loaded =>
          apply @KeyRegistry.Built.load py content
          rw [registry_load, hload]
          rfl

theorem built_run {t : KeyTable} (h : KeyRegistry.Built py t.registry) (ops : List Operation) :
    KeyRegistry.Built py (t.run copyLimit py ops).registry := by
  induction ops generalizing t with
  | nil => exact h
  | cons op rest ih => exact ih (built_apply h op)

end Registry

end KeyTable

end IcsDeception
