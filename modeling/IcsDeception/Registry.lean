import IcsDeception.KeyRegistry
import IcsDeception.Envelope
import Mathlib.Data.List.Sort

/-!
# Building a registry

The operations that change the registry: a record is read from untrusted JSON, checked
and inserted. Registration, import and loading all go through the same check, so the
dates of every record in a registry can be read.

## Implementation notes

The fields of a record that only its export repeats are read and checked, but not kept:
`created_at`, `revocation_reason`, `revoked_at` and `metadata`. An operation returns the
registry it leaves behind also when it raises.
-/

namespace IcsDeception

open Text Json Calendar Canonicalizer Models

/-- `REGISTRY_FORMAT_VERSION`. -/
def registryFormatVersion : Str := lit "1.0"

/-- `MAX_REGISTRY_BYTES`. -/
def maxRegistryBytes : Nat := 8 * 1024 * 1024

/-- `KeyState.value`. -/
def KeyState.text : KeyState → Str
  | .active => lit "active"
  | .rotated => lit "rotated"
  | .revoked => lit "revoked"
  | .expired => lit "expired"
  | .disabled => lit "disabled"

/-- The state of a name. -/
def KeyState.ofText? (s : Str) : Option KeyState :=
  [.active, .rotated, .revoked, .expired, .disabled].find? fun k => KeyState.text k = s

namespace KeyRecord

/-- A condition that raises `KeyRegistryError` when it fails. -/
def need (condition : Bool) : Except Exn Unit := if condition then .ok () else .error .keyRegistry

/-- The checks of `key_id` and `node_id` in `from_dict`. -/
def readIdentifier : Value → Except Exn Str
  | .str s => do
      need (s ≠ [] && s.length ≤ maxNodeIdLength)
      return s
  | _ => .error .keyRegistry

/-- `algorithm not in SUPPORTED_SIGNATURE_ALGORITHMS`: an unhashable value raises. -/
def readAlgorithm : Value → Except Exn SignatureAlgorithm
  | .str s =>
      match SignatureAlgorithm.ofText? s with
      | none => .error .keyRegistry
      | some a => .ok a
  | .list _ => .error .typeError
  | .dict _ => .error .typeError
  | _ => .error .keyRegistry

/-- `KeyState(data.get("state", "active"))`. -/
def readState : Option Value → Except Exn KeyState
  | none => .ok .active
  | some (.str s) =>
      match KeyState.ofText? s with
      | none => .error .keyRegistry
      | some k => .ok k
  | some _ => .error .keyRegistry

/-- `record.public_key_bytes`, evaluated for its exceptions. -/
def readPublicKey (py : Interp) : Value → Except Exn Str
  | .str s =>
      match py.b64decode s with
      | none => .error .keyRegistry
      | some _ => .ok s
  | _ => .error .typeError

/-- `_parse_time` of an untrusted value, which must be a text. -/
def readTime (py : Interp) : Value → Except Exn Str
  | .str s => do
      let _ ← KeyRegistry.parseTime py s
      return s
  | _ => .error .keyRegistry

/-- `_parse_time` of an optional field. -/
def readExpiry (py : Interp) : Value → Except Exn (Option Str)
  | .null => .ok none
  | v => do
      let s ← readTime py v
      return some s

/-- The required fields of a record. -/
def requiredFields : List Str :=
  [lit "key_id", lit "node_id", lit "algorithm", lit "public_key", lit "created_at",
   lit "activated_at"]

/-- `isinstance(data.get("metadata") or {}, dict)`. -/
def metadataOk (py : Interp) : Option Value → Bool
  | none => true
  | some (.dict _) => true
  | some v => !py.truth v

/-- `KeyRecord.from_dict`. -/
def fromDict (py : Interp) : Value → Except Exn KeyRecord
  | .dict data => do
      need (requiredFields.all fun f => (data.lookup (.str f)).isSome)
      let keyId ← readIdentifier (field data "key_id")
      let nodeId ← readIdentifier (field data "node_id")
      let algorithm ← readAlgorithm (field data "algorithm")
      let state ← readState (data.lookup (.str (lit "state")))
      need (metadataOk py (data.lookup (.str (lit "metadata"))))
      let publicKey ← readPublicKey py (field data "public_key")
      let _ ← readTime py (field data "created_at")
      let activatedAt ← readTime py (field data "activated_at")
      let expiresAt ← readExpiry py (field data "expires_at")
      return { keyId, nodeId, algorithm, publicKey, activatedAt, expiresAt, state }
  | _ => .error .keyRegistry

/-- The dates of a record can be read. -/
def DatesRead (py : Interp) (r : KeyRecord) : Prop :=
  (∃ i, KeyRegistry.parseTime py r.activatedAt = .ok i) ∧
    ∀ t, r.expiresAt = some t → ∃ i, KeyRegistry.parseTime py t = .ok i

theorem readTime_eq_ok {py : Interp} {v : Value} {s : Str} (h : readTime py v = .ok s) :
    ∃ i, KeyRegistry.parseTime py s = .ok i := by
  cases v with
  | str t =>
      obtain ⟨i, hi, h⟩ := bind_eq_ok.mp h
      obtain rfl := Except.ok.inj h
      exact ⟨i, hi⟩
  | _ => cases h

theorem readExpiry_eq_ok {py : Interp} {v : Value} {o : Option Str} (h : readExpiry py v = .ok o)
    {t : Str} (ht : o = some t) : ∃ i, KeyRegistry.parseTime py t = .ok i := by
  subst ht
  cases v with
  | null => cases h
  | _ =>
      obtain ⟨s, hs, h⟩ := bind_eq_ok.mp h
      obtain rfl := Option.some.inj (Except.ok.inj h)
      exact readTime_eq_ok hs

/-- A record that `from_dict` accepts has readable dates. -/
theorem datesRead_of_fromDict {py : Interp} {v : Value} {r : KeyRecord}
    (h : fromDict py v = .ok r) : r.DatesRead py := by
  cases v with
  | dict data =>
      rw [fromDict] at h
      obtain ⟨-, -, h⟩ := bind_eq_ok.mp h
      obtain ⟨keyId, -, h⟩ := bind_eq_ok.mp h
      obtain ⟨nodeId, -, h⟩ := bind_eq_ok.mp h
      obtain ⟨algorithm, -, h⟩ := bind_eq_ok.mp h
      obtain ⟨state, -, h⟩ := bind_eq_ok.mp h
      obtain ⟨-, -, h⟩ := bind_eq_ok.mp h
      obtain ⟨publicKey, -, h⟩ := bind_eq_ok.mp h
      obtain ⟨-, -, h⟩ := bind_eq_ok.mp h
      obtain ⟨activatedAt, hact, h⟩ := bind_eq_ok.mp h
      obtain ⟨expiresAt, hexp, h⟩ := bind_eq_ok.mp h
      obtain rfl := Except.ok.inj h
      exact ⟨readTime_eq_ok hact, fun t ht => readExpiry_eq_ok hexp ht⟩
  | _ => cases h

end KeyRecord

namespace KeyRegistry

/-- `KeyRegistry()`. -/
def empty : KeyRegistry := ⟨[], List.nodup_nil⟩

/-- `KeyRegistry._insert`. -/
def insert (reg : KeyRegistry) (r : KeyRecord) : Except Exn KeyRegistry :=
  if h : r.keyId ∈ reg.records.map KeyRecord.keyId then .error .keyRegistry
  else if reg.records.any fun other => other.publicKey = r.publicKey then .error .keyRegistry
  else .ok ⟨reg.records ++ [r], by
    rw [List.map_append, List.nodup_append]
    refine ⟨reg.nodup, by simp, ?_⟩
    intro a ha b hb
    simp only [List.map_cons, List.map_nil, List.mem_singleton] at hb
    rintro rfl
    exact h (hb ▸ ha)⟩

/-- A change of the state of the key with an identifier. -/
def setState (reg : KeyRegistry) (keyId : Str) (state : KeyState) : KeyRegistry :=
  ⟨reg.records.map fun r => if r.keyId = keyId then { r with state } else r, by
    rw [List.map_map]
    have : (KeyRecord.keyId ∘ fun r => if r.keyId = keyId then { r with state } else r) =
        KeyRecord.keyId := by
      funext r
      simp only [Function.comp_apply]
      split_ifs <;> rfl
    rw [this]
    exact reg.nodup⟩

/-- `KeyRegistry.for_node`: newest activation text first, in insertion order among equals. -/
def forNode (reg : KeyRegistry) (nodeId : Str) : List KeyRecord :=
  (reg.records.filter fun r => r.nodeId = nodeId).insertionSort
    fun a b => b.activatedAt ≤ a.activatedAt

/-- `KeyRegistry.active_key`. -/
def activeKey (reg : KeyRegistry) (nodeId : Str) : Option KeyRecord :=
  (reg.forNode nodeId).find? fun r => r.state = .active

/-- The document of a new record, as `to_dict` gives it to `from_dict`. -/
def newDocument (keyId nodeId algorithm publicKey now activatedAt : Str) (expiresAt : Option Str)
    (makeActive : Bool) : Value :=
  Value.ofMembers
    [(lit "key_id", .str keyId), (lit "node_id", .str nodeId), (lit "algorithm", .str algorithm),
     (lit "public_key", .str publicKey), (lit "created_at", .str now),
     (lit "activated_at", .str activatedAt),
     (lit "expires_at", match expiresAt with
       | none => .null
       | some t => .str t),
     (lit "state", .str (if makeActive then KeyState.active else .disabled).text),
     (lit "revocation_reason", .null), (lit "revoked_at", .null), (lit "metadata", .dict [])]

/-- `normalize_timestamp(value) if value else default`. -/
def normalizedOr (py : Interp) (default : Option Str) : Option Str → Except Exn (Option Str)
  | none => .ok default
  | some [] => .ok default
  | some t => do
      let s ← normalizeTimestamp py (.str t)
      return some s

/-- The record that `register` makes, before the registry changes. -/
def newRecord (py : Interp) (now : Instant) (keyId nodeId : Str) (publicKey : Bytes) (algorithm : Str)
    (activatedAt expiresAt : Option Str) (makeActive : Bool) : Except Exn KeyRecord := do
  KeyRecord.need (SignatureAlgorithm.ofText? algorithm).isSome
  KeyRecord.need (publicKey ≠ [])
  let nowText := now.text py.padYears ++ [cp 'Z']
  let activated ← normalizedOr py (some nowText) activatedAt
  let expires ← normalizedOr py none expiresAt
  KeyRecord.fromDict py (newDocument keyId nodeId algorithm (Base64.encode publicKey) nowText
    (activated.getD nowText) expires makeActive)

/-- `KeyRegistry.register`. The previous key is rotated before the insertion, which may raise. -/
def register (reg : KeyRegistry) (py : Interp) (now : Instant) (keyId nodeId : Str)
    (publicKey : Bytes) (algorithm : Str) (activatedAt expiresAt : Option Str) (makeActive : Bool) :
    Except Exn KeyRecord × KeyRegistry :=
  match newRecord py now keyId nodeId publicKey algorithm activatedAt expiresAt makeActive with
  | .error e => (.error e, reg)
  | .ok record =>
      let reg :=
        if makeActive then
          match reg.activeKey nodeId with
          | none => reg
          | some previous => reg.setState previous.keyId .rotated
        else reg
      match reg.insert record with
      | .error e => (.error e, reg)
      | .ok reg => (.ok record, reg)

/-- `KeyRegistry.rotate`. -/
def rotate (py : Interp) (now : Instant) (nodeId newKeyId : Str) (publicKey : Bytes)
    (algorithm : Str) (activatedAt expiresAt : Option Str) (reg : KeyRegistry) :
    Except Exn KeyRecord × KeyRegistry :=
  if (reg.activeKey nodeId).isNone && (reg.forNode nodeId).isEmpty then (.error .keyRegistry, reg)
  else reg.register py now newKeyId nodeId publicKey algorithm activatedAt expiresAt true

/-- `KeyRegistry.revoke`. -/
def revoke (keyId reason : Str) (reg : KeyRegistry) : Except Exn Unit × KeyRegistry :=
  if (reg.get keyId).isNone then (.error .keyRegistry, reg)
  else if strip reason = [] then (.error .keyRegistry, reg)
  else (.ok (), reg.setState keyId .revoked)

/-- `KeyRegistry.disable`. -/
def disable (keyId : Str) (reg : KeyRegistry) : Except Exn Unit × KeyRegistry :=
  if (reg.get keyId).isNone then (.error .keyRegistry, reg)
  else (.ok (), reg.setState keyId .disabled)

/-- One entry of `import_public`. -/
def importEntry (py : Interp) (overwrite : Bool) (reg : KeyRegistry) (entry : Value) :
    Except Exn Unit × KeyRegistry :=
  match KeyRecord.fromDict py entry with
  | .error e => (.error e, reg)
  | .ok record =>
      if record.keyId ∈ reg.records.map KeyRecord.keyId then
        if overwrite then
          let reg : KeyRegistry := ⟨reg.records.filter fun r => r.keyId ≠ record.keyId,
            reg.nodup.sublist (List.filter_sublist.map _)⟩
          match reg.insert record with
          | .error e => (.error e, reg)
          | .ok reg => (.ok (), reg)
        else (.ok (), reg)
      else
        match reg.insert record with
        | .error e => (.error e, reg)
        | .ok reg => (.ok (), reg)

/-- The loop of `import_public`. -/
def importEntries (py : Interp) (overwrite : Bool) :
    KeyRegistry → List Value → Except Exn Unit × KeyRegistry
  | reg, [] => (.ok (), reg)
  | reg, entry :: rest =>
      match importEntry py overwrite reg entry with
      | (.error e, reg) => (.error e, reg)
      | (.ok _, reg) => importEntries py overwrite reg rest

/-- The entries of a registry document, after its version and shape were checked. -/
def documentEntries : Value → Except Exn (List Value)
  | .dict data =>
      match data.lookup (.str (lit "format_version")), data.lookup (.str (lit "keys")) with
      | some (.str version), some (.list entries) =>
          if version = registryFormatVersion then .ok entries else .error .keyRegistry
      | _, _ => .error .keyRegistry
  | _ => .error .keyRegistry

/-- `KeyRegistry.import_public`. -/
def importPublic (py : Interp) (document : Value) (overwrite : Bool) (reg : KeyRegistry) :
    Except Exn Unit × KeyRegistry :=
  match documentEntries document with
  | .error e => (.error e, reg)
  | .ok entries => importEntries py overwrite reg entries

/-- `KeyRegistry(records)`. -/
def ofRecords (records : List KeyRecord) : Except Exn KeyRegistry := records.foldlM insert empty

/-- `KeyRegistry.load`, on the content of the file, if there is one. -/
def load (py : Interp) : Option Bytes → Except Exn KeyRegistry
  | none => .ok empty
  | some content =>
      if maxRegistryBytes < content.length then .error .keyRegistry
      else
        match Utf8.decodeStrict content with
        | none => .error .keyRegistry
        | some text =>
            match loads py.jsonLimit (universalNewlines text) with
            | .error .digits => .error .valueError
            | .error .recursion => .error .recursion
            | .error _ => .error .keyRegistry
            | .ok data => do
                let entries ← documentEntries data
                let records ← entries.mapM (KeyRecord.fromDict py)
                ofRecords records

/-! ## Registries that the package builds -/

/-- The registries that are built by the package's own operations, whether or not the last
one raised. -/
inductive Built (py : Interp) : KeyRegistry → Prop
  | empty : Built py empty
  | load {content : Option Bytes} {reg : KeyRegistry} : load py content = .ok reg → Built py reg
  | register {reg : KeyRegistry} (now : Instant) (keyId nodeId : Str) (publicKey : Bytes)
      (algorithm : Str) (activatedAt expiresAt : Option Str) (makeActive : Bool) : Built py reg →
      Built py (reg.register py now keyId nodeId publicKey algorithm activatedAt expiresAt
        makeActive).2
  | importPublic {reg : KeyRegistry} (document : Value) (overwrite : Bool) : Built py reg →
      Built py (reg.importPublic py document overwrite).2
  | revoke {reg : KeyRegistry} (keyId reason : Str) : Built py reg →
      Built py (reg.revoke keyId reason).2
  | disable {reg : KeyRegistry} (keyId : Str) : Built py reg → Built py (reg.disable keyId).2

theorem datesRead_insert {py : Interp} {reg reg' : KeyRegistry} {r : KeyRecord}
    (hreg : reg.DatesRead py) (hr : r.DatesRead py) (h : reg.insert r = .ok reg') :
    reg'.DatesRead py := by
  unfold insert at h
  split_ifs at h
  obtain rfl := Except.ok.inj h
  intro x hx
  rcases List.mem_append.mp hx with hx | hx
  · exact hreg x hx
  · rw [List.mem_singleton.mp hx]
    exact hr

theorem datesRead_setState {py : Interp} {reg : KeyRegistry} (hreg : reg.DatesRead py) (keyId : Str)
    (state : KeyState) : (reg.setState keyId state).DatesRead py := by
  intro x hx
  obtain ⟨r, hr, rfl⟩ := List.mem_map.mp hx
  have := hreg r hr
  split_ifs <;> exact this

theorem datesRead_register {py : Interp} {reg : KeyRegistry} (hreg : reg.DatesRead py) (now : Instant)
    (keyId nodeId : Str) (publicKey : Bytes) (algorithm : Str) (activatedAt expiresAt : Option Str)
    (makeActive : Bool) : (reg.register py now keyId nodeId publicKey algorithm activatedAt expiresAt
      makeActive).2.DatesRead py := by
  unfold register
  cases hnew : newRecord py now keyId nodeId publicKey algorithm activatedAt expiresAt makeActive with
  | error e => exact hreg
  | ok record =>
      have hrecord : record.DatesRead py := by
        obtain ⟨-, -, hnew⟩ := bind_eq_ok.mp hnew
        obtain ⟨-, -, hnew⟩ := bind_eq_ok.mp hnew
        obtain ⟨activated, -, hnew⟩ := bind_eq_ok.mp hnew
        obtain ⟨expires, -, hnew⟩ := bind_eq_ok.mp hnew
        exact KeyRecord.datesRead_of_fromDict hnew
      dsimp only
      generalize hrot : (if makeActive = true then _ else reg : KeyRegistry) = rotated
      have hrotated : rotated.DatesRead py := by
        rw [← hrot]
        split_ifs
        · cases reg.activeKey nodeId with
          | none => exact hreg
          | some previous => exact datesRead_setState hreg _ _
        · exact hreg
      cases hins : rotated.insert record with
      | error e => exact hrotated
      | ok reg' => exact datesRead_insert hrotated hrecord hins

theorem datesRead_importEntry {py : Interp} {reg : KeyRegistry} (hreg : reg.DatesRead py)
    (overwrite : Bool) (entry : Value) : (importEntry py overwrite reg entry).2.DatesRead py := by
  have hinsert : ∀ (reg : KeyRegistry) (r : KeyRecord), reg.DatesRead py → r.DatesRead py →
      (match reg.insert r with
        | .error e => ((.error e, reg) : Except Exn Unit × KeyRegistry)
        | .ok reg' => (.ok (), reg')).2.DatesRead py := by
    intro reg r hreg hr
    cases hins : reg.insert r with
    | error e => exact hreg
    | ok reg' => exact datesRead_insert hreg hr hins
  unfold importEntry
  cases hfrom : KeyRecord.fromDict py entry with
  | error e => exact hreg
  | ok record =>
      have hrecord := KeyRecord.datesRead_of_fromDict hfrom
      dsimp only
      split_ifs
      · exact hinsert _ _ (fun r hr => hreg r (List.mem_filter.mp hr).1) hrecord
      · exact hreg
      · exact hinsert _ _ hreg hrecord

theorem datesRead_importEntries {py : Interp} (overwrite : Bool) (entries : List Value)
    {reg : KeyRegistry} (hreg : reg.DatesRead py) :
    (importEntries py overwrite reg entries).2.DatesRead py := by
  induction entries generalizing reg with
  | nil => exact hreg
  | cons entry rest ih =>
      have hone := datesRead_importEntry hreg overwrite entry
      rw [importEntries]
      cases hentry : importEntry py overwrite reg entry with
      | mk result reg' =>
          rw [hentry] at hone
          cases result with
          | error e => exact hone
          | ok _ => exact ih hone

theorem datesRead_foldlM {py : Interp} {records : List KeyRecord}
    (hrecords : ∀ r ∈ records, r.DatesRead py) {reg reg' : KeyRegistry} (hreg : reg.DatesRead py)
    (h : records.foldlM insert reg = .ok reg') : reg'.DatesRead py := by
  induction records generalizing reg with
  | nil =>
      obtain rfl := Except.ok.inj h
      exact hreg
  | cons r rest ih =>
      rw [List.foldlM_cons] at h
      obtain ⟨next, hnext, h⟩ := bind_eq_ok.mp h
      obtain ⟨hr, hrest⟩ := List.forall_mem_cons.mp hrecords
      exact ih hrest (datesRead_insert hreg hr hnext) h

theorem forall_of_mapM {α β ε : Type} {f : α → Except ε β} {P : β → Prop}
    (hf : ∀ a b, f a = .ok b → P b) {xs : List α} {ys : List β} (h : xs.mapM f = .ok ys) :
    ∀ y ∈ ys, P y := by
  induction xs generalizing ys with
  | nil =>
      obtain rfl := Except.ok.inj h
      simp
  | cons x xs ih =>
      rw [List.mapM_cons] at h
      obtain ⟨y, hy, h⟩ := bind_eq_ok.mp h
      obtain ⟨zs, hzs, h⟩ := bind_eq_ok.mp h
      obtain rfl := Except.ok.inj h
      exact List.forall_mem_cons.mpr ⟨hf x y hy, ih hzs⟩

theorem datesRead_load {py : Interp} {content : Option Bytes} {reg : KeyRegistry}
    (h : load py content = .ok reg) : reg.DatesRead py := by
  have hempty : empty.DatesRead py := fun r hr => absurd hr List.not_mem_nil
  cases content with
  | none =>
      obtain rfl := Except.ok.inj h
      exact hempty
  | some bytes =>
      rw [load] at h
      split_ifs at h
      split at h
      · cases h
      · split at h
        · cases h
        · cases h
        · cases h
        · obtain ⟨entries, -, h⟩ := bind_eq_ok.mp h
          obtain ⟨records, hrecords, h⟩ := bind_eq_ok.mp h
          exact datesRead_foldlM (forall_of_mapM (fun _ _ => KeyRecord.datesRead_of_fromDict) hrecords)
            hempty h

/-- The dates of every record in a registry that the package built can be read. -/
theorem Built.datesRead {py : Interp} {reg : KeyRegistry} (h : Built py reg) : reg.DatesRead py := by
  induction h with
  | empty => exact fun r hr => absurd hr List.not_mem_nil
  | load hload => exact datesRead_load hload
  | register now keyId nodeId publicKey algorithm activatedAt expiresAt makeActive _ ih =>
      exact datesRead_register ih now keyId nodeId publicKey algorithm activatedAt expiresAt makeActive
  | importPublic document overwrite _ ih =>
      unfold KeyRegistry.importPublic
      cases documentEntries document with
      | error e => exact ih
      | ok entries => exact datesRead_importEntries overwrite entries ih
  | revoke keyId reason _ ih =>
      unfold KeyRegistry.revoke
      split_ifs
      · exact ih
      · exact ih
      · exact datesRead_setState ih _ _
  | disable keyId _ ih =>
      unfold KeyRegistry.disable
      split_ifs
      · exact ih
      · exact datesRead_setState ih _ _

end KeyRegistry

end IcsDeception
