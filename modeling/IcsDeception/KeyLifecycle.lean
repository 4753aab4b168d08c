import IcsDeception.Registry

/-!
# The life of keys in a registry

Runs of the operations on a registry, and what they keep. Registration demotes the active
key of a node, but import and loading insert the records of a document as they stand: a
node has one active key, and a public key one identifier, as long as no record comes in
beside another one that it should have replaced.

## Implementation notes

Every operation changes the registry by insertions, deletions and changes of state. The
rule of invariants is stated once over these. `Brings` asks for a property of a record at
the moment of its insertion, and of nothing that is refused: neither an entry whose insertion
fails nor a file that cannot be loaded.
-/

namespace IcsDeception.KeyRegistry

open Text Json Calendar

variable (py : Interp)

/-- An operation on a registry. -/
inductive Operation
  | register (now : Instant) (keyId nodeId : Str) (publicKey : Bytes) (algorithm : Str)
      (activatedAt expiresAt : Option Str) (makeActive : Bool)
  | rotate (now : Instant) (nodeId newKeyId : Str) (publicKey : Bytes) (algorithm : Str)
      (activatedAt expiresAt : Option Str)
  | revoke (keyId reason : Str)
  | disable (keyId : Str)
  | importPublic (document : Value) (overwrite : Bool)
  | load (content : Option Bytes)

/-- The registry that an operation leaves, whether or not it raises. A file that cannot be loaded
leaves the registry of before. -/
def apply (reg : KeyRegistry) : Operation → KeyRegistry
  | .register now keyId nodeId publicKey algorithm activatedAt expiresAt makeActive =>
      (reg.register py now keyId nodeId publicKey algorithm activatedAt expiresAt makeActive).2
  | .rotate now nodeId newKeyId publicKey algorithm activatedAt expiresAt =>
      (reg.rotate py now nodeId newKeyId publicKey algorithm activatedAt expiresAt).2
  | .revoke keyId reason => (reg.revoke keyId reason).2
  | .disable keyId => (reg.disable keyId).2
  | .importPublic document overwrite => (reg.importPublic py document overwrite).2
  | .load content =>
      match load py content with
      | .error _ => reg
      | .ok loaded => loaded

/-- The registry after a run of operations. -/
def run (reg : KeyRegistry) (ops : List Operation) : KeyRegistry := ops.foldl (apply py) reg

/-- The registry without the key of an identifier. -/
def without (reg : KeyRegistry) (keyId : Str) : KeyRegistry :=
  ⟨reg.records.filter fun r => r.keyId ≠ keyId, reg.nodup.sublist (List.filter_sublist.map _)⟩

/-- The registry in which `register` inserts the new record. -/
def demoted (reg : KeyRegistry) (nodeId : Str) (makeActive : Bool) : KeyRegistry :=
  if makeActive then
    match reg.activeKey nodeId with
    | none => reg
    | some previous => reg.setState previous.keyId .rotated
  else reg

/-- With the new record made, registration inserts it, or raises after the demotion. -/
theorem register_of_newRecord {reg : KeyRegistry} {now : Instant} {keyId nodeId : Str}
    {publicKey : Bytes} {algorithm : Str} {activatedAt expiresAt : Option Str} {makeActive : Bool}
    {record : KeyRecord}
    (hnew : newRecord py now keyId nodeId publicKey algorithm activatedAt expiresAt makeActive =
      .ok record) :
    (∃ e, (reg.demoted nodeId makeActive).insert record = .error e ∧
      reg.register py now keyId nodeId publicKey algorithm activatedAt expiresAt makeActive =
        (.error e, reg.demoted nodeId makeActive)) ∨
    ∃ reg', (reg.demoted nodeId makeActive).insert record = .ok reg' ∧
      reg.register py now keyId nodeId publicKey algorithm activatedAt expiresAt makeActive =
        (.ok record, reg') := by
  unfold KeyRegistry.register
  rw [hnew]
  dsimp only
  generalize hrotated : (if makeActive = true then _ else reg : KeyRegistry) = rotated
  have hdemoted : reg.demoted nodeId makeActive = rotated := hrotated
  rw [hdemoted]
  cases rotated.insert record with
  | error e => exact .inl ⟨e, rfl, rfl⟩
  | ok reg' => exact .inr ⟨reg', rfl, rfl⟩

/-! ## What the operations insert -/

section Inserts

variable (P : KeyRegistry → KeyRecord → Prop)

/-- If the record is inserted, it has the property. -/
def Brings (reg : KeyRegistry) (r : KeyRecord) : Prop :=
  ∀ reg', reg.insert r = .ok reg' → P reg r

/-- What the loop of `import_public` inserts has the property. -/
def ImportInserts (overwrite : Bool) : KeyRegistry → List Value → Prop
  | _, [] => True
  | reg, entry :: rest =>
      (∀ record, KeyRecord.fromDict py entry = .ok record →
        if record.keyId ∈ reg.records.map KeyRecord.keyId then
          overwrite = true → Brings P (reg.without record.keyId) record
        else Brings P reg record) ∧
      ((importEntry py overwrite reg entry).1 = .ok () →
        ImportInserts overwrite (importEntry py overwrite reg entry).2 rest)

/-- What the constructor inserts has the property. -/
def RecordsInsert : KeyRegistry → List KeyRecord → Prop
  | _, [] => True
  | reg, r :: rest => Brings P reg r ∧ ∀ reg', reg.insert r = .ok reg' → RecordsInsert reg' rest

/-- The records of the file of a registry, once they are read. -/
def fileRecords : Option Bytes → List KeyRecord
  | none => []
  | some content =>
      match Utf8.decodeStrict content with
      | none => []
      | some text =>
          match loads py.jsonLimit (universalNewlines text) with
          | .error _ => []
          | .ok data =>
              ((documentEntries data).bind fun entries =>
                entries.mapM (KeyRecord.fromDict py)).toOption.getD []

/-- What an import or a load inserts has the property. -/
def Imports (reg : KeyRegistry) : Operation → Prop
  | .importPublic document overwrite =>
      ∀ entries, documentEntries document = .ok entries → ImportInserts py P overwrite reg entries
  | .load content =>
      ∀ loaded, load py content = .ok loaded → RecordsInsert P empty (fileRecords py content)
  | _ => True

/-- What a registration inserts has the property. -/
def Registers (reg : KeyRegistry) : Operation → Prop
  | .register now keyId nodeId publicKey algorithm activatedAt expiresAt makeActive =>
      ∀ record, newRecord py now keyId nodeId publicKey algorithm activatedAt expiresAt makeActive =
        .ok record → Brings P (reg.demoted nodeId makeActive) record
  | .rotate now nodeId newKeyId publicKey algorithm activatedAt expiresAt =>
      ∀ record, newRecord py now newKeyId nodeId publicKey algorithm activatedAt expiresAt true =
        .ok record → Brings P (reg.demoted nodeId true) record
  | _ => True

end Inserts

/-! ## The rule of invariants -/

/-- What the three changes of a registry keep, when inserted records have a property. -/
structure Kept (I : KeyRegistry → Prop) (P : KeyRegistry → KeyRecord → Prop) : Prop where
  empty : I empty
  insert : ∀ {reg reg' : KeyRegistry} {r : KeyRecord}, I reg → P reg r → reg.insert r = .ok reg' →
    I reg'
  without : ∀ {reg : KeyRegistry} (keyId : Str), I reg → I (reg.without keyId)
  setState : ∀ {reg : KeyRegistry} (keyId : Str) {state : KeyState}, state ≠ .active → I reg →
    I (reg.setState keyId state)

namespace Kept

variable {py} {I : KeyRegistry → Prop} {P : KeyRegistry → KeyRecord → Prop} (h : Kept I P)
  {reg : KeyRegistry}

include h

theorem demoted (hreg : I reg) (nodeId : Str) (makeActive : Bool) :
    I (reg.demoted nodeId makeActive) := by
  unfold KeyRegistry.demoted
  split_ifs
  · cases reg.activeKey nodeId with
    | none => exact hreg
    | some previous => exact h.setState _ (by decide) hreg
  · exact hreg

theorem register (hreg : I reg) {now : Instant} {keyId nodeId : Str} {publicKey : Bytes}
    {algorithm : Str} {activatedAt expiresAt : Option Str} {makeActive : Bool}
    (hrecord : ∀ record, newRecord py now keyId nodeId publicKey algorithm activatedAt expiresAt
      makeActive = .ok record → Brings P (reg.demoted nodeId makeActive) record) :
    I (reg.register py now keyId nodeId publicKey algorithm activatedAt expiresAt makeActive).2 := by
  cases hnew : newRecord py now keyId nodeId publicKey algorithm activatedAt expiresAt makeActive with
  | error e =>
      rw [KeyRegistry.register, hnew]
      exact hreg
  | ok record =>
      have hdemoted := h.demoted hreg nodeId makeActive
      obtain ⟨e, -, heq⟩ | ⟨reg', hins, heq⟩ := @register_of_newRecord py reg _ _ _ _ _ _ _ _ _ hnew
      · rw [heq]
        exact hdemoted
      · rw [heq]
        exact h.insert hdemoted (hrecord record hnew reg' hins) hins

theorem importEntry (hreg : I reg) {overwrite : Bool} {entry : Value}
    (hentry : ∀ record, KeyRecord.fromDict py entry = .ok record →
      if record.keyId ∈ reg.records.map KeyRecord.keyId then
        overwrite = true → Brings P (reg.without record.keyId) record
      else Brings P reg record) : I (importEntry py overwrite reg entry).2 := by
  unfold KeyRegistry.importEntry
  cases hfrom : KeyRecord.fromDict py entry with
  | error e => exact hreg
  | ok record =>
      have hrecord := hentry record hfrom
      dsimp only
      split_ifs at hrecord ⊢ with hmem how
      · have hwithout := h.without record.keyId hreg
        change I (match (reg.without record.keyId).insert record with
          | .error e => ((.error e, reg.without record.keyId) : Except Exn Unit × KeyRegistry)
          | .ok reg' => (.ok (), reg')).2
        cases hins : (reg.without record.keyId).insert record with
        | error e => exact hwithout
        | ok reg' => exact h.insert hwithout (hrecord how reg' hins) hins
      · exact hreg
      · cases hins : reg.insert record with
        | error e => exact hreg
        | ok reg' => exact h.insert hreg (hrecord reg' hins) hins

theorem importEntries {overwrite : Bool} {entries : List Value} (hreg : I reg)
    (hentries : ImportInserts py P overwrite reg entries) :
    I (importEntries py overwrite reg entries).2 := by
  induction entries generalizing reg with
  | nil => exact hreg
  | cons entry rest ih =>
      obtain ⟨hentry, hrest⟩ := hentries
      have hone := h.importEntry hreg hentry
      rw [KeyRegistry.importEntries]
      cases hresult : KeyRegistry.importEntry py overwrite reg entry with
      | mk result reg' =>
          rw [hresult] at hone hrest
          cases result with
          | error e => exact hone
          | ok _ => exact ih hone (hrest rfl)

theorem records {records : List KeyRecord} {reg' : KeyRegistry} (hreg : I reg)
    (hrecords : RecordsInsert P reg records) (hfold : records.foldlM KeyRegistry.insert reg = .ok reg') :
    I reg' := by
  induction records generalizing reg with
  | nil =>
      obtain rfl := Except.ok.inj hfold
      exact hreg
  | cons r rest ih =>
      obtain ⟨hr, hrest⟩ := hrecords
      rw [List.foldlM_cons] at hfold
      obtain ⟨next, hnext, hfold⟩ := bind_eq_ok.mp hfold
      exact ih (h.insert hreg (hr next hnext) hnext) (hrest next hnext) hfold

omit h in
/-- A registry that is loaded holds the records of its file. -/
theorem load_eq_ok {content : Option Bytes} {loaded : KeyRegistry}
    (hload : load py content = .ok loaded) :
    (fileRecords py content).foldlM KeyRegistry.insert KeyRegistry.empty = .ok loaded := by
  cases content with
  | none => exact hload
  | some bytes =>
      rw [load] at hload
      split_ifs at hload
      unfold fileRecords
      cases htext : Utf8.decodeStrict bytes with
      | none =>
          rw [htext] at hload
          cases hload
      | some text =>
          rw [htext] at hload
          dsimp only at hload
          cases hdata : loads py.jsonLimit (universalNewlines text) with
          | error e =>
              rw [hdata] at hload
              cases e <;> cases hload
          | ok data =>
              rw [hdata] at hload
              obtain ⟨entries, hentries, hload⟩ := bind_eq_ok.mp hload
              obtain ⟨records, hrecords, hload⟩ := bind_eq_ok.mp hload
              simp only [htext, hdata, hentries, Except.bind, hrecords, Except.toOption,
                Option.getD_some]
              exact hload

/-- An operation keeps an invariant when what it inserts has the property. -/
theorem apply {op : Operation} (hreg : I reg) (himports : Imports py P reg op)
    (hregisters : Registers py P reg op) : I (apply py reg op) := by
  cases op with
  | register now keyId nodeId publicKey algorithm activatedAt expiresAt makeActive =>
      exact h.register hreg hregisters
  | rotate now nodeId newKeyId publicKey algorithm activatedAt expiresAt =>
      simp only [KeyRegistry.apply, KeyRegistry.rotate]
      split_ifs
      · exact hreg
      · exact h.register hreg hregisters
  | revoke keyId reason =>
      simp only [KeyRegistry.apply, KeyRegistry.revoke]
      split_ifs
      · exact hreg
      · exact hreg
      · exact h.setState _ (by decide) hreg
  | disable keyId =>
      simp only [KeyRegistry.apply, KeyRegistry.disable]
      split_ifs
      · exact hreg
      · exact h.setState _ (by decide) hreg
  | importPublic document overwrite =>
      simp only [KeyRegistry.apply, KeyRegistry.importPublic]
      cases hentries : documentEntries document with
      | error e => exact hreg
      | ok entries => exact h.importEntries hreg (himports entries hentries)
  | load content =>
      simp only [KeyRegistry.apply]
      cases hload : KeyRegistry.load py content with
      | error e => exact hreg
      | ok loaded => exact h.records h.empty (himports loaded hload) (load_eq_ok hload)

end Kept

/-- Every step of a run meets a condition on the registry before it. -/
def Throughout (C : KeyRegistry → Operation → Prop) : KeyRegistry → List Operation → Prop
  | _, [] => True
  | reg, op :: rest => C reg op ∧ Throughout C (apply py reg op) rest

/-- What every step keeps, a run keeps. -/
theorem run_invariant {I : KeyRegistry → Prop} {C : KeyRegistry → Operation → Prop}
    (hstep : ∀ reg op, I reg → C reg op → I (apply py reg op)) {reg : KeyRegistry}
    {ops : List Operation} (hreg : I reg) (hops : Throughout py C reg ops) :
    I (run py reg ops) := by
  induction ops generalizing reg with
  | nil => exact hreg
  | cons op rest ih => exact ih (hstep reg op hreg hops.1) hops.2

/-! ## One active key for a node -/

/-- No node has two active keys. -/
def OneActive (reg : KeyRegistry) : Prop :=
  ∀ r ∈ reg.records, ∀ s ∈ reg.records, r.nodeId = s.nodeId → r.state = .active →
    s.state = .active → r.keyId = s.keyId

/-- If the record is active, the registry holds no active key of its node. -/
def Unrivalled (reg : KeyRegistry) (r : KeyRecord) : Prop :=
  r.state = .active → ∀ s ∈ reg.records, s.nodeId = r.nodeId → s.state ≠ .active

theorem insert_eq_ok {reg reg' : KeyRegistry} {r : KeyRecord} (h : reg.insert r = .ok reg') :
    r.keyId ∉ reg.records.map KeyRecord.keyId ∧
      (∀ s ∈ reg.records, s.publicKey ≠ r.publicKey) ∧ reg'.records = reg.records ++ [r] := by
  unfold insert at h
  split_ifs at h with hid hkey
  obtain rfl := Except.ok.inj h
  refine ⟨hid, ?_, rfl⟩
  intro s hs heq
  apply hkey
  rw [List.any_eq_true]
  exact ⟨s, hs, decide_eq_true heq⟩

theorem oneActive_kept : Kept OneActive Unrivalled where
  empty := fun r hr => absurd hr List.not_mem_nil
  insert := by
    intro reg reg' r hreg hr hins
    obtain ⟨-, -, hrecords⟩ := insert_eq_ok hins
    intro a ha b hb hnode hactive hactive'
    rw [hrecords] at ha hb
    rcases List.mem_append.mp ha with ha | ha
    · rcases List.mem_append.mp hb with hb | hb
      · exact hreg a ha b hb hnode hactive hactive'
      · rw [List.mem_singleton.mp hb] at hnode hactive'
        exact absurd hactive (hr hactive' a ha hnode)
    · rcases List.mem_append.mp hb with hb | hb
      · rw [List.mem_singleton.mp ha] at hnode hactive
        exact absurd hactive' (hr hactive b hb hnode.symm)
      · rw [List.mem_singleton.mp ha, List.mem_singleton.mp hb]
  without := by
    intro reg keyId hreg a ha b hb
    exact hreg a (List.mem_filter.mp ha).1 b (List.mem_filter.mp hb).1
  setState := by
    intro reg keyId state hstate hreg a ha b hb hnode hactive hactive'
    obtain ⟨a', ha', rfl⟩ := List.mem_map.mp ha
    obtain ⟨b', hb', rfl⟩ := List.mem_map.mp hb
    split_ifs at hnode hactive hactive' ⊢
    · exact absurd hactive hstate
    · exact absurd hactive hstate
    · exact absurd hactive' hstate
    · exact hreg a' ha' b' hb' hnode hactive hactive'

theorem mem_forNode {reg : KeyRegistry} {nodeId : Str} {r : KeyRecord} :
    r ∈ reg.forNode nodeId ↔ r ∈ reg.records ∧ r.nodeId = nodeId := by
  rw [forNode, List.mem_insertionSort, List.mem_filter, decide_eq_true_eq]

/-- With one active key at most, registration demotes it. -/
theorem demoted_inactive {reg : KeyRegistry} (hreg : OneActive reg) (nodeId : Str) :
    ∀ s ∈ (reg.demoted nodeId true).records, s.nodeId = nodeId → s.state ≠ .active := by
  intro s hs hnode hactive
  rw [demoted, if_pos rfl] at hs
  cases hkey : reg.activeKey nodeId with
  | none =>
      rw [hkey] at hs
      have hnone := List.find?_eq_none.mp hkey s (mem_forNode.mpr ⟨hs, hnode⟩)
      exact hnone (decide_eq_true hactive)
  | some previous =>
      rw [hkey] at hs
      have hprevious : previous.state = .active := by
        have hfound := List.find?_some (p := fun r : KeyRecord => decide (r.state = .active)) hkey
        exact of_decide_eq_true hfound
      obtain ⟨hmem, hprevnode⟩ := mem_forNode.mp (List.mem_of_find?_eq_some hkey)
      obtain ⟨s', hs', rfl⟩ := List.mem_map.mp hs
      by_cases hid : s'.keyId = previous.keyId
      · rw [if_pos hid] at hactive
        cases hactive
      · rw [if_neg hid] at hnode hactive
        exact hid (hreg s' hs' previous hmem (hnode.trans hprevnode.symm) hactive hprevious)

/-- A public key that is read is the text itself, which decodes. -/
theorem readPublicKey_eq_ok {py : Interp} {s t : Str}
    (h : KeyRecord.readPublicKey py (.str s) = .ok t) : t = s ∧ ∃ b, py.b64decode s = some b := by
  rw [KeyRecord.readPublicKey] at h
  cases hd : py.b64decode s with
  | none =>
      rw [hd] at h
      cases h
  | some b =>
      rw [hd] at h
      exact ⟨(Except.ok.inj h).symm, b, rfl⟩

theorem readState_text (state : KeyState) : KeyRecord.readState (some (.str state.text)) = .ok state := by
  cases state <;> decide

/-- The record that `register` makes is of the given key and node, with the encoding of the
bytes. -/
theorem newRecord_eq_ok {now : Instant} {keyId nodeId : Str} {publicKey : Bytes} {algorithm : Str}
    {activatedAt expiresAt : Option Str} {makeActive : Bool} {record : KeyRecord}
    (h : newRecord py now keyId nodeId publicKey algorithm activatedAt expiresAt makeActive =
      .ok record) :
    record.keyId = keyId ∧ record.nodeId = nodeId ∧ record.publicKey = Base64.encode publicKey ∧
      record.state = if makeActive then .active else .disabled := by
  obtain ⟨-, -, h⟩ := bind_eq_ok.mp h
  obtain ⟨-, -, h⟩ := bind_eq_ok.mp h
  obtain ⟨activated, -, h⟩ := bind_eq_ok.mp h
  obtain ⟨expires, -, h⟩ := bind_eq_ok.mp h
  unfold newDocument Value.ofMembers at h
  rw [KeyRecord.fromDict] at h
  obtain ⟨-, -, h⟩ := bind_eq_ok.mp h
  obtain ⟨keyId', hkey, h⟩ := bind_eq_ok.mp h
  obtain ⟨nodeId', hnode, h⟩ := bind_eq_ok.mp h
  obtain ⟨algorithm', -, h⟩ := bind_eq_ok.mp h
  obtain ⟨state, hstate, h⟩ := bind_eq_ok.mp h
  obtain ⟨-, -, h⟩ := bind_eq_ok.mp h
  obtain ⟨publicKey', hpublic, h⟩ := bind_eq_ok.mp h
  obtain ⟨-, -, h⟩ := bind_eq_ok.mp h
  obtain ⟨activatedAt', -, h⟩ := bind_eq_ok.mp h
  obtain ⟨expiresAt', -, h⟩ := bind_eq_ok.mp h
  obtain rfl := Except.ok.inj h
  have hident : ∀ s t, KeyRecord.readIdentifier (.str s) = .ok t → t = s := by
    intro s t ht
    obtain ⟨-, -, ht⟩ := bind_eq_ok.mp ht
    exact (Except.ok.inj ht).symm
  refine ⟨hident _ _ hkey, hident _ _ hnode, ?_, ?_⟩
  · exact (readPublicKey_eq_ok hpublic).1
  · have htext := readState_text (if makeActive then .active else .disabled)
    exact Except.ok.inj (hstate.symm.trans htext)

theorem unrivalled_newRecord {reg : KeyRegistry} (hreg : OneActive reg) {now : Instant}
    {keyId nodeId : Str} {publicKey : Bytes} {algorithm : Str} {activatedAt expiresAt : Option Str}
    {makeActive : Bool} {record : KeyRecord}
    (h : newRecord py now keyId nodeId publicKey algorithm activatedAt expiresAt makeActive =
      .ok record) : Unrivalled (reg.demoted nodeId makeActive) record := by
  obtain ⟨-, hnode, -, hstate⟩ := newRecord_eq_ok py h
  intro hactive s hs hs'
  cases makeActive with
  | true => exact demoted_inactive hreg nodeId s hs (hs'.trans hnode)
  | false =>
      rw [hstate] at hactive
      cases hactive

/-- An operation keeps one active key for every node, when what it imports has no rival. -/
theorem oneActive_apply {reg : KeyRegistry} {op : Operation} (hreg : OneActive reg)
    (hop : Imports py Unrivalled reg op) : OneActive (apply py reg op) := by
  apply oneActive_kept.apply hreg hop
  cases op with
  | register now keyId nodeId publicKey algorithm activatedAt expiresAt makeActive =>
      exact fun record hrecord _ _ => unrivalled_newRecord py hreg hrecord
  | rotate now nodeId newKeyId publicKey algorithm activatedAt expiresAt =>
      exact fun record hrecord _ _ => unrivalled_newRecord py hreg hrecord
  | _ => trivial

theorem throughout_before {C : KeyRegistry → Operation → Prop} {reg : KeyRegistry}
    {ops more : List Operation} (h : Throughout py C reg (ops ++ more)) : Throughout py C reg ops := by
  induction ops generalizing reg with
  | nil => trivial
  | cons op rest ih => exact ⟨h.1, ih h.2⟩

/-- In a run from the empty registry in which no import and no load inserts an active key beside
another active key of its node, every registry on the way has one active key for a node. -/
theorem oneActive_run (ops : List Operation)
    (h : Throughout py (Imports py Unrivalled) empty ops) {before after : List Operation}
    (hsplit : ops = before ++ after) : OneActive (run py empty before) := by
  subst hsplit
  exact run_invariant py (fun reg op hreg hop => oneActive_apply py hreg hop) oneActive_kept.empty
    (throughout_before py h)

/-- An entry for an active key of node `n`. -/
def activeEntry (keyId publicKey : Str) : Value :=
  Value.ofMembers
    [(lit "key_id", .str keyId), (lit "node_id", .str (lit "n")),
     (lit "algorithm", .str (lit "ML-DSA-65")), (lit "public_key", .str publicKey),
     (lit "created_at", .str (lit "2026-01-01T00:00:00.000000Z")),
     (lit "activated_at", .str (lit "2026-01-01T00:00:00.000000Z"))]

/-- A registry document. -/
def keysDocument (entries : List Value) : Value :=
  Value.ofMembers
    [(lit "format_version", .str registryFormatVersion), (lit "keys", .list entries)]

theorem documentEntries_keysDocument (entries : List Value) :
    documentEntries (keysDocument entries) = .ok entries := rfl

/-- An import, a registration and a rotation, and an import that is refused: its active key is
the first key under another identifier. -/
def sampleOperations : List Operation :=
  [.importPublic (keysDocument [activeEntry (lit "a") (lit "AQ==")]) false,
   .register .first (lit "b") (lit "n") [2] (lit "ML-DSA-65") none none true,
   .rotate .first (lit "n") (lit "c") [3] (lit "ML-DSA-65") none none,
   .importPublic (keysDocument [activeEntry (lit "d") (lit "AQ==")]) false]

/-- The public keys of a registry, as texts. -/
def publicKeys (reg : KeyRegistry) : List Str := reg.records.map KeyRecord.publicKey

set_option maxRecDepth 100000 in
/-- The registry holds the same three keys before and after the import that is refused. -/
theorem publicKeys_sampleOperations :
    publicKeys (run .reference empty (sampleOperations.take 1)) = [lit "AQ=="] ∧
      publicKeys (run .reference empty (sampleOperations.take 2)) = [lit "AQ==", lit "Ag=="] ∧
      publicKeys (run .reference empty (sampleOperations.take 3)) =
        [lit "AQ==", lit "Ag==", lit "Aw=="] := by
  decide +kernel

set_option maxRecDepth 100000 in
theorem fromDict_activeEntry (record : KeyRecord)
    (h : KeyRecord.fromDict .reference (activeEntry (lit "d") (lit "AQ==")) = .ok record) :
    record.publicKey = lit "AQ==" := by
  have hentry : (KeyRecord.fromDict .reference
      (activeEntry (lit "d") (lit "AQ=="))).toOption.map KeyRecord.publicKey =
        some (lit "AQ==") := by
    decide +kernel
  rw [h] at hentry
  exact Option.some.inj hentry

/-- An import of one new entry asks for the property of its record alone. -/
theorem imports_one {P : KeyRegistry → KeyRecord → Prop} {reg : KeyRegistry} {entry : Value}
    (h : ∀ record, KeyRecord.fromDict py entry = .ok record → Brings P reg record) :
    Imports py P reg (.importPublic (keysDocument [entry]) false) := by
  intro entries hentries
  obtain rfl := Except.ok.inj ((documentEntries_keysDocument _).symm.trans hentries)
  refine ⟨fun record hrecord => ?_, fun _ => trivial⟩
  split_ifs
  · exact fun how => how.elim
  · exact h record hrecord

/-- The last import of the sample inserts nothing. -/
theorem imports_refused (P : KeyRegistry → KeyRecord → Prop) :
    Imports .reference P (run .reference empty (sampleOperations.take 3))
      (.importPublic (keysDocument [activeEntry (lit "d") (lit "AQ==")]) false) := by
  refine imports_one .reference fun record hrecord reg' hins => ?_
  obtain ⟨-, hkeys, -⟩ := insert_eq_ok hins
  have hmem : lit "AQ==" ∈ publicKeys (run .reference empty (sampleOperations.take 3)) := by
    rw [publicKeys_sampleOperations.2.2]
    exact List.mem_cons_self
  obtain ⟨s, hs, hkey⟩ := List.mem_map.mp hmem
  exact absurd (hkey.trans (fromDict_activeEntry record hrecord).symm) (hkeys s hs)

theorem oneActive_sampleOperations :
    Throughout .reference (Imports .reference Unrivalled) empty sampleOperations ∧
      OneActive (run .reference empty sampleOperations) := by
  have hops : Throughout .reference (Imports .reference Unrivalled) empty sampleOperations := by
    refine ⟨?_, trivial, trivial, imports_refused _, trivial⟩
    exact imports_one .reference fun record _ _ _ _ s hs => absurd hs List.not_mem_nil
  exact ⟨hops, oneActive_run .reference sampleOperations hops (List.append_nil _).symm⟩

/-- Two active keys of one node in one document. -/
def rivalDocument : Value :=
  keysDocument [activeEntry (lit "a") (lit "AQ=="), activeEntry (lit "b") (lit "Ag==")]

set_option maxRecDepth 100000 in
/-- An import leaves a node with two active keys. -/
theorem import_leaves_rivals :
    ¬ OneActive (run .reference empty [.importPublic rivalDocument false]) := by
  have hrecords : (run .reference empty [.importPublic rivalDocument false]).records.map
      (fun r => (r.keyId, r.nodeId, r.state)) =
        [(lit "a", lit "n", .active), (lit "b", lit "n", .active)] := by
    decide +kernel
  intro h
  have hmem : ∀ x ∈ [(lit "a", lit "n", KeyState.active), (lit "b", lit "n", .active)],
      ∃ r ∈ (run .reference empty [.importPublic rivalDocument false]).records,
        (r.keyId, r.nodeId, r.state) = x := by
    intro x hx
    rw [← hrecords] at hx
    exact List.mem_map.mp hx
  obtain ⟨r, hr, hra⟩ := hmem _ List.mem_cons_self
  obtain ⟨s, hs, hsb⟩ := hmem _ (List.mem_cons_of_mem _ List.mem_cons_self)
  simp only [Prod.mk.injEq] at hra hsb
  have hsame := h r hr s hs (hra.2.1.trans hsb.2.1.symm) hra.2.2 hsb.2.2
  rw [hra.1, hsb.1] at hsame
  exact absurd hsame (by decide)

/-! ## One identifier for a public key -/

end IcsDeception.KeyRegistry
