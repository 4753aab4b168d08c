import IcsDeception.KeyTable

/-!
# What a refused registration leaves behind

Registration checks its arguments, marks the active key of the node as rotated and then
inserts the new record. The insertion has checks of its own, on the identifier and on the
public key, and a registration that they refuse has already demoted the active key.
-/

namespace IcsDeception.KeyTable

open Text Calendar

variable {copyLimit : Nat} {py : Interp}

/-- A call of `register` or of `rotate`. -/
inductive Enrolment
  | register (keyId nodeId : Str) (publicKey : Bytes) (algorithm : Str)
      (activatedAt expiresAt : Option Str) (metadata : RegisteredKey.Metadata) (makeActive : Bool)
  | rotate (nodeId newKeyId : Str) (publicKey : Bytes) (algorithm : Str)
      (activatedAt expiresAt : Option Str) (metadata : RegisteredKey.Metadata)

namespace Enrolment

/-- The call, at a moment. -/
def perform (copyLimit : Nat) (py : Interp) (now : Instant) :
    Enrolment → KeyTable → Except Exn RegisteredKey × KeyTable
  | .register keyId nodeId publicKey algorithm activatedAt expiresAt metadata makeActive, t =>
      t.register copyLimit py now keyId nodeId publicKey algorithm activatedAt expiresAt metadata
        makeActive
  | .rotate nodeId newKeyId publicKey algorithm activatedAt expiresAt metadata, t =>
      t.rotate copyLimit py now nodeId newKeyId publicKey algorithm activatedAt expiresAt metadata

/-- The identifier of the new key. -/
def keyId : Enrolment → Str
  | .register keyId .. => keyId
  | .rotate _ newKeyId .. => newKeyId

/-- The node of the new key. -/
def nodeId : Enrolment → Str
  | .register _ nodeId .. => nodeId
  | .rotate nodeId .. => nodeId

/-- The bytes of the new key. -/
def publicKey : Enrolment → Bytes
  | .register _ _ publicKey .. => publicKey
  | .rotate _ _ publicKey .. => publicKey

/-- Whether the new key is to be the active one. -/
def makeActive : Enrolment → Bool
  | .register _ _ _ _ _ _ _ makeActive => makeActive
  | .rotate .. => true

/-- The arguments pass the checks that come before any change. -/
def Checked (copyLimit : Nat) (py : Interp) (now : Instant) : Enrolment → Prop
  | .register keyId nodeId publicKey algorithm activatedAt expiresAt metadata makeActive =>
      ∃ r, RegisteredKey.newRecord copyLimit py now keyId nodeId publicKey algorithm activatedAt
        expiresAt metadata makeActive = .ok r
  | .rotate nodeId newKeyId publicKey algorithm activatedAt expiresAt metadata =>
      ∃ r, RegisteredKey.newRecord copyLimit py now newKeyId nodeId publicKey algorithm activatedAt
        expiresAt metadata true = .ok r

/-- An identity of the new key is taken. -/
def Taken (t : KeyTable) (e : Enrolment) : Prop :=
  e.keyId ∈ (t.keys.map fun r => r.keyId) ∨
    Base64.encode e.publicKey ∈ t.keys.map fun r => r.publicKey

/-- If the call raises, every record is as it was before. -/
def HarmlessIfRaised (copyLimit : Nat) (py : Interp) (now : Instant) (t : KeyTable)
    (e : Enrolment) : Prop :=
  ∀ x, (e.perform copyLimit py now t).1 = .error x → (e.perform copyLimit py now t).2 = t

end Enrolment

theorem demoted_of_none {t : KeyTable} {nodeId : Str} {makeActive : Bool}
    (h : makeActive = true → t.activeKey nodeId = none) : t.demoted nodeId makeActive = t := by
  unfold demoted
  cases makeActive with
  | false => rfl
  | true =>
      rw [h rfl]
      rfl

/-- Without its active key a node is in another state than before. -/
theorem demoted_ne {t : KeyTable} {nodeId : Str} {previous : RegisteredKey}
    (h : t.activeKey nodeId = some previous) : t.demoted nodeId true ≠ t := by
  obtain ⟨hmem, -, hactive⟩ := activeKey_eq_some h
  have hdemoted : t.demoted nodeId true = t.setState previous.keyId .rotated := by
    rw [demoted, if_pos rfl, h]
  intro hsame
  have hrotated : { previous with state := .rotated } ∈ (t.demoted nodeId true).keys := by
    rw [hdemoted]
    exact List.mem_map.mpr ⟨previous, hmem, if_pos rfl⟩
  rw [hsame] at hrotated
  have heq := List.inj_on_of_nodup_map t.nodup hrotated hmem rfl
  have hstate : KeyState.rotated = previous.state := congrArg (fun r => r.state) heq
  rw [hactive] at hstate
  cases hstate

/-- The identities of a table do not change when a key is demoted. -/
theorem demoted_identities (t : KeyTable) (nodeId : Str) (makeActive : Bool) :
    (t.demoted nodeId makeActive).keys.map (fun r => r.keyId) = t.keys.map (fun r => r.keyId) ∧
      (t.demoted nodeId makeActive).keys.map (fun r => r.publicKey) =
        t.keys.map fun r => r.publicKey := by
  have hkept : ∀ keyId state, (t.setState keyId state).keys.map (fun r => r.keyId) =
        t.keys.map (fun r => r.keyId) ∧
      (t.setState keyId state).keys.map (fun r => r.publicKey) = t.keys.map fun r => r.publicKey := by
    intro keyId state
    simp only [setState, modify, List.map_map]
    constructor
    · apply List.map_congr_left
      intro r _
      simp only [Function.comp_apply]
      split_ifs
      · rfl
      · rfl
    · apply List.map_congr_left
      intro r _
      simp only [Function.comp_apply]
      split_ifs
      · rfl
      · rfl
  unfold demoted
  split_ifs
  · cases t.activeKey nodeId with
    | none => exact ⟨rfl, rfl⟩
    | some previous => exact hkept previous.keyId .rotated
  · exact ⟨rfl, rfl⟩

/-- A checked registration is refused when an identity is taken, and only then. -/
theorem register_cases {t : KeyTable} {now : Instant} {keyId nodeId : Str} {publicKey : Bytes}
    {algorithm : Str} {activatedAt expiresAt : Option Str} {metadata : RegisteredKey.Metadata}
    {makeActive : Bool} {r : RegisteredKey}
    (hnew : RegisteredKey.newRecord copyLimit py now keyId nodeId publicKey algorithm activatedAt
      expiresAt metadata makeActive = .ok r) :
    ((keyId ∈ (t.keys.map fun r => r.keyId) ∨
        Base64.encode publicKey ∈ t.keys.map fun r => r.publicKey) ∧
      t.register copyLimit py now keyId nodeId publicKey algorithm activatedAt expiresAt metadata
        makeActive = (.error .keyRegistry, t.demoted nodeId makeActive)) ∨
    (¬ (keyId ∈ (t.keys.map fun r => r.keyId) ∨
        Base64.encode publicKey ∈ t.keys.map fun r => r.publicKey) ∧
      ∃ t', t.register copyLimit py now keyId nodeId publicKey algorithm activatedAt expiresAt
        metadata makeActive = (.ok r, t')) := by
  obtain ⟨hid, -, hkey, -⟩ := KeyRegistry.newRecord_eq_ok py (newRecord_record hnew)
  obtain ⟨hids, hkeys⟩ := demoted_identities t nodeId makeActive
  rw [← hids, ← hkeys, ← hid, ← hkey]
  unfold register
  rw [hid, hnew]
  dsimp only
  by_cases htaken : keyId ∈ ((t.demoted nodeId makeActive).keys.map fun r => r.keyId) ∨
      r.publicKey ∈ (t.demoted nodeId makeActive).keys.map fun r => r.publicKey
  · left
    rw [← hid] at htaken
    rw [insert_of_taken htaken]
    exact ⟨hid ▸ htaken, rfl⟩
  · right
    refine ⟨htaken, ?_⟩
    cases hins : (t.demoted nodeId makeActive).insert r with
    | error e => exact absurd (hid ▸ insert_eq_error hins) htaken
    | ok t' => exact ⟨t', rfl⟩

/-- A refused registration changes nothing, unless its arguments pass the checks, the key is to
be active, the node has an active key, and the identifier or the public key is taken. -/
theorem register_harmless_iff {t : KeyTable} {now : Instant} {keyId nodeId : Str}
    {publicKey : Bytes} {algorithm : Str} {activatedAt expiresAt : Option Str}
    {metadata : RegisteredKey.Metadata} {makeActive : Bool} :
    (Enrolment.register keyId nodeId publicKey algorithm activatedAt expiresAt metadata
        makeActive).HarmlessIfRaised copyLimit py now t ↔
      ¬ ((∃ r, RegisteredKey.newRecord copyLimit py now keyId nodeId publicKey algorithm
          activatedAt expiresAt metadata makeActive = .ok r) ∧ makeActive = true ∧
        (t.activeKey nodeId).isSome ∧
        (keyId ∈ (t.keys.map fun r => r.keyId) ∨
          Base64.encode publicKey ∈ t.keys.map fun r => r.publicKey)) := by
  constructor
  · rintro h ⟨⟨r, hnew⟩, rfl, hactive, htaken⟩
    obtain ⟨previous, hprevious⟩ := Option.isSome_iff_exists.mp hactive
    rcases @register_cases copyLimit py t _ _ _ _ _ _ _ _ _ _ hnew with ⟨-, heq⟩ | ⟨hfree, -⟩
    · have hsame : (t.register copyLimit py now keyId nodeId publicKey algorithm activatedAt
          expiresAt metadata true).2 = t := h .keyRegistry (congrArg Prod.fst heq)
      rw [heq] at hsame
      exact demoted_ne hprevious hsame
    · exact hfree htaken
  · intro h x hx
    simp only [Enrolment.perform] at hx ⊢
    cases hnew : RegisteredKey.newRecord copyLimit py now keyId nodeId publicKey algorithm
        activatedAt expiresAt metadata makeActive with
    | error e =>
        rw [register, hnew]
    | ok r =>
        rcases @register_cases copyLimit py t _ _ _ _ _ _ _ _ _ _ hnew with
          ⟨htaken, heq⟩ | ⟨-, t', heq⟩
        · rw [heq]
          apply demoted_of_none
          intro hmake
          by_contra hactive
          exact h ⟨⟨r, hnew⟩, hmake, Option.isSome_iff_ne_none.mpr hactive, htaken⟩
        · rw [heq] at hx
          cases hx

/-- A call that raises changes no record, unless it demotes the active key before it finds an
identity of the new key taken. -/
theorem enrolment_harmless_iff (t : KeyTable) (now : Instant) (e : Enrolment) :
    e.HarmlessIfRaised copyLimit py now t ↔
      ¬ (e.Checked copyLimit py now ∧ e.makeActive = true ∧ (t.activeKey e.nodeId).isSome ∧
        e.Taken t) := by
  cases e with
  | register keyId nodeId publicKey algorithm activatedAt expiresAt metadata makeActive =>
      exact register_harmless_iff
  | rotate nodeId newKeyId publicKey algorithm activatedAt expiresAt metadata =>
      have hregister := @register_harmless_iff copyLimit py t now newKeyId nodeId publicKey algorithm
        activatedAt expiresAt metadata true
      by_cases hknown : ((t.activeKey nodeId).isNone && (t.forNode nodeId).isEmpty) = true
      · have hnone : (t.activeKey nodeId).isSome = false := by
          rw [Bool.and_eq_true] at hknown
          rw [Option.isNone_iff_eq_none.mp hknown.1]
          rfl
        constructor
        · rintro - ⟨-, -, hsome, -⟩
          change (t.activeKey nodeId).isSome = true at hsome
          rw [hnone] at hsome
          cases hsome
        · intro _ x _
          simp only [Enrolment.perform, rotate]
          rw [if_pos hknown]
      · have hsame : (Enrolment.rotate nodeId newKeyId publicKey algorithm activatedAt expiresAt
            metadata).HarmlessIfRaised copyLimit py now t ↔
            (Enrolment.register newKeyId nodeId publicKey algorithm activatedAt expiresAt metadata
              true).HarmlessIfRaised copyLimit py now t := by
          unfold Enrolment.HarmlessIfRaised
          simp only [Enrolment.perform, rotate]
          rw [if_neg hknown]
        exact hsame.trans hregister

/-- A table with one active key, under the name `a`. -/
def oneKey : KeyTable :=
  run 1000 .reference empty
    [.register .first (lit "a") (lit "n") [1] (lit "ML-DSA-65") none none .empty true]

/-- A rotation to a key identifier that is in use. -/
def reusedName : Enrolment := .rotate (lit "n") (lit "a") [2] (lit "ML-DSA-65") none none .empty

set_option maxRecDepth 100000 in
/-- A rotation that is refused leaves the node without its active key. -/
theorem refused_rotation_demotes : ¬ ∀ (ops : List Operation) (e : Enrolment),
    e.HarmlessIfRaised 1000 .reference .first (run 1000 .reference empty ops) := by
  intro h
  have hraised : (reusedName.perform 1000 .reference .first oneKey).1.toOption.isNone = true := by
    decide +kernel
  have hstates : ((reusedName.perform 1000 .reference .first oneKey).2.keys.map fun r => r.state) ≠
      oneKey.keys.map fun r => r.state := by
    decide +kernel
  cases hresult : (reusedName.perform 1000 .reference .first oneKey).1 with
  | error x =>
      exact hstates (congrArg (fun t => t.keys.map fun r => r.state) (h _ reusedName x hresult))
  | ok r =>
      rw [hresult] at hraised
      cases hraised

end IcsDeception.KeyTable
