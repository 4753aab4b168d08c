import IcsDeception.KeyLifecycle

/-!
# What rotation does to the key it replaces

Rotation marks the old key as rotated, but the check of a key does not look at that state.
The old key is refused after the activation of the new one only by its own window or
algorithm, and before it nothing changes.
-/

namespace IcsDeception.KeyRegistry

open Text Json Calendar

variable {py : Interp}

/-- The moment lies in the validity window of a record. -/
def InWindow (py : Interp) (r : KeyRecord) (moment : Instant) : Prop :=
  (∀ i, parseTime py r.activatedAt = .ok i → i.micros ≤ moment.micros) ∧
    ∀ t i, r.expiresAt = some t → parseTime py t = .ok i → moment.micros ≤ i.micros

/-- A state that the check of a key does not look at. -/
def Silent (state : KeyState) : Prop := state = .active ∨ state = .rotated

theorem Silent.not_expired {state : KeyState} (h : Silent state) :
    decide (state = .expired) = false := by
  rcases h with rfl | rfl
  · rfl
  · rfl

theorem Silent.not_withdrawn {state : KeyState} (h : Silent state) :
    decide (state = .revoked) = false ∧ decide (state = .disabled) = false := by
  rcases h with rfl | rfl
  · exact ⟨rfl, rfl⟩
  · exact ⟨rfl, rfl⟩

theorem alertIf_eq_nil {condition : Bool} {alert : Alert} :
    alertIf condition alert = [] ↔ condition = false := by
  cases condition <;> simp [alertIf]

theorem standingProblems_silent {r : KeyRecord} (hr : Silent r.state) {nodeId : Str}
    (algorithm : SignatureAlgorithm) (hnode : r.nodeId = nodeId) :
    standingProblems r nodeId algorithm =
      alertIf (r.algorithm ≠ algorithm) .unsupportedAlgorithm := by
  obtain ⟨hrevoked, hdisabled⟩ := hr.not_withdrawn
  simp only [standingProblems, hnode, hrevoked, hdisabled, alertIf, ne_eq, not_true, decide_false,
    Bool.false_eq_true, if_false, List.nil_append, List.append_nil]

/-- The alert of an expiry before a moment. -/
def lateAlert (py : Interp) (r : KeyRecord) (moment : Instant) : List Alert :=
  match r.expiresAt with
  | none => []
  | some t =>
      match parseTime py t with
      | .error _ => []
      | .ok expires => alertIf (expires.micros < moment.micros) .expiredKey

theorem expiryProblems_silent {r : KeyRecord} (hdates : r.DatesRead py) (hsilent : Silent r.state)
    (moment : Instant) (problems : List Alert) :
    expiryProblems py r moment problems = .ok (problems ++ lateAlert py r moment) := by
  unfold expiryProblems lateAlert
  rw [hsilent.not_expired]
  cases hexp : r.expiresAt with
  | none =>
      simp only [Bool.false_and]
      change Except.ok (_ ++ []) = _
      rfl
  | some t =>
      obtain ⟨expires, hexpires⟩ := hdates.2 t hexp
      simp only [hexpires, Bool.false_and]
      change Except.ok (_ ++ []) = _
      rw [List.append_nil]

theorem lateAlert_eq_nil {r : KeyRecord} (hdates : r.DatesRead py) (moment : Instant) :
    lateAlert py r moment = [] ↔
      ∀ t i, r.expiresAt = some t → parseTime py t = .ok i → moment.micros ≤ i.micros := by
  unfold lateAlert
  cases hexp : r.expiresAt with
  | none =>
      constructor
      · intro _ t i ht
        cases ht
      · intro _
        rfl
  | some t =>
      obtain ⟨expires, hexpires⟩ := hdates.2 t hexp
      simp only [hexpires, alertIf_eq_nil, decide_eq_false_iff_not, not_lt]
      constructor
      · intro hle t' i ht hi
        obtain rfl := Option.some.inj ht
        rw [← Except.ok.inj (hexpires.symm.trans hi)]
        exact hle
      · intro hall
        exact hall t expires rfl hexpires

/-- The check of a key of the node at a readable moment. -/
theorem checkUsable_silent {reg : KeyRegistry} {keyId : Str} {r : KeyRecord}
    (hget : reg.get keyId = some r) (hdates : r.DatesRead py) (hsilent : Silent r.state)
    {nodeId : Str} (hnode : r.nodeId = nodeId) {at_ : Str} {moment : Instant}
    (hat : parseTime py at_ = .ok moment) (algorithm : SignatureAlgorithm) :
    ∃ u, reg.checkUsable py keyId nodeId at_ algorithm = .ok u ∧
      (u.usable = true ↔ r.algorithm = algorithm ∧ InWindow py r moment) := by
  obtain ⟨activated, hactivated⟩ := hdates.1
  have hwindow : windowProblems py r at_ (standingProblems r nodeId algorithm) =
      .ok (alertIf (r.algorithm ≠ algorithm) .unsupportedAlgorithm ++
        alertIf (moment.micros < activated.micros) .unknownKey ++ lateAlert py r moment) := by
    unfold windowProblems
    rw [hat, hactivated, standingProblems_silent hsilent algorithm hnode]
    dsimp only
    rw [expiryProblems_silent hdates hsilent]
  have hearly : (∀ i, parseTime py r.activatedAt = .ok i → i.micros ≤ moment.micros) ↔
      activated.micros ≤ moment.micros := by
    constructor
    · intro hall
      exact hall activated hactivated
    · intro hle i hi
      rw [← Except.ok.inj (hactivated.symm.trans hi)]
      exact hle
  unfold checkUsable
  rw [hget]
  dsimp only
  rw [hwindow]
  refine ⟨_, rfl, ?_⟩
  rw [List.isEmpty_iff, List.append_eq_nil_iff, List.append_eq_nil_iff, alertIf_eq_nil,
    alertIf_eq_nil, lateAlert_eq_nil hdates, InWindow, hearly, decide_eq_false_iff_not,
    decide_eq_false_iff_not, not_not, not_lt, and_assoc]

/-! ## The registry after a rotation -/

theorem get_eq_some {reg : KeyRegistry} {keyId : Str} {r : KeyRecord} :
    reg.get keyId = some r ↔ r ∈ reg.records ∧ r.keyId = keyId := by
  constructor
  · intro h
    have hfound := List.find?_some (p := fun r : KeyRecord => decide (r.keyId = keyId)) h
    exact ⟨List.mem_of_find?_eq_some h, of_decide_eq_true hfound⟩
  · rintro ⟨hmem, hid⟩
    cases hget : reg.get keyId with
    | none => exact absurd (decide_eq_true hid) (List.find?_eq_none.mp hget r hmem)
    | some s =>
        have hfound := List.find?_some (p := fun r : KeyRecord => decide (r.keyId = keyId)) hget
        have hs : s ∈ reg.records := List.mem_of_find?_eq_some hget
        have hids : s.keyId = r.keyId := (of_decide_eq_true hfound).trans hid.symm
        rw [List.inj_on_of_nodup_map reg.nodup hs hmem hids]

theorem get_setState {reg : KeyRegistry} {keyId other : Str} {state : KeyState} {r : KeyRecord}
    (h : reg.get keyId = some r) :
    (reg.setState other state).get keyId =
      some (if r.keyId = other then { r with state } else r) := by
  obtain ⟨hmem, hid⟩ := get_eq_some.mp h
  apply get_eq_some.mpr
  refine ⟨List.mem_map_of_mem hmem, ?_⟩
  split_ifs
  · exact hid
  · exact hid

theorem get_insert {reg reg' : KeyRegistry} {keyId : Str} {r record : KeyRecord}
    (h : reg.get keyId = some r) (hins : reg.insert record = .ok reg') :
    reg'.get keyId = some r := by
  obtain ⟨hmem, hid⟩ := get_eq_some.mp h
  obtain ⟨-, -, hrecords⟩ := insert_eq_ok hins
  apply get_eq_some.mpr
  rw [hrecords]
  exact ⟨List.mem_append_left _ hmem, hid⟩

/-- The record without its state. -/
def SameKey (r s : KeyRecord) : Prop := ∃ state, Silent state ∧ s = { r with state }

/-- An active key survives registrations, active or rotated. -/
theorem get_demoted {reg : KeyRegistry} {keyId : Str} {r : KeyRecord} (h : reg.get keyId = some r)
    (hactive : r.state = .active) (nodeId : Str) (makeActive : Bool) :
    ∃ s, (reg.demoted nodeId makeActive).get keyId = some s ∧ SameKey r s := by
  have hsame : SameKey r r := ⟨.active, .inl rfl, by rw [← hactive]⟩
  unfold demoted
  split_ifs
  · cases reg.activeKey nodeId with
    | none => exact ⟨r, h, hsame⟩
    | some previous =>
        refine ⟨_, get_setState h, ?_⟩
        split_ifs
        · exact ⟨.rotated, .inr rfl, rfl⟩
        · exact hsame
  · exact ⟨r, h, hsame⟩

/-- What a successful registration has done. -/
theorem register_eq_ok {reg reg' : KeyRegistry} {now : Instant} {keyId nodeId : Str}
    {publicKey : Bytes} {algorithm : Str} {activatedAt expiresAt : Option Str} {makeActive : Bool}
    {record : KeyRecord}
    (h : reg.register py now keyId nodeId publicKey algorithm activatedAt expiresAt makeActive =
      (.ok record, reg')) :
    newRecord py now keyId nodeId publicKey algorithm activatedAt expiresAt makeActive =
        .ok record ∧ (reg.demoted nodeId makeActive).insert record = .ok reg' := by
  cases hnew : newRecord py now keyId nodeId publicKey algorithm activatedAt expiresAt makeActive with
  | error e =>
      rw [register, hnew] at h
      cases h
  | ok new =>
      obtain ⟨e, -, heq⟩ | ⟨reg'', hins, heq⟩ := @register_of_newRecord py reg _ _ _ _ _ _ _ _ _ hnew
      · rw [heq] at h
        cases h
      · rw [heq] at h
        cases h
        exact ⟨rfl, hins⟩

/-- The key that a successful rotation replaces stays in the registry. -/
theorem get_rotate {reg reg' : KeyRegistry} {keyId : Str} {r : KeyRecord}
    (h : reg.get keyId = some r) (hactive : r.state = .active) {now : Instant}
    {nodeId newKeyId : Str} {publicKey : Bytes} {algorithm : Str}
    {activatedAt expiresAt : Option Str} {record : KeyRecord}
    (hrotate : reg.rotate py now nodeId newKeyId publicKey algorithm activatedAt expiresAt =
      (.ok record, reg')) : ∃ s, reg'.get keyId = some s ∧ SameKey r s := by
  unfold rotate at hrotate
  split_ifs at hrotate
  · cases hrotate
  · obtain ⟨-, hins⟩ := register_eq_ok hrotate
    obtain ⟨s, hs, hsame⟩ := get_demoted h hactive nodeId true
    exact ⟨s, get_insert hs hins, hsame⟩

/-- The check of a key gives the same answer for its record in another silent state. -/
theorem checkUsable_sameKey {reg reg' : KeyRegistry} {keyId : Str} {r s : KeyRecord}
    (hget : reg.get keyId = some r) (hget' : reg'.get keyId = some s) (hsilent : Silent r.state)
    (hsame : SameKey r s) (nodeId at_ : Str) (algorithm : SignatureAlgorithm) :
    reg'.checkUsable py keyId nodeId at_ algorithm = reg.checkUsable py keyId nodeId at_ algorithm := by
  obtain ⟨state, hstate, rfl⟩ := hsame
  have hstanding : standingProblems { r with state } nodeId algorithm =
      standingProblems r nodeId algorithm := by
    simp only [standingProblems, hsilent.not_withdrawn, hstate.not_withdrawn]
  have hexpiry : ∀ moment problems, expiryProblems py { r with state } moment problems =
      expiryProblems py r moment problems := by
    intro moment problems
    simp only [expiryProblems, hsilent.not_expired, hstate.not_expired]
  have hwindow : ∀ problems, windowProblems py { r with state } at_ problems =
      windowProblems py r at_ problems := by
    intro problems
    simp only [windowProblems, hexpiry]
  unfold checkUsable
  rw [hget, hget']
  dsimp only
  rw [hstanding, hwindow]

/-- What the documentation says of a rotation, for one event: after the activation of the new key
the old one is not usable, and up to then it is what it was, in its own window. -/
def AuthorityEnds (py : Interp) (reg reg' : KeyRegistry) (r : KeyRecord) (activation moment : Instant)
    (at_ : Str) (algorithm : SignatureAlgorithm) : Prop :=
  (activation.micros < moment.micros →
      ∃ u, reg'.checkUsable py r.keyId r.nodeId at_ algorithm = .ok u ∧ u.usable = false) ∧
    (moment.micros ≤ activation.micros → InWindow py r moment →
      reg'.checkUsable py r.keyId r.nodeId at_ algorithm =
        reg.checkUsable py r.keyId r.nodeId at_ algorithm)

/-- A rotation ends the authority of the old key for an event exactly when the event is not
later than the activation of the new key, or the algorithm or the window of the old key excludes
it anyway. -/
theorem authorityEnds_iff {reg reg' : KeyRegistry} (hbuilt : Built py reg) {r : KeyRecord}
    (hr : r ∈ reg.records) (hactive : r.state = .active) {now : Instant} {newKeyId : Str}
    {publicKey : Bytes} {newAlgorithm : Str} {activatedAt expiresAt : Option Str}
    {record : KeyRecord}
    (hrotate : reg.rotate py now r.nodeId newKeyId publicKey newAlgorithm activatedAt expiresAt =
      (.ok record, reg')) {activation : Instant}
    (_hactivation : parseTime py record.activatedAt = .ok activation) {at_ : Str} {moment : Instant}
    (hat : parseTime py at_ = .ok moment) (algorithm : SignatureAlgorithm) :
    AuthorityEnds py reg reg' r activation moment at_ algorithm ↔
      (activation.micros < moment.micros → r.algorithm ≠ algorithm ∨ ¬ InWindow py r moment) := by
  have hget : reg.get r.keyId = some r := get_eq_some.mpr ⟨hr, rfl⟩
  obtain ⟨s, hs, hsame⟩ := get_rotate hget hactive hrotate
  have hsilent : Silent r.state := .inl hactive
  have heq := @checkUsable_sameKey py _ _ _ _ _ hget hs hsilent hsame r.nodeId at_ algorithm
  obtain ⟨u, hu, husable⟩ :=
    checkUsable_silent hget (hbuilt.datesRead r hr) hsilent rfl hat algorithm
  have hrefused : (∃ u, reg'.checkUsable py r.keyId r.nodeId at_ algorithm = .ok u ∧
      u.usable = false) ↔ (r.algorithm ≠ algorithm ∨ ¬ InWindow py r moment) := by
    rw [heq, hu, ← not_and_or, ← husable, Bool.not_eq_true]
    constructor
    · rintro ⟨u', hu', hfalse⟩
      rw [Except.ok.inj hu']
      exact hfalse
    · intro hfalse
      exact ⟨u, rfl, hfalse⟩
  unfold AuthorityEnds
  rw [hrefused]
  constructor
  · intro h
    exact h.1
  · intro h
    exact ⟨h, fun _ _ => heq⟩

/-! ## A rotation -/

/-- A registry with one key of node `n`, active from 2025 on. -/
def registered : KeyRegistry :=
  (empty.register .reference .first (lit "k") (lit "n") [1] (lit "ML-DSA-65")
    (some (lit "2025-01-01T00:00:00.000000Z")) none true).2

/-- Its rotation to a key that is active from 2026 on. -/
def rotation : Except Exn KeyRecord × KeyRegistry :=
  registered.rotate .reference .first (lit "n") (lit "k2") [2] (lit "ML-DSA-65")
    (some (lit "2026-01-01T00:00:00.000000Z")) none

theorem registered_built : Built .reference registered := .register _ _ _ _ _ _ _ _ .empty

set_option maxRecDepth 100000 in
theorem registered_key :
    ∃ r ∈ registered.records, r.keyId = lit "k" ∧ r.nodeId = lit "n" ∧ r.state = .active := by
  have hrecords : registered.records.map (fun r => (r.keyId, r.nodeId, r.state)) =
      [(lit "k", lit "n", .active)] := by
    decide +kernel
  have hmem : (lit "k", lit "n", KeyState.active) ∈
      registered.records.map fun r => (r.keyId, r.nodeId, r.state) := by
    rw [hrecords]
    exact List.mem_cons_self
  obtain ⟨r, hr, heq⟩ := List.mem_map.mp hmem
  simp only [Prod.mk.injEq] at heq
  exact ⟨r, hr, heq⟩

set_option maxRecDepth 100000 in
theorem rotation_ok {nodeId : Str} (hnode : nodeId = lit "n") :
    ∃ record, registered.rotate .reference ⟨0, by decide⟩ nodeId (lit "k2") [2] (lit "ML-DSA-65")
      (some (lit "2026-01-01T00:00:00.000000Z")) none = (.ok record, rotation.2) ∧
    ∃ activation, parseTime .reference record.activatedAt = .ok activation ∧
      activation.micros = 63902822400000000 := by
  have hdecide : rotation.1.toOption.map
      (fun record => (parseTime .reference record.activatedAt).toOption.map Instant.micros) =
        some (some 63902822400000000) := by
    decide +kernel
  obtain ⟨record, hrecord, htime⟩ := eq_ok_of_toOption hdecide
  obtain ⟨activation, hactivation, hmicros⟩ := eq_ok_of_toOption htime
  subst hnode
  exact ⟨record, Prod.ext hrecord rfl, activation, hactivation, hmicros⟩

set_option maxRecDepth 100000 in
/-- An event before the rotation is judged as before. -/
theorem authorityEnds_before :
    ∃ r ∈ registered.records, ∃ activation moment,
      AuthorityEnds .reference registered rotation.2 r activation moment
        (lit "2025-06-01T00:00:00.000000Z") .mlDsa65 := by
  obtain ⟨r, hr, -, hnode, hactive⟩ := registered_key
  obtain ⟨record, hrotate, activation, hactivation, hmicros⟩ := rotation_ok hnode
  have hdecide : (parseTime .reference (lit "2025-06-01T00:00:00.000000Z")).toOption.map
      Instant.micros = some 63884332800000000 := by
    decide +kernel
  obtain ⟨moment, hat, hmoment⟩ := eq_ok_of_toOption hdecide
  refine ⟨r, hr, activation, moment, ?_⟩
  apply (authorityEnds_iff registered_built hr hactive hrotate hactivation hat
    .mlDsa65).mpr
  intro hlt
  rw [hmicros, hmoment] at hlt
  exact absurd hlt (by decide)

set_option maxRecDepth 100000 in
/-- A rotated key is still usable for an event after the rotation. -/
theorem rotated_key_stays_usable :
    ∃ r ∈ registered.records, r.state = .active ∧ ∃ record activation moment,
      registered.rotate .reference ⟨0, by decide⟩ r.nodeId (lit "k2") [2] (lit "ML-DSA-65")
        (some (lit "2026-01-01T00:00:00.000000Z")) none = (.ok record, rotation.2) ∧
      parseTime .reference record.activatedAt = .ok activation ∧
      parseTime .reference (lit "2026-06-01T00:00:00.000000Z") = .ok moment ∧
      ¬ AuthorityEnds .reference registered rotation.2 r activation moment
        (lit "2026-06-01T00:00:00.000000Z") .mlDsa65 := by
  obtain ⟨r, hr, hkey, hnode, hactive⟩ := registered_key
  obtain ⟨record, hrotate, activation, hactivation, hmicros⟩ := rotation_ok hnode
  have hdecide : (parseTime .reference (lit "2026-06-01T00:00:00.000000Z")).toOption.map
      Instant.micros = some 63915868800000000 := by
    decide +kernel
  have husable : (rotation.2.checkUsable .reference (lit "k") (lit "n")
      (lit "2026-06-01T00:00:00.000000Z") .mlDsa65).toOption.map KeyUsability.usable =
        some true := by
    decide +kernel
  obtain ⟨moment, hat, hmoment⟩ := eq_ok_of_toOption hdecide
  obtain ⟨u, hu, htrue⟩ := eq_ok_of_toOption husable
  refine ⟨r, hr, hactive, record, activation, moment, hrotate, hactivation, hat, ?_⟩
  rintro ⟨hends, -⟩
  obtain ⟨u', hu', hfalse⟩ := hends (by rw [hmicros, hmoment]; decide)
  rw [hkey, hnode, hu] at hu'
  rw [Except.ok.inj hu', hfalse] at htrue
  cases htrue

end IcsDeception.KeyRegistry
