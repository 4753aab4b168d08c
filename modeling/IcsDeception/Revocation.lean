import IcsDeception.HostileInput
import IcsDeception.RegistryFile

/-!
# A revoked key stays revoked

Once `revoke` has succeeded, no registration, rotation, revocation, deactivation or import
without overwriting, and no saving and loading again, gives the key another state than
revoked or disabled. The check of the key says so at every moment that it can read, and no
record that names the key counts as verified.

## Implementation notes

A save that raises is not followed by a load. A load that raises leaves the registry of
before, as the caller still holds it.
-/

namespace IcsDeception

open Text Json Calendar Canonicalizer Models EvidenceCollector EvidenceVerifier

namespace KeyRegistry

variable {py : Interp}

/-! ## The check of a key, by the name of the algorithm -/

/-- The problems of a key that do not depend on the time, for an algorithm of any name. -/
def namedProblems (r : KeyRecord) (nodeId algorithm : Str) : List Alert :=
  alertIf (r.nodeId ≠ nodeId) .unknownNode ++
    (alertIf (r.algorithm.text ≠ algorithm) .unsupportedAlgorithm ++
      (alertIf (r.state = .revoked) .revokedKey ++ alertIf (r.state = .disabled) .revokedKey))

/-- `KeyRegistry.check_usable`, for an algorithm of any name. -/
def checkUsableNamed (py : Interp) (reg : KeyRegistry) (keyId nodeId at_ algorithm : Str) :
    Except Exn KeyUsability :=
  match reg.get keyId with
  | none =>
      .ok ⟨false, alertIf (reg.records.all fun r => r.nodeId ≠ nodeId) .unknownNode ++
        [.unknownKey]⟩
  | some r => do
      let problems ← windowProblems py r at_ (namedProblems r nodeId algorithm)
      return ⟨problems.isEmpty, problems⟩

/-- For a supported algorithm this is the check that verification makes. -/
theorem checkUsableNamed_text (reg : KeyRegistry) (keyId nodeId at_ : Str)
    (algorithm : SignatureAlgorithm) :
    reg.checkUsableNamed py keyId nodeId at_ algorithm.text =
      reg.checkUsable py keyId nodeId at_ algorithm := by
  have hname : ∀ r : KeyRecord, namedProblems r nodeId algorithm.text =
      standingProblems r nodeId algorithm := by
    intro r
    have hiff : r.algorithm.text ≠ algorithm.text ↔ r.algorithm ≠ algorithm :=
      not_congr ⟨SignatureAlgorithm.text_injective, congrArg _⟩
    unfold namedProblems standingProblems
    rw [decide_eq_decide.mpr hiff]
  unfold checkUsableNamed checkUsable
  cases reg.get keyId with
  | none => rfl
  | some r =>
      dsimp only
      rw [hname]

/-- `check_usable` reports the key as revoked. -/
def ReportsRevoked (py : Interp) (reg : KeyRegistry) (keyId nodeId at_ algorithm : Str) : Prop :=
  ∃ u, reg.checkUsableNamed py keyId nodeId at_ algorithm = .ok u ∧ .revokedKey ∈ u.problems

/-- A timestamp of a year below 1000 in UTC, on a platform that does not pad it. -/
def ShortYear (py : Interp) (at_ : Str) : Prop :=
  py.padYears = false ∧ ∃ r i, at_ ≠ [] ∧ py.fromisoformat (isoCandidate (strip at_)) = some r ∧
    r.toUtc = .ok i ∧ i.year < 1000

theorem readUtc_short_year {i : Instant} (hy : i.year < 1000) :
    readUtc (i.text false ++ [cp 'Z']) = none := by
  have hdigits : readDigits 4 (i.text false ++ [cp 'Z']) = none := by
    apply if_neg
    rintro ⟨-, hall⟩
    have := List.all_eq_true.mp hall _ (dash_of_short_year hy [cp 'Z'])
    revert this
    decide
  have hdate : readDate (i.text false ++ [cp 'Z']) = none := by
    rw [readDate, hdigits]
    rfl
  rw [readUtc, hdate]
  rfl

/-- `_parse_time` lets an exception of `strptime` pass for these timestamps only. -/
theorem parseTime_raises_iff {at_ : Str} :
    parseTime py at_ = .error .valueError ↔ ShortYear py at_ := by
  constructor
  · intro h
    unfold parseTime at h
    cases hn : normalizeTimestamp py (.str at_) with
    | error e =>
        rw [hn] at h
        cases h
    | ok normalized =>
        rw [hn] at h
        dsimp only at h
        have hne : at_ ≠ [] := by
          rintro rfl
          rw [normalizeTimestamp, if_pos rfl] at hn
          cases hn
        obtain ⟨r, i, hr, hi, rfl⟩ := normalizeTimestamp_eq_ok hn
        by_cases hpadded : py.padYears = true ∨ 1000 ≤ i.year
        · rw [readUtc_padded i hpadded] at h
          cases h
        · rw [not_or, Bool.not_eq_true, Nat.not_le] at hpadded
          exact ⟨hpadded.1, r, i, hne, hr, hi, hpadded.2⟩
  · rintro ⟨hpad, r, i, hne, hr, hi, hyear⟩
    unfold parseTime
    rw [normalizeTimestamp_of hne hr hi, hpad]
    dsimp only
    rw [readUtc_short_year hyear]

/-! ## What the check says of a withdrawn key -/

/-- The key is revoked or disabled. -/
def Withdrawn (reg : KeyRegistry) (keyId : Str) : Prop :=
  ∃ r, reg.get keyId = some r ∧ (r.state = .revoked ∨ r.state = .disabled)

theorem mem_expiryProblems {r : KeyRecord} {now : Instant} {problems ps : List Alert}
    (h : expiryProblems py r now problems = .ok ps) {a : Alert} (ha : a ∈ problems) : a ∈ ps := by
  unfold expiryProblems at h
  cases he : r.expiresAt with
  | none =>
      rw [he] at h
      obtain rfl := Except.ok.inj h
      exact List.mem_append_left _ ha
  | some t =>
      rw [he] at h
      obtain ⟨expires, -, h⟩ := bind_eq_ok.mp h
      obtain rfl := Except.ok.inj h
      exact List.mem_append_left _ (List.mem_append_left _ ha)

/-- The problems found before the window are reported with it. -/
theorem mem_windowProblems {r : KeyRecord} {at_ : Str} {problems ps : List Alert}
    (h : windowProblems py r at_ problems = .ok ps) {a : Alert} (ha : a ∈ problems) : a ∈ ps := by
  unfold windowProblems at h
  split at h
  · obtain rfl := Except.ok.inj h
    exact List.mem_append_left _ ha
  · cases h
  · split at h
    · obtain rfl := Except.ok.inj h
      exact List.mem_append_left _ ha
    · cases h
    · dsimp only at h
      split at h
      · obtain rfl := Except.ok.inj h
        exact List.mem_append_left _ (List.mem_append_left _ ha)
      · exact mem_expiryProblems h (List.mem_append_left _ ha)

theorem mem_namedProblems {r : KeyRecord} (h : r.state = .revoked ∨ r.state = .disabled)
    (nodeId algorithm : Str) : .revokedKey ∈ namedProblems r nodeId algorithm := by
  simp only [namedProblems, List.mem_append, mem_alertIf, decide_eq_true_eq, and_true]
  exact .inr (.inr h)

/-- A withdrawn key is reported at every moment that `strptime` takes, and no other. -/
theorem Withdrawn.reportsRevoked_iff {reg : KeyRegistry} {keyId : Str} (h : reg.Withdrawn keyId)
    (hreg : reg.DatesRead py) (nodeId at_ algorithm : Str) :
    ReportsRevoked py reg keyId nodeId at_ algorithm ↔ ¬ ShortYear py at_ := by
  obtain ⟨r, hget, hstate⟩ := h
  unfold ReportsRevoked checkUsableNamed
  rw [hget, ← parseTime_raises_iff]
  dsimp only
  constructor
  · rintro ⟨u, hu, -⟩ hraises
    obtain ⟨ps, hps, -⟩ := bind_eq_ok.mp hu
    unfold windowProblems at hps
    rw [hraises] at hps
    cases hps
  · intro hparses
    obtain ⟨hact, hexp⟩ := hreg r (get_eq_some.mp hget).1
    obtain ⟨ps, hps⟩ := windowProblems_ok hact hexp hparses (namedProblems r nodeId algorithm)
    refine ⟨⟨ps.isEmpty, ps⟩, bind_eq_ok.mpr ⟨ps, hps, rfl⟩, ?_⟩
    exact mem_windowProblems hps (mem_namedProblems hstate nodeId algorithm)

/-- A withdrawn key is usable for nothing. -/
theorem Withdrawn.not_usable {reg : KeyRegistry} {keyId nodeId at_ : Str}
    {algorithm : SignatureAlgorithm} {u : KeyUsability} (h : reg.Withdrawn keyId)
    (hu : reg.checkUsable py keyId nodeId at_ algorithm = .ok u) : u.usable = false := by
  obtain ⟨r, hget, hstate⟩ := h
  rw [← checkUsableNamed_text] at hu
  unfold checkUsableNamed at hu
  rw [hget] at hu
  obtain ⟨ps, hps, hu⟩ := bind_eq_ok.mp hu
  obtain rfl := Except.ok.inj hu
  have hmem := mem_windowProblems hps (mem_namedProblems hstate nodeId algorithm.text)
  cases ps with
  | nil => cases hmem
  | cons a rest => rfl

/-! ## What keeps a key withdrawn -/

namespace Withdrawn

variable {reg : KeyRegistry} {keyId : Str}

theorem setState (h : reg.Withdrawn keyId) (other : Str) {state : KeyState}
    (hstate : state = .revoked ∨ state = .disabled) : (reg.setState other state).Withdrawn keyId := by
  obtain ⟨r, hget, hr⟩ := h
  refine ⟨_, get_setState hget, ?_⟩
  split_ifs
  · exact hstate
  · exact hr

theorem insert {reg' : KeyRegistry} {record : KeyRecord} (h : reg.Withdrawn keyId)
    (hins : reg.insert record = .ok reg') : reg'.Withdrawn keyId := by
  obtain ⟨r, hget, hr⟩ := h
  exact ⟨r, get_insert hget hins, hr⟩

/-- Registration demotes an active key only. -/
theorem demoted (h : reg.Withdrawn keyId) (nodeId : Str) (makeActive : Bool) :
    (reg.demoted nodeId makeActive).Withdrawn keyId := by
  unfold KeyRegistry.demoted
  split_ifs
  · cases hactive : reg.activeKey nodeId with
    | none => exact h
    | some previous =>
        obtain ⟨r, hget, hr⟩ := h
        refine ⟨_, get_setState hget, ?_⟩
        have hprevious : previous.state = .active := by
          have hfound := List.find?_some (p := fun r : KeyRecord => decide (r.state = .active))
            hactive
          exact of_decide_eq_true hfound
        obtain ⟨hmem, hid⟩ := get_eq_some.mp hget
        obtain ⟨hprevmem, -⟩ := mem_forNode.mp (List.mem_of_find?_eq_some hactive)
        split_ifs with hsame
        · obtain rfl := List.inj_on_of_nodup_map reg.nodup hmem hprevmem hsame
          rw [hprevious] at hr
          rcases hr with hr | hr
          · cases hr
          · cases hr
        · exact hr
  · exact h

theorem register (h : reg.Withdrawn keyId) (now : Instant) (newKeyId nodeId : Str)
    (publicKey : Bytes) (algorithm : Str) (activatedAt expiresAt : Option Str) (makeActive : Bool) :
    (reg.register py now newKeyId nodeId publicKey algorithm activatedAt expiresAt
      makeActive).2.Withdrawn keyId := by
  cases hnew : newRecord py now newKeyId nodeId publicKey algorithm activatedAt expiresAt
      makeActive with
  | error e =>
      rw [KeyRegistry.register, hnew]
      exact h
  | ok record =>
      have hdemoted := h.demoted nodeId makeActive
      obtain ⟨e, -, heq⟩ | ⟨reg', hins, heq⟩ := register_of_newRecord py hnew
      · rw [heq]
        exact hdemoted
      · rw [heq]
        exact hdemoted.insert hins

/-- An import that does not overwrite passes over the identifiers of the registry. -/
theorem importEntry (h : reg.Withdrawn keyId) (entry : Value) :
    (importEntry py false reg entry).2.Withdrawn keyId := by
  unfold KeyRegistry.importEntry
  cases KeyRecord.fromDict py entry with
  | error e => exact h
  | ok record =>
      dsimp only
      split_ifs with hmem
      · rename_i hfalse
        cases hfalse
      · exact h
      · cases hins : reg.insert record with
        | error e => exact h
        | ok reg' => exact h.insert hins

theorem importEntries {entries : List Value} (h : reg.Withdrawn keyId) :
    (importEntries py false reg entries).2.Withdrawn keyId := by
  induction entries generalizing reg with
  | nil => exact h
  | cons entry rest ih =>
      have hone : (KeyRegistry.importEntry py false reg entry).2.Withdrawn keyId :=
        h.importEntry entry
      rw [KeyRegistry.importEntries]
      cases hresult : KeyRegistry.importEntry py false reg entry with
      | mk result reg' =>
          rw [hresult] at hone
          cases result with
          | error e => exact hone
          | ok _ => exact ih hone

end Withdrawn

/-! ## Runs after a revocation -/

/-- What the owner of a registry does: an operation on it, or `save` followed by `load`. -/
inductive Action
  | operate (op : Operation)
  | reload (now : Instant) (notes : Str → KeyNotes)

/-- The registry that the owner holds afterwards, whether or not something raised. -/
def act (py : Interp) (reg : KeyRegistry) : Action → KeyRegistry
  | .operate op => apply py reg op
  | .reload now notes =>
      match reg.save py now notes with
      | .error _ => reg
      | .ok content =>
          match load py (some content) with
          | .error _ => reg
          | .ok loaded => loaded

/-- The registry after a run of actions. -/
def after (py : Interp) (reg : KeyRegistry) (actions : List Action) : KeyRegistry :=
  actions.foldl (act py) reg

/-- The registry is not replaced by another one: no import overwrites, and only what was saved
is loaded. -/
def Action.Lasting : Action → Prop
  | .operate (.importPublic _ overwrite) => overwrite = false
  | .operate (.load _) => False
  | _ => True

/-- If the action goes through the file, the identifier holds no pair of surrogates. -/
def Action.Spells (keyId : Str) : Action → Prop
  | .reload _ _ => joinSurrogates keyId = keyId
  | _ => True

/-- Every action leaves a registry that the package built. -/
theorem Built.act {reg : KeyRegistry} (h : Built py reg) (a : Action) :
    Built py (reg.act py a) := by
  cases a with
  | operate op =>
      cases op with
      | register now keyId nodeId publicKey algorithm activatedAt expiresAt makeActive =>
          exact .register now keyId nodeId publicKey algorithm activatedAt expiresAt makeActive h
      | rotate now nodeId newKeyId publicKey algorithm activatedAt expiresAt =>
          simp only [KeyRegistry.act, KeyRegistry.apply, KeyRegistry.rotate]
          split_ifs
          · exact h
          · exact .register now newKeyId nodeId publicKey algorithm activatedAt expiresAt true h
      | revoke keyId reason => exact .revoke keyId reason h
      | disable keyId => exact .disable keyId h
      | importPublic document overwrite => exact .importPublic document overwrite h
      | load content =>
          simp only [KeyRegistry.act, KeyRegistry.apply]
          cases hload : KeyRegistry.load py content with
          | error e => exact h
          | ok loaded => exact .load hload
  | reload now notes =>
      simp only [KeyRegistry.act]
      cases reg.save py now notes with
      | error e => exact h
      | ok content =>
          dsimp only
          cases hload : KeyRegistry.load py (some content) with
          | error e => exact h
          | ok loaded => exact .load hload

/-- An action keeps a key withdrawn. -/
theorem Withdrawn.act {reg : KeyRegistry} {keyId : Str} (h : reg.Withdrawn keyId) {a : Action}
    (hlasting : a.Lasting) (hspells : a.Spells keyId) : (reg.act py a).Withdrawn keyId := by
  cases a with
  | operate op =>
      cases op with
      | register now newKeyId nodeId publicKey algorithm activatedAt expiresAt makeActive =>
          exact h.register now newKeyId nodeId publicKey algorithm activatedAt expiresAt makeActive
      | rotate now nodeId newKeyId publicKey algorithm activatedAt expiresAt =>
          simp only [KeyRegistry.act, KeyRegistry.apply, KeyRegistry.rotate]
          split_ifs
          · exact h
          · exact h.register now newKeyId nodeId publicKey algorithm activatedAt expiresAt true
      | revoke other reason =>
          simp only [KeyRegistry.act, KeyRegistry.apply, KeyRegistry.revoke]
          split_ifs
          · exact h
          · exact h
          · exact h.setState other (.inl rfl)
      | disable other =>
          simp only [KeyRegistry.act, KeyRegistry.apply, KeyRegistry.disable]
          split_ifs
          · exact h
          · exact h.setState other (.inr rfl)
      | importPublic document overwrite =>
          obtain rfl : overwrite = false := hlasting
          simp only [KeyRegistry.act, KeyRegistry.apply, KeyRegistry.importPublic]
          cases documentEntries document with
          | error e => exact h
          | ok entries => exact h.importEntries
      | load content => exact hlasting.elim
  | reload now notes =>
      simp only [KeyRegistry.act]
      cases hsave : reg.save py now notes with
      | error e => exact h
      | ok content =>
          dsimp only
          cases hload : KeyRegistry.load py (some content) with
          | error e => exact h
          | ok loaded =>
              obtain ⟨r, hget, hr⟩ := h
              obtain ⟨s, hs, hstate⟩ := get_load_save hsave hload hget
              have hkey : joinSurrogates keyId = keyId := hspells
              rw [hkey] at hs
              exact ⟨s, hs, by rw [hstate]; exact hr⟩

theorem Built.after {reg : KeyRegistry} (h : Built py reg) (actions : List Action) :
    Built py (reg.after py actions) := by
  induction actions generalizing reg with
  | nil => exact h
  | cons a rest ih => exact ih (h.act a)

theorem Withdrawn.after {reg : KeyRegistry} {keyId : Str} (h : reg.Withdrawn keyId)
    {actions : List Action} (hlasting : ∀ a ∈ actions, a.Lasting)
    (hspells : ∀ a ∈ actions, a.Spells keyId) : (reg.after py actions).Withdrawn keyId := by
  induction actions generalizing reg with
  | nil => exact h
  | cons a rest ih =>
      obtain ⟨hl, hls⟩ := List.forall_mem_cons.mp hlasting
      obtain ⟨hs, hss⟩ := List.forall_mem_cons.mp hspells
      exact ih (h.act hl hs) hls hss

theorem withdrawn_of_revoke {reg : KeyRegistry} {keyId reason : Str}
    (h : (reg.revoke keyId reason).1 = .ok ()) : (reg.revoke keyId reason).2.Withdrawn keyId := by
  unfold revoke at h ⊢
  split_ifs at h ⊢ with hknown
  obtain ⟨r, hget⟩ := Option.ne_none_iff_exists'.mp (by simpa using hknown)
  refine ⟨_, get_setState hget, .inl ?_⟩
  rw [if_pos (get_eq_some.mp hget).2]

/-! ## Streams that name the key -/

/-- The line holds a record that names the key. -/
def Names (py : Interp) (verifier : EvidenceVerifier) (keyId : Str) (line : Line) : Prop :=
  ∃ e, parseSignedEventJson py verifier.maxRecordBytes true line = .ok e ∧ e.keyId = keyId

/-- In no stream does a record that names the key count as verified. -/
def NeverVerified (py : Interp) (reg : KeyRegistry) (keyId : Str) : Prop :=
  ∀ c : EvidenceCollector, c.verifier.registry = reg → ∀ lines report,
    verifyStream py c lines = .ok report → ∃ vs, verdicts py c lines = .ok vs ∧
      Summarises c report vs ∧ ∀ v ∈ vs, Names py c.verifier keyId v.1 → v.2.accepted = false

/-- A record that counts as verified is sound. -/
theorem sound_of_accepted {c : EvidenceCollector} {t t' : Option NodeTracker} {line : Line}
    {v : Verdict} {e : SignedEvent}
    (hparse : parseSignedEventJson py c.verifier.maxRecordBytes true line = .ok e)
    (h : judge py c t line = .ok (t', v)) (hv : v.accepted = true) : Sound py c.verifier e := by
  rw [judge_record hparse] at h
  obtain ⟨r, hr, h⟩ := bind_eq_ok.mp h
  obtain ⟨⟨tracker, r'⟩, htrack, h⟩ := bind_eq_ok.mp h
  obtain ⟨-, rfl⟩ := Prod.mk.inj (Except.ok.inj h)
  have hvalid : r'.valid = true := hv
  obtain ⟨r₁, hchain, htrack⟩ := bind_eq_ok.mp htrack
  have hr₁ : r₁.valid = true := by
    dsimp only at htrack
    split_ifs at htrack
    · obtain ⟨hash, -, htrack⟩ := bind_eq_ok.mp htrack
      rw [← (Prod.mk.inj (Except.ok.inj htrack)).2, foldl_addError_valid] at hvalid
      exact hvalid.1
    · rw [← (Prod.mk.inj (Except.ok.inj htrack)).2, foldl_addError_valid] at hvalid
      exact hvalid.1
  exact (verifyEvent_valid hr).mp ((checkChain_valid hchain).mp hr₁).1

theorem neverVerified_of {reg : KeyRegistry} {keyId : Str}
    (h : ∀ verifier line, Names py verifier keyId line → reg.Withdrawn keyId) :
    NeverVerified py reg keyId := by
  rintro c rfl lines report hreport
  obtain ⟨s, vs, hrun, hsum, -⟩ := run_of_verifyStream hreport
  refine ⟨vs, verdicts_of_run hrun, hsum, ?_⟩
  intro v hv hnames
  have hwithdrawn := h _ _ hnames
  obtain ⟨e, hparse, rfl⟩ := hnames
  obtain ⟨t, t', hjudge⟩ := Keyed.step_of_mem_run hrun v hv
  rw [Bool.eq_false_iff]
  intro haccepted
  obtain ⟨u, hu, husable⟩ := (sound_of_accepted hparse hjudge haccepted).key
  rw [hwithdrawn.not_usable hu] at husable
  cases husable

/-- A record is parsed with an identifier that has no surrogates. -/
theorem spells_of_names {verifier : EvidenceVerifier} {keyId : Str} {line : Line}
    (h : Names py verifier keyId line) (a : Action) : a.Spells keyId := by
  obtain ⟨e, hparse, rfl⟩ := h
  obtain ⟨raw, text, data, -, -, -, -, -, hc⟩ := parseSignedEventJson_eq_ok.mp hparse
  have hscalar := scalar_of_matchesToEnd (validateIdentifier_matches hc.keyId).1
  cases a with
  | operate op => trivial
  | reload now notes => exact joinSurrogates_of_scalar hscalar

/-- After a revocation, and any run of actions that does not replace the registry, the key is
reported as revoked for every node and algorithm at exactly the timestamps that do not
denote an unpadded year, provided that no file is read back in which its identifier is
joined. No stream counts a record that names the key as verified. -/
theorem revocation_lasts (py : Interp) (reg : KeyRegistry) (hreg : Built py reg)
    (keyId reason : Str) (hrevoked : (reg.revoke keyId reason).1 = .ok ()) (actions : List Action)
    (hlasting : ∀ a ∈ actions, a.Lasting) :
    ((∀ a ∈ actions, a.Spells keyId) → ∀ nodeId at_ algorithm,
      ReportsRevoked py ((reg.revoke keyId reason).2.after py actions) keyId nodeId at_ algorithm ↔
        ¬ ShortYear py at_) ∧
      NeverVerified py ((reg.revoke keyId reason).2.after py actions) keyId := by
  have hwithdrawn := withdrawn_of_revoke hrevoked
  have hbuilt : Built py ((reg.revoke keyId reason).2.after py actions) :=
    (Built.revoke keyId reason hreg).after actions
  constructor
  · intro hspells nodeId at_ algorithm
    exact (hwithdrawn.after hlasting hspells).reportsRevoked_iff hbuilt.datesRead nodeId at_ algorithm
  · apply neverVerified_of
    intro verifier line hnames
    exact hwithdrawn.after hlasting fun a _ => spells_of_names hnames a

/-- The notes of a key without any. -/
def plainNotes : KeyNotes where
  createdAt := lit "2026-01-01T00:00:00.000000Z"
  revocationReason := .null
  revokedAt := .null
  metadata := []
  legible_reason := trivial
  legible_time := trivial
  legible_metadata := trivial

/-- The first moment of the year 2026. -/
def newYear : Instant := ⟨63902822400000000, by decide⟩

/-- A registry with one key of node `n`. -/
def oneKey (py : Interp) (keyId : Str) : KeyRegistry :=
  (empty.register py newYear keyId (lit "n") [1] (lit "ML-DSA-65") none none true).2

theorem built_oneKey (py : Interp) (keyId : Str) : Built py (oneKey py keyId) :=
  .register newYear keyId (lit "n") [1] (lit "ML-DSA-65") none none true .empty

set_option maxRecDepth 100000 in
theorem revocation_lasts_oneKey :
    ((oneKey .reference (lit "k")).revoke (lit "k") (lit "lost")).1 = .ok () ∧
      NeverVerified .reference
        (((oneKey .reference (lit "k")).revoke (lit "k") (lit "lost")).2.after .reference
          [.operate (.disable (lit "k")), .reload newYear fun _ => plainNotes]) (lit "k") := by
  have hrevoked : ((oneKey .reference (lit "k")).revoke (lit "k") (lit "lost")).1 = .ok () :=
    by decide +kernel
  refine ⟨hrevoked, ?_⟩
  refine (revocation_lasts .reference _ (built_oneKey _ _) (lit "k") (lit "lost") hrevoked
    [.operate (.disable (lit "k")), .reload newYear fun _ => plainNotes] ?_).2
  simp only [List.forall_mem_cons]
  exact ⟨trivial, trivial, by simp⟩

/-- An interpreter on a platform that does not pad years, with a constant hash. -/
def unpadded : Interp :=
  { Interp.reference with
    padYears := false
    fromisoformat_text := fun i hy => readIso_text false i hy
    sha3_256 := fun _ => List.replicate 64 (cp '0')
    sha3_256_digest := fun _ => isDigest_zeros }

/-- An identifier that holds a pair of surrogates. -/
def pairedKey : Str := [ofCode 0xD800, ofCode 0xDC00]

set_option maxRecDepth 100000 in
/-- The check of a revoked key raises for a moment in the year 999. A revoked key with a pair of
surrogates in its identifier is unknown to the registry that is saved and loaded again. -/
theorem revocation_not_reported :
    (((oneKey unpadded (lit "k")).revoke (lit "k") (lit "lost")).1 = .ok () ∧
      ¬ ReportsRevoked unpadded ((oneKey unpadded (lit "k")).revoke (lit "k") (lit "lost")).2
        (lit "k") (lit "n") (lit "0999-01-01T00:00:00.000000Z") (lit "ML-DSA-65")) ∧
    ((oneKey unpadded pairedKey).revoke pairedKey (lit "lost")).1 = .ok () ∧
      ¬ ReportsRevoked unpadded
        (((oneKey unpadded pairedKey).revoke pairedKey (lit "lost")).2.after unpadded
          [.reload newYear fun _ => plainNotes])
        pairedKey (lit "n") (lit "2026-01-01T00:00:00.000000Z") (lit "ML-DSA-65") := by
  have hraises : (((oneKey unpadded (lit "k")).revoke (lit "k") (lit "lost")).2.checkUsableNamed
      unpadded (lit "k") (lit "n") (lit "0999-01-01T00:00:00.000000Z") (lit "ML-DSA-65")).toOption.map
        KeyUsability.problems = none := by
    decide +kernel
  have hunknown : ((((oneKey unpadded pairedKey).revoke pairedKey (lit "lost")).2.after unpadded
      [.reload newYear fun _ => plainNotes]).checkUsableNamed unpadded pairedKey (lit "n")
        (lit "2026-01-01T00:00:00.000000Z") (lit "ML-DSA-65")).toOption.map KeyUsability.problems =
        some [.unknownKey] := by
    decide +kernel
  refine ⟨⟨by decide +kernel, ?_⟩, by decide +kernel, ?_⟩
  · rintro ⟨u, hu, -⟩
    rw [hu] at hraises
    cases hraises
  · rintro ⟨u, hu, hmem⟩
    rw [hu] at hunknown
    rw [Option.some.inj hunknown] at hmem
    revert hmem
    decide

end KeyRegistry

end IcsDeception
