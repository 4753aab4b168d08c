import IcsDeception.Environment

/-!
# The choice of a cryptographic backend

A backend is chosen by its name, by the format of a private key or by preference. Each way
has its own checks of what the backend can do. The choice by key format does not check the
KEM that was asked for.

## Implementation notes

A backend is its name in the registry, and the table of capabilities says what each one
reported when it was probed. An optional argument that is an empty text or has no bytes is
read as if it were not given. The message texts of the errors are left out.
-/

namespace IcsDeception

open Text

/-- The backends of the registry. -/
inductive BackendName
  | openssl
  | pyfips
  | test
  deriving DecidableEq

/-- `BackendError` as the choice raises it: its code, and the backend that it names. -/
inductive SelectionError
  | unknownBackend
  /-- `BackendUnavailableError`. -/
  | unavailable (backend : Option BackendName)
  deriving DecidableEq

/-- `Capabilities`, as far as the choice reads it. -/
structure Capabilities where
  available : Bool
  signatureAlgorithms : List Str
  kemAlgorithms : List Str

namespace Capabilities

/-- `supports_signature`. -/
def supportsSignature (c : Capabilities) (algorithm : Str) : Bool :=
  c.available && decide (algorithm ∈ c.signatureAlgorithms)

/-- `supports_kem`. -/
def supportsKem (c : Capabilities) (algorithm : Str) : Bool :=
  c.available && decide (algorithm ∈ c.kemAlgorithms)

end Capabilities

namespace BackendName

/-- The name of a backend: `openssl`, `PYFIPS_BACKEND` or `TEST_BACKEND`. -/
def name : BackendName → Str
  | openssl => lit "openssl"
  | pyfips => lit "pyfips"
  | test => lit "insecure-test-only"

/-- `TEST_KEY_MARKER`. -/
def testKeyMarker : Bytes := Utf8.encodeAll (lit "INSECURE-TEST-ONLY-KEY-DO-NOT-USE")

/-- `DEFAULT_SIGNATURE_ALGORITHM`. -/
def defaultSignatureAlgorithm : Str := lit "ML-DSA-65"

/-- `_PREFERENCE`. -/
def preference : List BackendName := [openssl, pyfips]

/-- `get_backend`. -/
def getBackend (requested : Str) : Except SelectionError BackendName :=
  match [openssl, pyfips, test].find? fun b => decide (b.name = requested) with
  | none => .error .unknownBackend
  | some b => .ok b

/-- `detect_private_key_backend`. -/
def detectPrivateKeyBackend (privateBytes : Bytes) : BackendName :=
  if (privateBytes.dropWhile isAsciiSpace).take 11 = Utf8.encodeAll (lit "-----BEGIN ") then openssl
  else if testKeyMarker <+: privateBytes then test
  else pyfips

/-- An optional argument, if it is not empty. -/
def given {α : Type} (argument : Option (List α)) : Option (List α) :=
  argument.filter fun xs => !xs.isEmpty

/-- `requested`. -/
def requestedName (environ name : Option Str) : Option Str :=
  (given name).orElse fun _ => given environ

/-- `require_kem and not capabilities.supports_kem(require_kem)`. -/
def lacksKem (c : Capabilities) (requireKem : Option Str) : Bool :=
  match given requireKem with
  | none => false
  | some kem => !c.supportsKem kem

/-- `select_backend`. -/
def selectBackend (table : BackendName → Capabilities) (environ name : Option Str)
    (algorithm : Str) (allowTestBackend : Bool) (requireKem : Option Str)
    (forPrivateKey : Option Bytes) : Except SelectionError BackendName :=
  match requestedName environ name with
  | none =>
      match given forPrivateKey with
      | some key =>
          let detected := detectPrivateKeyBackend key
          if detected = test ∧ allowTestBackend = false then .error (.unavailable (some test))
          else if (table detected).available && (table detected).supportsSignature algorithm then
            .ok detected
          else .error (.unavailable (some detected))
      | none =>
          match preference.find? fun b => (table b).available &&
              (table b).supportsSignature algorithm && !lacksKem (table b) requireKem with
          | some b => .ok b
          | none => .error (.unavailable none)
  | some requested => do
      let backend ← getBackend requested
      if requested = test.name ∧ allowTestBackend = false then .error (.unavailable (some backend))
      else if !(table backend).available then .error (.unavailable (some backend))
      else if !(table backend).supportsSignature algorithm then .error (.unavailable (some backend))
      else if lacksKem (table backend) requireKem then .error (.unavailable (some backend))
      else .ok backend

/-- `select_real_backend`. -/
def selectRealBackend (table : BackendName → Capabilities) (environ : Option Str)
    (signatureAlgorithm : Str) (kemAlgorithm : Option Str) (requireRealCrypto : Bool)
    (name : Option Str) : Except SelectionError BackendName :=
  selectBackend table environ name signatureAlgorithm (!requireRealCrypto) kemAlgorithm none

/-- The choice of `decrypt_archive`. -/
def selectForDecryption (table : BackendName → Capabilities) (environ : Option Str)
    (recipientPrivateKey : Bytes) : Except SelectionError BackendName :=
  selectBackend table environ none defaultSignatureAlgorithm false (some (lit "ML-KEM-768"))
    (some recipientPrivateKey)

/-! ## What was asked for -/

/-- What a caller asks of the backend apart from the KEM. -/
structure Signs (c : Capabilities) (b : BackendName) (algorithm : Str) (allowTestBackend : Bool) :
    Prop where
  available : c.available = true
  signature : c.supportsSignature algorithm = true
  test : b = .test → allowTestBackend = true

/-- The backend supports the KEM, if one is asked for. -/
def Encapsulates (c : Capabilities) (requireKem : Option Str) : Prop :=
  ∀ kem, given requireKem = some kem → c.supportsKem kem = true

variable {table : BackendName → Capabilities} {environ name : Option Str} {algorithm : Str}
  {allowTestBackend : Bool} {requireKem : Option Str} {forPrivateKey : Option Bytes}
  {b : BackendName}

theorem lacksKem_eq_false {c : Capabilities} :
    lacksKem c requireKem = false ↔ Encapsulates c requireKem := by
  unfold lacksKem Encapsulates
  cases given requireKem with
  | none => simp
  | some kem => simp

theorem name_of_getBackend {requested : Str} (h : getBackend requested = .ok b) :
    b.name = requested := by
  unfold getBackend at h
  cases hfind : [openssl, pyfips, test].find? fun b => decide (b.name = requested) with
  | none =>
      rw [hfind] at h
      cases h
  | some c =>
      rw [hfind] at h
      obtain rfl := Except.ok.inj h
      have hfound := List.find?_some hfind
      exact of_decide_eq_true hfound

/-- A backend that is chosen by name does everything that was asked for. -/
theorem named_delivers {requested : Str} (hname : requestedName environ name = some requested)
    (h : selectBackend table environ name algorithm allowTestBackend requireKem forPrivateKey =
      .ok b) :
    Signs (table b) b algorithm allowTestBackend ∧ Encapsulates (table b) requireKem := by
  simp only [selectBackend, hname] at h
  cases hget : getBackend requested with
  | error e =>
      rw [hget] at h
      cases h
  | ok backend =>
      rw [hget] at h
      simp only [bind, Except.bind] at h
      split_ifs at h with htest havailable hsignature hkem
      obtain rfl := Except.ok.inj h
      simp only [Bool.not_eq_true', Bool.not_eq_false] at havailable hsignature
      refine ⟨⟨havailable, hsignature, ?_⟩, lacksKem_eq_false.mp (Bool.not_eq_true _ ▸ hkem)⟩
      rintro rfl
      by_contra hallow
      exact htest ⟨(name_of_getBackend hget).symm, Bool.not_eq_true _ ▸ hallow⟩

/-- A backend that is chosen by preference does everything that was asked for. -/
theorem preferred_delivers (hname : requestedName environ name = none)
    (hkey : given forPrivateKey = none)
    (h : selectBackend table environ name algorithm allowTestBackend requireKem forPrivateKey =
      .ok b) :
    Signs (table b) b algorithm allowTestBackend ∧ Encapsulates (table b) requireKem := by
  simp only [selectBackend, hname, hkey] at h
  cases hfind : preference.find? fun b => (table b).available &&
      (table b).supportsSignature algorithm && !lacksKem (table b) requireKem with
  | none =>
      rw [hfind] at h
      cases h
  | some c =>
      rw [hfind] at h
      obtain rfl := Except.ok.inj h
      have hcapable := List.find?_some hfind
      simp only [Bool.and_eq_true, Bool.not_eq_true'] at hcapable
      refine ⟨⟨hcapable.1.1, hcapable.1.2, ?_⟩, lacksKem_eq_false.mp hcapable.2⟩
      rintro rfl
      exact absurd (List.mem_of_find?_eq_some hfind) (by decide)

/-- By the format of the key a backend is chosen without regard to the KEM. -/
theorem keyFormat_eq_ok (hname : requestedName environ name = none) {key : Bytes}
    (hkey : given forPrivateKey = some key) :
    selectBackend table environ name algorithm allowTestBackend requireKem forPrivateKey = .ok b ↔
      b = detectPrivateKeyBackend key ∧ Signs (table b) b algorithm allowTestBackend := by
  simp only [selectBackend, hname, hkey]
  split_ifs with htest hcapable
  · constructor
    · exact fun h => by cases h
    · rintro ⟨rfl, hsigns⟩
      rw [hsigns.test htest.1] at htest
      cases htest.2
  · rw [Bool.and_eq_true] at hcapable
    rw [Except.ok.injEq]
    constructor
    · rintro rfl
      refine ⟨rfl, hcapable.1, hcapable.2, fun heq => ?_⟩
      by_contra hallow
      exact htest ⟨heq, Bool.not_eq_true _ ▸ hallow⟩
    · exact fun h => h.1.symm
  · constructor
    · exact fun h => by cases h
    · rintro ⟨rfl, hsigns⟩
      rw [hsigns.available, hsigns.signature] at hcapable
      exact absurd rfl hcapable

/-- The choice by key format meets a KEM: no name is given, a key and a KEM are, and the
backend of the key's format would be returned although it does not support the KEM. -/
def KeyFormatIgnoresKem (table : BackendName → Capabilities) (environ name : Option Str)
    (algorithm : Str) (allowTestBackend : Bool) (requireKem : Option Str)
    (forPrivateKey : Option Bytes) : Prop :=
  requestedName environ name = none ∧ ∃ key, given forPrivateKey = some key ∧
    Signs (table (detectPrivateKeyBackend key)) (detectPrivateKeyBackend key) algorithm
      allowTestBackend ∧
    ∃ kem, given requireKem = some kem ∧
      (table (detectPrivateKeyBackend key)).supportsKem kem = false

/-- Every backend that is returned is available, signs, supports the KEM that was asked for and
is the test backend only if allowed, exactly if the key's format does not decide over a KEM that
its backend lacks. -/
theorem selectBackend_delivers_iff (table : BackendName → Capabilities)
    (environ name : Option Str) (algorithm : Str) (allowTestBackend : Bool) (requireKem : Option Str)
    (forPrivateKey : Option Bytes) :
    (∀ b, selectBackend table environ name algorithm allowTestBackend requireKem forPrivateKey =
        .ok b →
      (table b).available = true ∧ (table b).supportsSignature algorithm = true ∧
        (∀ kem, given requireKem = some kem → (table b).supportsKem kem = true) ∧
        (b = test → allowTestBackend = true)) ↔
      ¬ KeyFormatIgnoresKem table environ name algorithm allowTestBackend requireKem
        forPrivateKey := by
  constructor
  · rintro h ⟨hname, key, hkey, hsigns, kem, hkem, hlacks⟩
    have hchosen : selectBackend table environ name algorithm allowTestBackend requireKem
        forPrivateKey = .ok (detectPrivateKeyBackend key) :=
      (keyFormat_eq_ok hname hkey).mpr ⟨rfl, hsigns⟩
    have hkem := (h _ hchosen).2.2.1 kem hkem
    rw [hlacks] at hkem
    cases hkem
  · intro h b hb
    suffices hboth : Signs (table b) b algorithm allowTestBackend ∧
        Encapsulates (table b) requireKem from
      ⟨hboth.1.available, hboth.1.signature, hboth.2, hboth.1.test⟩
    cases hname : requestedName environ name with
    | some requested => exact named_delivers hname hb
    | none =>
        cases hkey : given forPrivateKey with
        | none => exact preferred_delivers hname hkey hb
        | some key =>
            obtain ⟨rfl, hsigns⟩ := (keyFormat_eq_ok hname hkey).mp hb
            refine ⟨hsigns, fun kem hkem => ?_⟩
            by_contra hlacks
            exact h ⟨hname, key, hkey, hsigns, kem, hkem, Bool.not_eq_true _ ▸ hlacks⟩

/-- What the backends can do where only the signature half of the portable backend is there. -/
def signaturesOnly : BackendName → Capabilities
  | pyfips => ⟨true, [lit "ML-DSA-44", lit "ML-DSA-65", lit "ML-DSA-87"], []⟩
  | _ => ⟨false, [], []⟩

/-- For a raw private key the archive functions are handed a backend without their KEM. -/
theorem decryption_backend_lacks_kem :
    ¬ ∀ b, selectBackend signaturesOnly none none defaultSignatureAlgorithm false
        (some (lit "ML-KEM-768")) (some [7]) = .ok b →
      (signaturesOnly b).available = true ∧
        (signaturesOnly b).supportsSignature defaultSignatureAlgorithm = true ∧
        (∀ kem, given (some (lit "ML-KEM-768")) = some kem →
          (signaturesOnly b).supportsKem kem = true) ∧
        (b = test → false = true) := by
  intro h
  have hchosen : selectForDecryption signaturesOnly none [7] = .ok pyfips := by decide
  have hkem := (h pyfips hchosen).2.2.1 (lit "ML-KEM-768") (by decide)
  cases hkem

/-! ## The callers -/

/-- Without a private key nothing is chosen that lacks the KEM. -/
theorem selectRealBackend_delivers {requireRealCrypto : Bool}
    (h : selectRealBackend table environ algorithm requireKem requireRealCrypto name = .ok b) :
    Signs (table b) b algorithm (!requireRealCrypto) ∧ Encapsulates (table b) requireKem := by
  cases hname : requestedName environ name with
  | some requested => exact named_delivers hname h
  | none => exact preferred_delivers hname rfl h

end BackendName

end IcsDeception
