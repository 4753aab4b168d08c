import IcsDeception.Lib.Calendar
import IcsDeception.Lib.Json.Written
import IcsDeception.Lib.Utf8
import IcsDeception.Lib.Base64
import IcsDeception.Lib.Sha3Unrolled

/-!
# What the package takes from its interpreter and platform

The exceptions that the modelled code raises or lets through, and the parts of the
interpreter that are not written in the repository: date parsing, the hash, the
recursion limits of the JSON reader and writer, the largest file, the padding of base64,
the spelling of floats, and the conversions `int`, `bool` and `str`.

## Implementation notes

An exception is its class, with the reason code where the class carries one. The
message texts are left out: nothing in the package reads them.
-/

namespace IcsDeception

open Text Calendar

/-- The reason codes of `EvidenceValidationError`. -/
inductive Reason
  | malformedEvidence
  | oversizedEvidence
  | unsupportedAlgorithm
  | unsupportedFormatVersion
  deriving DecidableEq

/-- The exceptions of the package, and the built-in ones that can pass through it. -/
inductive Exn
  | canonicalization
  | validation (reason : Reason)
  | keyRegistry
  | verifier
  | backend
  | signer
  | stateCorruption
  | stateLock
  | evidenceStore
  | transactionAborted
  | stateDivergence
  | osError
  | unicodeEncode
  | valueError
  | typeError
  | attributeError
  | overflow
  | recursion
  deriving DecidableEq

/-- The lowercase hexadecimal digits. -/
def isHexDigit (c : CodePoint) : Bool :=
  (0x30 ≤ c.val && c.val ≤ 0x39) || (0x61 ≤ c.val && c.val ≤ 0x66)

/-- The form of a SHA3-256 hex digest. -/
def IsDigest (s : Str) : Prop := s.length = 64 ∧ ∀ c ∈ s, isHexDigit c = true

instance (s : Str) : Decidable (IsDigest s) :=
  @instDecidableAnd _ _ _ (List.decidableBAll (fun c => isHexDigit c = true) s)

/-- The interpreter and platform, with what is documented about them. -/
structure Interp where
  /-- How deep the JSON reader nests before it raises `RecursionError`. -/
  jsonLimit : Nat
  jsonLimit_le : 64 ≤ jsonLimit
  /-- How deep the JSON writer nests before it raises `RecursionError`. -/
  dumpLimit : Nat
  dumpLimit_le : 64 ≤ dumpLimit
  /-- The size of the largest file that the file system takes. -/
  fileLimit : Nat
  fileLimit_lt : fileLimit < 2 ^ 63
  /-- Whether `strftime("%Y")` pads years below 1000. -/
  padYears : Bool
  /-- `datetime.fromisoformat`, `none` when it raises `ValueError`. -/
  fromisoformat : Str → Option Reading
  fromisoformat_text : ∀ i : Instant, 1000 ≤ i.year →
    fromisoformat (i.text padYears ++ lit "+00:00") = some ⟨i, some 0⟩
  /-- `hashlib.sha3_256(data).hexdigest()`. -/
  sha3_256 : Bytes → Str
  sha3_256_digest : ∀ b, IsDigest (sha3_256 b)
  /-- Whether `base64.b64decode(text, validate=True)` takes so many padding symbols too many
  behind so many symbols. -/
  excessPadding : Nat → Nat → Bool
  /-- How the JSON writer spells the float that a literal denotes. -/
  floatText : Str → Str
  floatText_spelled : ∀ l, Json.FloatText l →
    Json.FloatText (floatText l) ∧ floatText (floatText l) = floatText l
  /-- `int(text)`, `none` when it raises `ValueError`. -/
  intOfText : Str → Option Int
  /-- `int(x)` of a float given by its literal. -/
  intOfFloat : Str → Except Exn Int
  /-- Whether the float given by a literal is zero. -/
  isZero : Str → Bool
  /-- `str(x)` of a value that is not a text. -/
  strOf : Json.Value → Str

namespace Interp

/-- `base64.b64decode(text, validate=True)`. -/
def b64decode (py : Interp) (text : Str) : Option Bytes := Base64.decodeWith py.excessPadding text

/-- `int(v)`. -/
def intOf (py : Interp) : Json.Value → Except Exn Int
  | .int i => .ok i
  | .bool b => .ok (if b then 1 else 0)
  | .float l => py.intOfFloat l
  | .str s =>
      match py.intOfText s with
      | none => .error .valueError
      | some i => .ok i
  | _ => .error .typeError

/-- `str(v)`. -/
def textOf (py : Interp) : Json.Value → Str
  | .str s => s
  | v => py.strOf v

/-- `bool(v)`. -/
def truth (py : Interp) : Json.Value → Bool
  | .null => false
  | .bool b => b
  | .int i => i ≠ 0
  | .float l => !py.isZero l
  | .str s => !s.isEmpty
  | .list xs => !xs.isEmpty
  | .tuple xs => !xs.isEmpty
  | .dict kvs => !kvs.isEmpty
  | .other _ => true

end Interp

/-- An optional sign and decimal digits. -/
def readInt : Str → Option Int
  | [] => none
  | c :: rest =>
      if c = cp '-' then
        if rest ≠ [] ∧ rest.all Decimal.isDigit then some (-Decimal.digitsValue rest) else none
      else if (c :: rest).all Decimal.isDigit then some (Decimal.digitsValue (c :: rest)) else none

theorem isDigest_zeros : IsDigest (List.replicate 64 (cp '0')) := by decide

theorem eq_ok_of_toOption {ε α β : Type} {r : Except ε α} {f : α → β} {b : β}
    (h : r.toOption.map f = some b) : ∃ a, r = .ok a ∧ f a = b := by
  cases r with
  | error e => simp [Except.toOption] at h
  | ok a => exact ⟨a, rfl, by simpa [Except.toOption] using h⟩

theorem isHexDigit_hexChar : ∀ n < 16, isHexDigit (Json.hexChar n) = true := by decide

/-- An interpreter with the real hash and the common part of date parsing, which takes any
padding behind complete groups, as Python 3.11 does. The conversions of values that no state
or record of the package holds are not its own, and floats are taken as they are spelled. -/
def Interp.reference : Interp where
  jsonLimit := 1000
  jsonLimit_le := by decide
  dumpLimit := 300
  dumpLimit_le := by decide
  fileLimit := 2 ^ 44
  fileLimit_lt := by decide
  padYears := true
  fromisoformat := readIso
  fromisoformat_text i hy := readIso_text true i hy
  sha3_256 := Sha3.hexdigest
  sha3_256_digest b := by
    refine ⟨Sha3.hexdigest_length b, fun c hc => ?_⟩
    obtain ⟨n, hn, rfl⟩ := Sha3.mem_hexdigest hc
    exact isHexDigit_hexChar n hn
  excessPadding symbols _ := symbols ≠ 0 ∧ symbols % 4 = 0
  floatText := id
  floatText_spelled l h := ⟨h, rfl⟩
  intOfText := readInt
  intOfFloat _ := .error .valueError
  isZero _ := false
  strOf _ := lit "<value>"

namespace Interp

/-- The same interpreter, with its hash computed another way. -/
def withHash (py : Interp) (f : Bytes → Str) (h : py.sha3_256 = f) : Interp :=
  { py with
    sha3_256 := f
    sha3_256_digest := h ▸ py.sha3_256_digest }

theorem eq_withHash (py : Interp) {f : Bytes → Str} (h : py.sha3_256 = f) :
    py = py.withHash f h := by
  subst h
  rfl

/-- The reference interpreter, with the hash that evaluates fast. -/
def unrolled : Interp := reference.withHash Sha3.hexdigestUnrolled Sha3.hexdigest_eq_unrolled

theorem reference_eq_unrolled : reference = unrolled :=
  eq_withHash reference Sha3.hexdigest_eq_unrolled

end Interp

end IcsDeception
