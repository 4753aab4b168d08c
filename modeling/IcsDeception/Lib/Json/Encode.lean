import IcsDeception.Lib.Json.Value
import IcsDeception.Lib.Decimal

/-!
# Writing JSON

`dump` writes a value in a style: separators, optional indentation, optional key
sorting, and whether text outside ASCII is escaped. `norm` is the value that a
reader will get back from the written text.

## Implementation notes

Members are written before they are sorted, and the written members are sorted by
key. Keys are distinct, so sorting the members first gives the same text, and the
recursion stays structural.
-/

namespace IcsDeception.Json

open Text Decimal

/-- Integer texts longer than this are refused in both directions. -/
def maxDigits : Nat := 4300

/-- The hexadecimal digit of a number below sixteen, in lower case. -/
def hexChar (n : Nat) : CodePoint :=
  ofCode (if n < 10 then 0x30 + n else 0x57 + n)

/-- Four hexadecimal digits. -/
def hex4 (n : Nat) : Str :=
  [hexChar (n / 4096 % 16), hexChar (n / 256 % 16), hexChar (n / 16 % 16), hexChar (n % 16)]

/-- The escape of a sixteen-bit unit. -/
def unicodeEscape (n : Nat) : Str := cp '\\' :: cp 'u' :: hex4 n

/-- The letter of a one-letter escape, for the characters that have one. -/
def shortEscape (c : CodePoint) : Option CodePoint :=
  if c = cp '"' then some (cp '"')
  else if c = cp '\\' then some (cp '\\')
  else if c = cp '\x08' then some (cp 'b')
  else if c = cp '\t' then some (cp 't')
  else if c = cp '\n' then some (cp 'n')
  else if c = cp '\x0c' then some (cp 'f')
  else if c = cp '\r' then some (cp 'r')
  else none

/-- One character of a quoted text. -/
def escapeOne (ascii : Bool) (c : CodePoint) : Str :=
  match shortEscape c with
  | some e => [cp '\\', e]
  | none =>
      if c.val < 0x20 then unicodeEscape c.val
      else if ascii = true ∧ 0x7F ≤ c.val then
        if c.val < 0x10000 then unicodeEscape c.val
        else unicodeEscape (0xD800 + (c.val - 0x10000) / 0x400) ++
          unicodeEscape (0xDC00 + (c.val - 0x10000) % 0x400)
      else [c]

/-- The characters between the quotes. -/
def escape (ascii : Bool) (s : Str) : Str := s.flatMap (escapeOne ascii)

/-- A quoted text. -/
def quote (ascii : Bool) (s : Str) : Str := cp '"' :: (escape ascii s ++ [cp '"'])

/-- How a value is written. -/
structure Style where
  ascii : Bool
  sortKeys : Bool
  itemSeparator : Str
  keySeparator : Str
  indent : Option Nat

/-- The style of `json.dump(obj, handle)`. -/
def Style.default : Style := ⟨true, false, lit ", ", lit ": ", none⟩

/-- The style of `json.dump(obj, handle, indent=2, sort_keys=True)`. -/
def Style.indented : Style := ⟨true, true, lit ",", lit ": ", some 2⟩

/-- The style of `json.dumps(obj, ensure_ascii=False, sort_keys=True, separators=(",", ":"))`. -/
def Style.compact : Style := ⟨false, true, lit ",", lit ":", none⟩

/-- The line break and indentation of a nesting level, or nothing. -/
def Style.newline (st : Style) (level : Nat) : Str :=
  match st.indent with
  | none => []
  | some n => cp '\n' :: List.replicate (n * level) (cp ' ')

/-- Parts with a separator between them. -/
def joined (sep : Str) : List Str → Str
  | [] => []
  | x :: xs => x ++ xs.flatMap (sep ++ ·)

/-- A container around its written parts; an empty container is two brackets. -/
def bracket (st : Style) (level : Nat) (opening closing : CodePoint) (parts : List Str) : Str :=
  match parts with
  | [] => [opening, closing]
  | p :: ps =>
      opening :: (st.newline (level + 1) ++
        joined (st.itemSeparator ++ st.newline (level + 1)) (p :: ps) ++
        st.newline level ++ [closing])

/-- Members ordered by key. -/
def sortMembers {α : Type} (ms : List (Str × α)) : List (Str × α) :=
  ms.insertionSort fun p q => p.1 ≤ q.1

/-- Members in the order in which the style writes them. -/
def Style.order {α : Type} (st : Style) (ms : List (Str × α)) : List (Str × α) :=
  if st.sortKeys then sortMembers ms else ms

/-- A written member. -/
def Style.member (st : Style) (p : Str × Str) : Str := quote st.ascii p.1 ++ st.keySeparator ++ p.2

/-- Why a value cannot be written. -/
inductive DumpError
  | tooManyDigits
  | unsupported
  deriving DecidableEq

/-- An integer, refused when its text is too long. -/
def dumpInt (i : Int) : Except DumpError Str :=
  if maxDigits < (natText i.natAbs).length then .error .tooManyDigits else .ok (intText i)

mutual
/-- `json.dumps` in a given style at a nesting level. -/
def dump (st : Style) (level : Nat) : Value → Except DumpError Str
  | .null => .ok (lit "null")
  | .bool b => .ok (lit (if b then "true" else "false"))
  | .int i => dumpInt i
  | .float l => .ok l
  | .str s => .ok (quote st.ascii s)
  | .list xs => do
      let parts ← dumpItems st (level + 1) xs
      return bracket st level (cp '[') (cp ']') parts
  | .tuple xs => do
      let parts ← dumpItems st (level + 1) xs
      return bracket st level (cp '[') (cp ']') parts
  | .dict kvs => do
      let parts ← dumpMembers st (level + 1) kvs
      return bracket st level (cp '{') (cp '}') ((st.order parts).map st.member)
  | .other _ => .error .unsupported
/-- The written items of a list. -/
def dumpItems (st : Style) (level : Nat) : List Value → Except DumpError (List Str)
  | [] => .ok []
  | v :: vs => do
      let t ← dump st level v
      let ts ← dumpItems st level vs
      return t :: ts
/-- The keys and written values of a dictionary. -/
def dumpMembers (st : Style) (level : Nat) :
    List (Key × Value) → Except DumpError (List (Str × Str))
  | [] => .ok []
  | (.str k, v) :: rest => do
      let t ← dump st level v
      let ts ← dumpMembers st level rest
      return (k, t) :: ts
  | (.other _, _) :: _ => .error .unsupported
end

/-- A high surrogate and a low one behind it are one code point to a reader of escapes. -/
def joinPair (hi lo : CodePoint) : CodePoint :=
  ofCode (0x10000 + (hi.val - 0xD800) * 0x400 + (lo.val - 0xDC00))

/-- A leading surrogate. -/
def isHigh (c : CodePoint) : Bool := 0xD800 ≤ c.val && c.val ≤ 0xDBFF

/-- A trailing surrogate. -/
def isLow (c : CodePoint) : Bool := 0xDC00 ≤ c.val && c.val ≤ 0xDFFF

/-- A text as it is read back from its escapes: adjacent surrogates pair up. -/
def joinSurrogates : Str → Str
  | [] => []
  | [c] => [c]
  | c :: d :: rest =>
      if isHigh c ∧ isLow d then joinPair c d :: joinSurrogates rest
      else c :: joinSurrogates (d :: rest)

/-- A text as it is read back from a style. -/
def Style.readBack (st : Style) (s : Str) : Str := if st.ascii then joinSurrogates s else s

mutual
/-- The value read back from the written text: tuples are lists, members are in
written order. -/
def norm (st : Style) : Value → Value
  | .str s => .str (st.readBack s)
  | .list xs => .list (normItems st xs)
  | .tuple xs => .list (normItems st xs)
  | .dict kvs => Value.ofMembers (st.order (normMembers st kvs))
  | v => v
/-- The items read back. -/
def normItems (st : Style) : List Value → List Value
  | [] => []
  | v :: vs => norm st v :: normItems st vs
/-- The members read back, in insertion order. -/
def normMembers (st : Style) : List (Key × Value) → List (Str × Value)
  | [] => []
  | (.str k, v) :: rest => (st.readBack k, norm st v) :: normMembers st rest
  | (.other _, _) :: rest => normMembers st rest
end

theorem isSurrogate_of_isHigh {c : CodePoint} (h : isHigh c = true) : isSurrogate c = true := by
  simp only [isHigh, isSurrogate, Bool.and_eq_true, decide_eq_true_eq] at h ⊢
  omega

theorem joinSurrogates_of_scalar {s : Str} (h : Scalar s) : joinSurrogates s = s := by
  induction s using joinSurrogates.induct with
  | case1 => rfl
  | case2 c => rfl
  | case3 c d rest hp ih =>
      have hc := (scalar_cons.mp h).1
      rw [isSurrogate_of_isHigh hp.1] at hc
      cases hc
  | case4 c d rest hp ih =>
      rw [joinSurrogates, if_neg hp, ih (scalar_cons.mp h).2]

end IcsDeception.Json
