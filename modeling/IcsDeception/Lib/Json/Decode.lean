import IcsDeception.Lib.Json.Encode

/-!
# Reading JSON

The reader is the interpreter's own: whitespace is only space, tab, LF and CR;
control characters inside a string are refused; an escaped surrogate pair is one
character; `NaN` and the infinities go to a hook; nesting is bounded by the
recursion limit, and integers by the number of their digits. Objects are built by
a hook from their list of pairs.

## Implementation notes

The scanner recurses on fuel. Each character costs at most two calls, so `loads`
gives it twice the length of the text and two more; from there on the result does
not depend on the fuel.
-/

namespace IcsDeception.Json

open Text Decimal

/-- How reading fails. -/
inductive LoadsError
  /-- `JSONDecodeError`. -/
  | decode
  /-- `ValueError`: an integer with too many digits. -/
  | digits
  /-- `RecursionError`. -/
  | recursion
  /-- An exception raised by a hook. -/
  | hook
  deriving DecidableEq

/-- `object_pairs_hook` and `parse_constant`. -/
structure Hooks where
  objectPairs : List (Str × Value) → Except LoadsError Value
  constant : Str → Except LoadsError Value

/-- The hooks of a plain `json.loads`: the last of repeated keys wins. -/
def Hooks.default : Hooks where
  objectPairs pairs := .ok (Value.ofMembers (dictOfPairs pairs))
  constant name := .ok (.float name)

/-- The whitespace of the grammar. -/
def isWs (c : CodePoint) : Bool := c == cp ' ' || c == cp '\t' || c == cp '\n' || c == cp '\r'

/-- Skip whitespace. -/
def skipWs (s : Str) : Str := s.dropWhile isWs

/-- The value of a hexadecimal digit in either case. -/
def hexVal (c : CodePoint) : Option Nat :=
  if 0x30 ≤ c.val ∧ c.val ≤ 0x39 then some (c.val - 0x30)
  else if 0x61 ≤ c.val ∧ c.val ≤ 0x66 then some (c.val - 0x57)
  else if 0x41 ≤ c.val ∧ c.val ≤ 0x46 then some (c.val - 0x37)
  else none

/-- The unit denoted by four hexadecimal digits. -/
def hexUnit (a b c d : CodePoint) : Option CodePoint := do
  let a ← hexVal a
  let b ← hexVal b
  let c ← hexVal c
  let d ← hexVal d
  return ofCode (a * 4096 + b * 256 + c * 16 + d)

/-- The character named by a one-letter escape. -/
def simpleEscape (e : CodePoint) : Option CodePoint :=
  if e = cp '"' ∨ e = cp '\\' ∨ e = cp '/' then some e
  else if e = cp 'b' then some (cp '\x08')
  else if e = cp 't' then some (cp '\t')
  else if e = cp 'n' then some (cp '\n')
  else if e = cp 'f' then some (cp '\x0c')
  else if e = cp 'r' then some (cp '\r')
  else none

/-- Put a character in front of a scanned text. -/
def consText (c : CodePoint) (r : Except LoadsError (Str × Str)) : Except LoadsError (Str × Str) :=
  r.map fun p => (c :: p.1, p.2)

/-- The unit of the escape at the head of a text. -/
def unitAhead : Str → Option CodePoint
  | b :: u :: h1 :: h2 :: h3 :: h4 :: _ =>
      if b = cp '\\' ∧ u = cp 'u' then hexUnit h1 h2 h3 h4 else none
  | _ => none

/-- An escaped high surrogate pairs with the escape of a low one right behind it. -/
def lowAhead (u : CodePoint) (rest : Str) : Option CodePoint :=
  if isHigh u then (unitAhead rest).filter isLow else none

/-- A string behind its opening quote: the text and what follows the closing quote. -/
def scanString : Str → Except LoadsError (Str × Str)
  | [] => .error .decode
  | c :: cs =>
      if c = cp '"' then .ok ([], cs)
      else if c = cp '\\' then
        match cs with
        | [] => .error .decode
        | e :: es =>
            if e = cp 'u' then
              match es with
              | h1 :: h2 :: h3 :: h4 :: rest =>
                  match hexUnit h1 h2 h3 h4 with
                  | none => .error .decode
                  | some u =>
                      if (lowAhead u rest).isSome then
                        match rest with
                        | _ :: _ :: _ :: _ :: _ :: _ :: tail =>
                            consText (joinPair u ((lowAhead u rest).getD u)) (scanString tail)
                        | _ => .error .decode
                      else consText u (scanString rest)
              | _ => .error .decode
            else
              match simpleEscape e with
              | none => .error .decode
              | some x => consText x (scanString es)
      else if c.val < 0x20 then .error .decode
      else consText c (scanString cs)

/-- The integer part of a number: a single zero or a digit string without leading zero. -/
def scanIntPart : Str → Option (Str × Str)
  | [] => none
  | c :: cs =>
      if c = cp '0' then some ([c], cs)
      else if isDigit c then some (c :: cs.takeWhile isDigit, cs.dropWhile isDigit)
      else none

/-- The fraction of a number, empty when there is none. -/
def scanFraction : Str → Str × Str
  | p :: d :: cs =>
      if p = cp '.' ∧ isDigit d then
        (p :: d :: cs.takeWhile isDigit, cs.dropWhile isDigit)
      else ([], p :: d :: cs)
  | s => ([], s)

/-- The exponent of a number, empty when there is none. -/
def scanExponent : Str → Str × Str
  | e :: cs =>
      if e = cp 'e' ∨ e = cp 'E' then
        match cs with
        | g :: d :: rest =>
            if (g = cp '+' ∨ g = cp '-') ∧ isDigit d then
              (e :: g :: d :: rest.takeWhile isDigit, rest.dropWhile isDigit)
            else if isDigit g then
              (e :: g :: (d :: rest).takeWhile isDigit, (d :: rest).dropWhile isDigit)
            else ([], e :: g :: d :: rest)
        | [g] => if isDigit g then ([e, g], []) else ([], [e, g])
        | [] => ([], [e])
      else ([], e :: cs)
  | [] => ([], [])

/-- A number. Without fraction and exponent it is an integer. -/
def scanNumber (s : Str) : Except LoadsError (Value × Str) :=
  let neg := s.head? = some (cp '-')
  match scanIntPart (if neg then s.tail else s) with
  | none => .error .decode
  | some (ds, rest) =>
      let (frac, rest) := scanFraction rest
      let (ex, rest) := scanExponent rest
      if frac = [] ∧ ex = [] then
        if maxDigits < ds.length then .error .digits
        else .ok (.int (if neg then -(digitsValue ds : Int) else digitsValue ds), rest)
      else .ok (.float ((if neg then [cp '-'] else []) ++ ds ++ frac ++ ex), rest)

/-- A literal name or a number. -/
def scanScalar (h : Hooks) (s : Str) : Except LoadsError (Value × Str) :=
  if (lit "null").isPrefixOf s then .ok (.null, s.drop 4)
  else if (lit "true").isPrefixOf s then .ok (.bool true, s.drop 4)
  else if (lit "false").isPrefixOf s then .ok (.bool false, s.drop 5)
  else if (lit "NaN").isPrefixOf s then (h.constant (lit "NaN")).map (·, s.drop 3)
  else if (lit "Infinity").isPrefixOf s then (h.constant (lit "Infinity")).map (·, s.drop 8)
  else if (lit "-Infinity").isPrefixOf s then (h.constant (lit "-Infinity")).map (·, s.drop 9)
  else scanNumber s

/-- The content of a container behind its opening bracket: nothing when it closes at
once, and otherwise the result of scanning its elements. -/
def opened {α : Type} (close : CodePoint) (s : Str) (elements : Except LoadsError (List α × Str)) :
    Except LoadsError (List α × Str) :=
  if (skipWs s).head? = some close then .ok ([], (skipWs s).tail) else elements

mutual
/-- One value: the value and what follows it. -/
def scanOnce (h : Hooks) : Nat → Nat → Str → Except LoadsError (Value × Str)
  | 0, _, _ => .error .decode
  | _ + 1, _, [] => .error .decode
  | fuel + 1, depth, c :: cs =>
      if c = cp '"' then do
        let (s, rest) ← scanString cs
        return (.str s, rest)
      else if c = cp '{' then
        if depth = 0 then .error .recursion
        else do
          let (pairs, rest) ← opened (cp '}') cs (scanMembers h fuel (depth - 1) (skipWs cs))
          let v ← h.objectPairs pairs
          return (v, rest)
      else if c = cp '[' then
        if depth = 0 then .error .recursion
        else do
          let (xs, rest) ← opened (cp ']') cs (scanItems h fuel (depth - 1) (skipWs cs))
          return (.list xs, rest)
      else scanScalar h (c :: cs)
/-- The members of an object up to the closing brace, at least one. -/
def scanMembers (h : Hooks) : Nat → Nat → Str → Except LoadsError (List (Str × Value) × Str)
  | 0, _, _ => .error .decode
  | _ + 1, _, [] => .error .decode
  | fuel + 1, depth, c :: cs =>
      if c = cp '"' then do
        let (key, rest) ← scanString cs
        if (skipWs rest).head? = some (cp ':') then
          let (v, rest) ← scanOnce h fuel depth (skipWs (skipWs rest).tail)
          if (skipWs rest).head? = some (cp '}') then return ([(key, v)], (skipWs rest).tail)
          else if (skipWs rest).head? = some (cp ',') then
            let (ms, rest) ← scanMembers h fuel depth (skipWs (skipWs rest).tail)
            return ((key, v) :: ms, rest)
          else .error .decode
        else .error .decode
      else .error .decode
/-- The items of an array up to the closing bracket, at least one. -/
def scanItems (h : Hooks) : Nat → Nat → Str → Except LoadsError (List Value × Str)
  | 0, _, _ => .error .decode
  | fuel + 1, depth, s => do
      let (v, rest) ← scanOnce h fuel depth s
      if (skipWs rest).head? = some (cp ']') then return ([v], (skipWs rest).tail)
      else if (skipWs rest).head? = some (cp ',') then
        let (vs, rest) ← scanItems h fuel depth (skipWs (skipWs rest).tail)
        return (v :: vs, rest)
      else .error .decode
end

/-- The byte order mark, which the reader refuses. -/
def bom : CodePoint := cp '\uFEFF'

/-- `json.loads(text)` with hooks, under a nesting limit. -/
def loadsWith (h : Hooks) (limit : Nat) (s : Str) : Except LoadsError Value :=
  if s.head? = some bom then .error .decode
  else do
    let (v, rest) ← scanOnce h (2 * s.length + 2) limit (skipWs s)
    if skipWs rest = [] then return v else .error .decode

/-- `json.loads(text)`. -/
def loads (limit : Nat) (s : Str) : Except LoadsError Value := loadsWith Hooks.default limit s

end IcsDeception.Json
