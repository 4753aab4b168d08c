import IcsDeception.Envelope
import IcsDeception.Lib.Dict
import IcsDeception.Lib.Json.Depth

/-!
# Events and their preparation for signing

What a component hands to `EventPublisher.build`, the event that is made of it, and the
bounded dictionary that `EvidenceSink.bound_event` makes of the event.

## Implementation notes

A detail is what the caller passes; a datum is what `_truncate` leaves of it, so that an
event holds neither bytes nor tuples. A float is its `repr`. How numbers of different kinds
compare is the interpreter's, and only matters where they are keys of one dictionary. Where
writing fails in two ways at once, which exception comes first is not kept: every caller
treats them alike.
-/

namespace IcsDeception

open Text Json

namespace Publisher

/-- The `repr` of a float. -/
abbrev FloatLiteral := { l : Str // FloatText l }

/-- A number that is a dictionary key. -/
inductive Number
  | bool (b : Bool)
  | int (i : Int)
  | float (l : FloatLiteral)

/-- A dictionary key among the details. -/
inductive DetailKey
  | text (s : Str)
  | number (n : Number)
  | none
  | bytes (b : Bytes)

/-- A value among the keyword details of an event. -/
inductive Detail
  | none
  | bool (b : Bool)
  | int (i : Int)
  | float (l : FloatLiteral)
  | str (s : Str)
  | bytes (b : Bytes)
  | list (xs : List Detail)
  | tuple (xs : List Detail)
  | dict (kvs : List (DetailKey × Detail))

/-- A value that an event holds. -/
inductive Datum
  | none
  | bool (b : Bool)
  | int (i : Int)
  | float (l : FloatLiteral)
  | str (s : Str)
  | list (xs : List Datum)
  | dict (kvs : List (DetailKey × Datum))

/-- `MAX_DETAIL_STRING`. -/
def maxDetailString : Nat := 512

/-- `bytes.hex`. -/
def hexText (b : Bytes) : Str :=
  b.flatMap fun x => [hexChar (x.toNat / 16), hexChar (x.toNat % 16)]

mutual
/-- `_truncate`. -/
def truncate : Detail → Datum
  | .none => .none
  | .bool b => .bool b
  | .int i => .int i
  | .float l => .float l
  | .str s =>
      if maxDetailString < s.length then .str (s.take maxDetailString ++ lit "...[truncated]")
      else .str s
  | .bytes b => .str (hexText (b.take (maxDetailString / 2)))
  | .list xs => .list (truncateItems xs)
  | .tuple xs => .list (truncateItems xs)
  | .dict kvs => .dict (truncateMembers kvs)
/-- The items of a list, truncated. -/
def truncateItems : List Detail → List Datum
  | [] => []
  | x :: xs => truncate x :: truncateItems xs
/-- The members of a dictionary, truncated; the keys are kept. -/
def truncateMembers : List (DetailKey × Detail) → List (DetailKey × Datum)
  | [] => []
  | (k, x) :: rest => (k, truncate x) :: truncateMembers rest
end

mutual
/-- How many calls of `_truncate` a value takes, one inside the other. -/
def Detail.calls : Detail → Nat
  | .list xs => Detail.callsItems xs + 1
  | .tuple xs => Detail.callsItems xs + 1
  | .dict kvs => Detail.callsMembers kvs + 1
  | _ => 1
/-- The calls for the items. -/
def Detail.callsItems : List Detail → Nat
  | [] => 0
  | x :: xs => max x.calls (Detail.callsItems xs)
/-- The calls for the members. -/
def Detail.callsMembers : List (DetailKey × Detail) → Nat
  | [] => 0
  | (_, x) :: rest => max x.calls (Detail.callsMembers rest)
end

/-- `Event`. -/
structure Event where
  source : Str
  eventType : Str
  details : Dict Str Datum
  timestamp : Str

/-- `EventPublisher.build`, under an interpreter that nests `callLimit` calls. -/
def build (callLimit : Nat) (source eventType : Str) (details : Dict Str Detail)
    (timestamp : Str) : Except Exn Event :=
  if ∃ p ∈ details, callLimit < p.2.calls then .error .recursion
  else .ok ⟨source, eventType, details.map fun p => (p.1, truncate p.2), timestamp⟩

/-! ## Writing an event as JSON -/

/-- The text of a number. -/
def Number.jsonText : Number → Except Exn Str
  | .bool b => .ok (lit (if b then "true" else "false"))
  | .float l => .ok l.val
  | .int i =>
      match dumpInt i with
      | .ok t => .ok t
      | .error _ => .error .valueError

/-- The text under which the writer puts a key. -/
def DetailKey.jsonText : DetailKey → Except Exn Str
  | .text s => .ok s
  | .number n => n.jsonText
  | .none => .ok (lit "null")
  | .bytes _ => .error .typeError

/-- Members under their texts, in the order given. -/
def rendered (ms : List (DetailKey × Value)) : Except Exn (List (Str × Value)) :=
  ms.mapM fun p => do return (← p.1.jsonText, p.2)

/-- The text of a key that is one. -/
def DetailKey.text? : DetailKey → Option Str
  | .text s => some s
  | _ => Option.none

/-- The number of a key that is one. -/
def DetailKey.number? : DetailKey → Option Number
  | .number n => some n
  | _ => Option.none

/-- `sorted(items)`, then the members under their texts: texts are only compared with texts
and numbers with numbers, and a single member is compared with none. -/
def sortedItems (numberLe : Number → Number → Bool) (ms : List (DetailKey × Value)) :
    Except Exn (List (Str × Value)) :=
  match ms.mapM fun p => p.1.text?.map (·, p.2) with
  | some texts => .ok (sortMembers texts)
  | Option.none =>
      match ms.mapM fun p => p.1.number?.map (·, p.2) with
      | some numbers =>
          rendered ((numbers.insertionSort fun p q => numberLe p.1 q.1).map
            fun p => (.number p.1, p.2))
      | Option.none => if ms.length ≤ 1 then rendered ms else .error .typeError

mutual
/-- The value that the writer writes, its members in written order. -/
def Datum.value (items : List (DetailKey × Value) → Except Exn (List (Str × Value))) :
    Datum → Except Exn Value
  | .none => .ok .null
  | .bool b => .ok (.bool b)
  | .int i => .ok (.int i)
  | .float l => .ok (.float l.val)
  | .str s => .ok (.str s)
  | .list xs => do return .list (← Datum.valueItems items xs)
  | .dict kvs => do return .ofMembers (← items (← Datum.valueMembers items kvs))
/-- The items of a list. -/
def Datum.valueItems (items : List (DetailKey × Value) → Except Exn (List (Str × Value))) :
    List Datum → Except Exn (List Value)
  | [] => .ok []
  | x :: xs => do return (← x.value items) :: (← Datum.valueItems items xs)
/-- The members of a dictionary, under their keys. -/
def Datum.valueMembers (items : List (DetailKey × Value) → Except Exn (List (Str × Value))) :
    List (DetailKey × Datum) → Except Exn (List (DetailKey × Value))
  | [] => .ok []
  | (k, x) :: rest => do return (k, ← x.value items) :: (← Datum.valueMembers items rest)
end

/-- `json.dumps` of a value whose members are in written order. -/
def dumps (py : Interp) (st : Style) (v : Value) : Except Exn Str :=
  if py.dumpLimit < v.nest then .error .recursion
  else
    match dump st 0 v with
    | .ok text => .ok text
    | .error .tooManyDigits => .error .valueError
    | .error .unsupported => .error .typeError

/-! ## Preparing an event for signing -/

/-- `MAX_SIGNED_EVENT_BYTES`. -/
def maxSignedEventBytes : Nat := 16384

/-- The style of `json.dumps(payload, separators=(",", ":"), sort_keys=True)`. -/
def signedStyle : Style := ⟨true, false, lit ",", lit ":", Option.none⟩

/-- The members of `payload`: a detail may take the place of the source. -/
def Event.members (e : Event) : Dict Str Datum :=
  e.details.foldl (fun d p => d.store p.1 p.2)
    [(lit "source", .str e.source), (lit "event_type", .str e.eventType)]

/-- `payload`. -/
def Event.payload (e : Event) : Datum := .dict (e.members.map fun p => (.text p.1, p.2))

/-- What takes the place of a large payload. -/
def Event.digest (py : Interp) (e : Event) (encoded : Str) (bytes : Bytes) :
    List (Str × Value) :=
  [(lit "source", .str e.source),
   (lit "event_type", .str e.eventType),
   (lit "payload_truncated", .bool true),
   (lit "payload_bytes", .int encoded.length),
   (lit "payload_sha3_256", .str (py.sha3_256 bytes))]

/-- `EvidenceSink.bound_event`. -/
def boundEvent (py : Interp) (numberLe : Number → Number → Bool) (e : Event) :
    Except Exn Value := do
  let payload ← e.payload.value (sortedItems numberLe)
  let encoded ← dumps py signedStyle payload
  if encoded.length ≤ maxSignedEventBytes then
    match loads py.jsonLimit encoded with
    | .ok v => .ok v
    | .error .recursion => .error .recursion
    | .error _ => .error .valueError
  else
    match Utf8.encode encoded with
    | Option.none => .error .unicodeEncode
    | some bytes => .ok (.ofMembers (e.digest py encoded bytes))

end Publisher

end IcsDeception
