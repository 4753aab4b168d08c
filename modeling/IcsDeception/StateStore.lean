import IcsDeception.EventChain

/-!
# The chain state of a node

What the state file holds, how it is checked when it is read, and how it is written.

## Implementation notes

The key identifier is a value and not a text: a journal may hold anything under
`key_id`, and recovery writes it into the state as it stands. The format version is the
one of the package in every state that exists, and the time of the last update is only
written, so neither is a field.
-/

namespace IcsDeception

open Text Json Calendar

/-- `NodeState`. -/
structure NodeState where
  nodeId : Str
  keyId : Value
  lastSequence : Int
  lastEventHash : Option Str

namespace NodeState

/-- `EVIDENCE_FORMAT_VERSION`. -/
def formatVersion : Str := lit "1.0"

/-- `NodeState(node_id, key_id)`. -/
def zero (nodeId keyId : Str) : NodeState := ⟨nodeId, .str keyId, 0, none⟩

/-- An optional text as a value. -/
def optionalText : Option Str → Value
  | none => .null
  | some s => .str s

/-- `NodeState.to_dict`, at the given time of update. -/
def toDict (st : NodeState) (updatedAt : Str) : List (Str × Value) :=
  [(lit "node_id", .str st.nodeId),
   (lit "key_id", st.keyId),
   (lit "last_sequence", .int st.lastSequence),
   (lit "last_event_hash", optionalText st.lastEventHash),
   (lit "format_version", .str formatVersion),
   (lit "updated_at", .str updatedAt)]

/-- The fields that a state must have. -/
def required : List Str :=
  [lit "node_id", lit "key_id", lit "last_sequence", lit "format_version"]

/-- A condition that a readable state meets. -/
def ensure (condition : Bool) : Except Exn Unit :=
  if condition then .ok () else .error .stateCorruption

/-- A field that must be a text and not empty. -/
def identifier : Value → Except Exn Str
  | .str s => if s = [] then .error .stateCorruption else .ok s
  | _ => .error .stateCorruption

/-- The field `last_sequence`. -/
def position : Value → Except Exn Int
  | .int i => if i < 0 then .error .stateCorruption else .ok i
  | _ => .error .stateCorruption

/-- The field `last_event_hash`. -/
def digest : Value → Except Exn (Option Str)
  | .null => .ok none
  | .str s => if IsDigest s then .ok (some s) else .error .stateCorruption
  | _ => .error .stateCorruption

/-- `NodeState.from_dict`. -/
def fromDict (expectedNodeId : Str) : Value → Except Exn NodeState
  | .dict data => do
      ensure (required.all fun f => (data.lookup (.str f)).isSome)
      let nodeId ← identifier (Models.field data "node_id")
      ensure (nodeId = expectedNodeId)
      let keyId ← identifier (Models.field data "key_id")
      let lastSequence ← position (Models.field data "last_sequence")
      let lastEventHash ← digest (Models.field data "last_event_hash")
      ensure (lastSequence = 0 ∨ lastEventHash.isSome)
      ensure (lastSequence ≠ 0 ∨ lastEventHash.isNone)
      let version ← identifier (Models.field data "format_version")
      ensure (version = formatVersion)
      return ⟨nodeId, .str keyId, lastSequence, lastEventHash⟩
  | _ => .error .stateCorruption

/-- The bytes that `json.dump(state.to_dict(), handle, indent=2, sort_keys=True)` and a
final newline leave in the file. -/
def fileBytes (py : Interp) (st : NodeState) (updatedAt : Instant) : Except Exn Bytes :=
  let v := Value.ofMembers (st.toDict (updatedAt.text py.padYears ++ [cp 'Z']))
  if py.dumpLimit < v.nest then .error .recursion
  else
    match dump Style.indented 0 v with
    | .ok text => .ok (Utf8.encodeAll (text ++ [lf]))
    | .error .tooManyDigits => .error .valueError
    | .error .unsupported => .error .typeError

/-- A state whose text stays within the limits of the writer. -/
def Writable (py : Interp) (st : NodeState) : Prop :=
  st.keyId.nest + 1 ≤ py.dumpLimit ∧ (∃ t, dump Style.indented 1 st.keyId = .ok t) ∧
    (Decimal.natText st.lastSequence.natAbs).length ≤ maxDigits

theorem nest_toDict (st : NodeState) (updatedAt : Str) :
    (Value.ofMembers (st.toDict updatedAt)).nest = st.keyId.nest + 1 := by
  have h : (optionalText st.lastEventHash).nest = 0 := by
    cases st.lastEventHash <;> rfl
  simp [Value.ofMembers, toDict, Value.nest, Value.nestMembers, h]

theorem dump_toDict (st : NodeState) (updatedAt : Str) :
    (∃ t, dump Style.indented 0 (Value.ofMembers (st.toDict updatedAt)) = .ok t) ↔
      (∃ t, dump Style.indented 1 st.keyId = .ok t) ∧
        (Decimal.natText st.lastSequence.natAbs).length ≤ maxDigits := by
  obtain ⟨h, hh⟩ : ∃ t, dump Style.indented 1 (optionalText st.lastEventHash) = .ok t := by
    cases st.lastEventHash <;> exact ⟨_, rfl⟩
  simp only [Value.ofMembers, toDict, List.map_cons, List.map_nil, dump, dumpMembers, hh,
    dumpInt, bind, Except.bind, pure, Except.pure]
  cases dump Style.indented 1 st.keyId with
  | error e => simp
  | ok t =>
      by_cases hd : maxDigits < (Decimal.natText st.lastSequence.natAbs).length
      · simp [hd]
      · simp [hd, Nat.not_lt.mp hd]

theorem fileBytes_ok {py : Interp} {st : NodeState} (h : Writable py st) (time : Instant) :
    ∃ b, fileBytes py st time = .ok b := by
  obtain ⟨t, ht⟩ := (dump_toDict st (time.text py.padYears ++ [cp 'Z'])).mpr h.2
  refine ⟨Utf8.encodeAll (t ++ [lf]), ?_⟩
  simp only [fileBytes, nest_toDict, ht]
  exact if_neg (Nat.not_lt.mpr h.1)

theorem fileBytes_error {py : Interp} {st : NodeState} (h : ¬ Writable py st) (time : Instant) :
    ∃ e, fileBytes py st time = .error e := by
  simp only [fileBytes, nest_toDict]
  split_ifs with hn
  · exact ⟨_, rfl⟩
  · cases hd : dump Style.indented 0
        (Value.ofMembers (st.toDict (time.text py.padYears ++ [cp 'Z']))) with
    | ok t => exact absurd ⟨by omega, (dump_toDict st _).mp ⟨t, hd⟩⟩ h
    | error e => cases e <;> exact ⟨_, rfl⟩

/-- A condition on each outcome of writing a state: an error, or the bytes of the file. -/
def OnWrite (py : Interp) (st : NodeState) (E : Exn → Prop) (K : Bytes → Prop) : Prop :=
  ∀ time, match fileBytes py st time with
    | .error e => E e
    | .ok b => K b

theorem onWrite_congr {py : Interp} {st : NodeState} {E E' : Exn → Prop} {K K' : Bytes → Prop}
    (hE : ∀ e, E e ↔ E' e) (hK : ∀ b, K b ↔ K' b) : OnWrite py st E K ↔ OnWrite py st E' K' := by
  refine forall_congr' fun time => ?_
  cases fileBytes py st time with
  | error e => exact hE e
  | ok b => exact hK b

theorem onWrite_of_writable {py : Interp} {st : NodeState} (h : Writable py st) {E : Exn → Prop}
    {K : Bytes → Prop} (hK : ∀ time b, fileBytes py st time = .ok b → K b) : OnWrite py st E K := by
  intro time
  obtain ⟨b, hb⟩ := fileBytes_ok h time
  simpa only [hb] using hK time b hb

theorem onWrite_of_not_writable {py : Interp} {st : NodeState} (h : ¬ Writable py st)
    {E : Exn → Prop} {K : Bytes → Prop} (hE : ∀ e, E e) : OnWrite py st E K := by
  intro time
  obtain ⟨e, he⟩ := fileBytes_error h time
  simpa only [he] using hE e

/-- What reading the text of a JSON file comes to. -/
inductive Reading
  /-- The bytes are not UTF-8 or the text is not JSON. -/
  | unreadable
  | value (v : Value)

/-- `json.loads(path.read_text(encoding="utf-8"))`, with the two errors that the callers
catch told apart from the others. -/
def readJson (py : Interp) (b : Bytes) : Except Exn Reading :=
  match Utf8.decodeStrict b with
  | none => .ok .unreadable
  | some text =>
      match loads py.jsonLimit (universalNewlines text) with
      | .ok v => .ok (.value v)
      | .error .recursion => .error .recursion
      | .error .digits => .error .valueError
      | .error _ => .ok .unreadable

/-- The state in the bytes of a state file. The reader refuses a blank text before it
parses; a blank text is no JSON either, so the outcome is the same. -/
def ofFile (py : Interp) (nodeId : Str) (b : Bytes) : Except Exn NodeState := do
  match ← readJson py b with
  | .unreadable => .error .stateCorruption
  | .value v => fromDict nodeId v

end NodeState

end IcsDeception
