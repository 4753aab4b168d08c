import IcsDeception.Decoy.Logger
import IcsDeception.Lib.Json.Spelled

/-!
# No injection into the native log

The logger with details of any bytes. A reader of JSON for which bytes from 0x80 on are
ordinary characters finds in a line the members of the event and the details as they were
given, in order, and no byte of a line is a control character.

## Implementation notes

Bytes are read as the characters of the same numbers. The reader keeps every pair of an
object, so that a member that a value added would show, and so does a repeated key.
-/

namespace IcsDeception.Decoy

open Text Calendar Json

/-! ## The source on bytes -/

/-- A detail with any bytes, rendered by `jstr` or by `jnum`. -/
inductive Detail
  | str (key value : Bytes)
  | num (key : Bytes) (value : Int64)

/-- The rendered detail. -/
def Detail.render : Detail → Bytes
  | .str key value => jstr key value
  | .num key value => jnum key value.toInt

/-- The line that `JsonLogger::event` forms. -/
def eventLine (source : Bytes) (time : Instant) (eventType detailsJson : Bytes) : Bytes :=
  ascii "\x7b\"timestamp\":\"" ++ nowUtcIso time ++ ascii "\",\"source\":\"" ++
    jsonEscape source ++ ascii "\",\"event_type\":\"" ++ jsonEscape eventType ++
    ascii "\",\"details\":\x7b" ++ detailsJson ++ ascii "\x7d\x7d"

/-- The lines of the sessions are such lines. -/
theorem line_eq_eventLine (source : Str) (time : Instant) (e : Event) :
    line source time e =
      eventLine (Utf8.encodeAll source) time (Utf8.encodeAll e.eventType)
        (jjoin (e.details.map Part.render)) := rfl

/-! ## Bytes as characters -/

/-- Every byte as the character of its number. -/
def characters (s : Bytes) : Str := s.map fun b => ofCode b.toNat

theorem characters_append (s t : Bytes) : characters (s ++ t) = characters s ++ characters t :=
  List.map_append

/-- Different bytes are different characters. -/
theorem characters_injective : Function.Injective characters := by
  apply List.map_injective_iff.mpr
  intro b b' h
  have hb := b.toNat_lt
  have hb' := b'.toNat_lt
  have hval := congrArg Fin.val h
  rw [val_ofCode (by omega), val_ofCode (by omega)] at hval
  exact UInt8.toNat_inj.mp hval

/-- An ASCII text is its own characters. -/
theorem characters_encodeAll {s : Str} (h : ∀ c ∈ s, c.val < 0x80) :
    characters (Utf8.encodeAll s) = s := by
  induction s with
  | nil => rfl
  | cons c rest ih =>
      obtain ⟨hc, hrest⟩ := List.forall_mem_cons.mp h
      have hone : Utf8.encodeOne c = [UInt8.ofNat c.val] := if_pos hc
      have hcode : ofCode (UInt8.ofNat c.val).toNat = c := by
        rw [Utf8.toNat_ofNat (by omega), ofCode_val]
      rw [Utf8.encodeAll_cons, hone, characters_append, ih hrest]
      exact congrArg (· :: rest) hcode

theorem characters_of_named {s : Str} (h : Named s) : characters (Utf8.encodeAll s) = s :=
  characters_encodeAll fun c hc => (h c hc).2.trans (by decide)

theorem characters_ascii {s : String} (h : Named (lit s)) : characters (ascii s) = lit s :=
  characters_of_named h

/-! ## Escapes -/

/-- The logger escapes a byte as one of the two JSON writers escapes its character. -/
theorem characters_escapeByte (b : UInt8) :
    characters (escapeByte b) = escapeOne (b == 0x7F) (ofCode b.toNat) := by
  have hall : ∀ n < 256, characters (escapeByte (UInt8.ofNat n)) =
      escapeOne (UInt8.ofNat n == 0x7F) (ofCode (UInt8.ofNat n).toNat) := by
    decide +kernel
  have hbyte := hall b.toNat b.toNat_lt
  rwa [UInt8.ofNat_toNat] at hbyte

/-- Unescaping what the logger escaped gives back the bytes. -/
theorem spells_jsonEscape (s : Bytes) : Spells (characters (jsonEscape s)) (characters s) := by
  induction s with
  | nil => exact spells_nil
  | cons b rest ih =>
      have hb := b.toNat_lt
      have hcode : isHigh (ofCode b.toNat) = false := by
        rw [isHigh, val_ofCode (by omega)]
        simp only [Bool.and_eq_false_iff, decide_eq_false_iff_not]
        omega
      have hcons : jsonEscape (b :: rest) = escapeByte b ++ jsonEscape rest := rfl
      rw [hcons, characters_append, characters_escapeByte]
      exact ih.cons _ hcode

/-- A byte string without control characters below the space. -/
def NoControl (s : Bytes) : Prop := ∀ b ∈ s, 0x20 ≤ b.toNat

instance (s : Bytes) : Decidable (NoControl s) :=
  List.decidableBAll (fun b : UInt8 => 0x20 ≤ b.toNat) s

theorem NoControl.append {s t : Bytes} (hs : NoControl s) (ht : NoControl t) :
    NoControl (s ++ t) := fun b hb => (List.mem_append.mp hb).elim (hs b) (ht b)

theorem noControl_jsonEscape (s : Bytes) : NoControl (jsonEscape s) := by
  have hall : ∀ n < 256, NoControl (escapeByte (UInt8.ofNat n)) := by decide +kernel
  intro b hb
  obtain ⟨a, -, hmem⟩ := List.mem_flatMap.mp hb
  have hbyte := hall a.toNat a.toNat_lt
  rw [UInt8.ofNat_toNat] at hbyte
  exact hbyte b hmem

theorem named_intText (i : Int) : Named (Decimal.intText i) := fun _ hc =>
  printable_of_mem_intText hc

theorem NoControl.of_named {s : Str} (h : Named s) : NoControl (Utf8.encodeAll s) := fun b hb =>
  (h.clean b hb).1

/-! ## Details -/

/-- The bytes of a value between its quotes, or the number. -/
def Detail.value : Detail → Value
  | .str _ value => .str (characters value)
  | .num _ value => .int value.toInt

/-- The key of a detail. -/
def Detail.key : Detail → Bytes
  | .str key _ => key
  | .num key _ => key

/-- The text of a value. -/
def Detail.text : Detail → Str
  | .str _ value => cp '"' :: (characters (jsonEscape value) ++ [cp '"'])
  | .num _ value => Decimal.intText value.toInt

/-- A 64-bit integer has few digits. -/
theorem natText_toInt_length (n : Int64) :
    (Decimal.natText n.toInt.natAbs).length ≤ maxDigits := by
  have hlow := n.le_toInt
  have hhigh := n.toInt_lt
  have hbound : n.toInt.natAbs < 10 ^ 19 := by omega
  have hlength := Decimal.natText_length_le (by decide) hbound
  have hdigits : maxDigits = 4300 := rfl
  omega

theorem Detail.reads (d : Detail) : Reads Hooks.pairs 0 d.text d.value := by
  cases d with
  | str key value => exact (spells_jsonEscape value).reads Hooks.pairs
  | num key value => exact reads_int Hooks.pairs value.toInt (natText_toInt_length value)

/-- A detail as the member that it is read as. -/
def Detail.spelled (d : Detail) : Spelled Hooks.pairs 0 where
  rawKey := characters (jsonEscape d.key)
  text := d.text
  key := characters d.key
  value := d.value
  spells := spells_jsonEscape d.key
  reads := d.reads

theorem characters_render (d : Detail) : characters d.render = d.spelled.written := by
  have hquote : characters (ascii "\"") = [cp '"'] := characters_ascii (by decide)
  have hmiddle : characters (ascii "\":\"") = [cp '"', cp ':', cp '"'] :=
    characters_ascii (by decide)
  have hcolon : characters (ascii "\":") = [cp '"', cp ':'] := characters_ascii (by decide)
  cases d with
  | str key value =>
      simp only [Detail.render, jstr, characters_append, hquote, hmiddle, Spelled.written,
        Detail.spelled, Detail.text, Detail.key, List.cons_append, List.nil_append,
        List.append_assoc]
  | num key value =>
      simp only [Detail.render, jnum, characters_append, hquote, hcolon,
        characters_of_named (named_intText _), Spelled.written, Detail.spelled, Detail.text,
        Detail.key, List.cons_append, List.nil_append, List.append_assoc]

theorem characters_jjoin (parts : List Bytes) :
    characters (jjoin parts) = joined [cp ','] (parts.map characters) := by
  have hcomma : characters (ascii ",") = [cp ','] := characters_ascii (by decide)
  cases parts with
  | nil => rfl
  | cons part parts =>
      rw [jjoin, characters_append, List.map_cons, joined, List.flatMap_map]
      congr 1
      induction parts with
      | nil => rfl
      | cons p ps ih =>
          rw [List.flatMap_cons, characters_append, characters_append, hcomma, ih,
            List.flatMap_cons]

/-- The pairs of an object as the reader keeps them. -/
def pairsValue (pairs : List (Str × Value)) : Value :=
  .list (pairs.map fun p => .list [.str p.1, p.2])

/-- The details between their braces. -/
theorem reads_details (details : List Detail) :
    Reads Hooks.pairs 1
      (cp '\x7b' :: (characters (jjoin (details.map Detail.render)) ++ [cp '\x7d']))
      (pairsValue (details.map fun d => (characters d.key, d.value))) := by
  have hobject := Spelled.reads_object (details.map Detail.spelled)
    (v := pairsValue (details.map fun d => (characters d.key, d.value)))
    (by rw [List.map_map]; rfl)
  have htexts : (details.map Detail.render).map characters =
      (details.map Detail.spelled).map Spelled.written := by
    rw [List.map_map, List.map_map]
    exact List.map_congr_left fun d _ => characters_render d
  rw [characters_jjoin, htexts]
  exact hobject

/-! ## Lines -/

/-- A name without quotes and backslashes is its own escape. -/
theorem spells_of_named {s : Str} (hs : Named s) (hescape : escape false s = s) : Spells s s := by
  have hplain : ∀ c ∈ s, isHigh c = false := by
    intro c hc
    obtain ⟨hlow, hhigh⟩ := hs c hc
    rw [isHigh]
    simp only [Bool.and_eq_false_iff, decide_eq_false_iff_not]
    omega
  have hspells := spells_escape false hplain
  rwa [hescape] at hspells

/-- A member of a line. -/
def member (name : Str) (hname : Spells name name) (text : Str) (value : Value)
    (reads : Reads Hooks.pairs 1 text value) : Spelled Hooks.pairs 1 where
  rawKey := name
  text := text
  key := name
  value := value
  spells := hname
  reads := reads

/-- The value of a line: the event, with its details in order. -/
def eventValue (source : Bytes) (time : Instant) (eventType : Bytes) (details : List Detail) :
    Value :=
  pairsValue
    [(lit "timestamp", .str (stamp time)), (lit "source", .str (characters source)),
      (lit "event_type", .str (characters eventType)),
      (lit "details", pairsValue (details.map fun d => (characters d.key, d.value)))]

/-- A line is read as its event. -/
theorem reads_eventLine (source : Bytes) (time : Instant) (eventType : Bytes)
    (details : List Detail) :
    Reads Hooks.pairs 2
      (characters (eventLine source time eventType (jjoin (details.map Detail.render))))
      (eventValue source time eventType details) := by
  have hstring : ∀ {raw s : Str}, Spells raw s →
      Reads Hooks.pairs 1 (cp '"' :: (raw ++ [cp '"'])) (.str s) := fun h =>
    (h.reads Hooks.pairs).mono (Nat.zero_le 1)
  have hobject := Spelled.reads_object
    [member (lit "timestamp") (spells_of_named (by decide) (by decide)) _ _
        (hstring (spells_of_named (named_stamp time) (escape_stamp time))),
      member (lit "source") (spells_of_named (by decide) (by decide)) _ _
        (hstring (spells_jsonEscape source)),
      member (lit "event_type") (spells_of_named (by decide) (by decide)) _ _
        (hstring (spells_jsonEscape eventType)),
      member (lit "details") (spells_of_named (by decide) (by decide)) _ _
        (reads_details details)]
    (v := eventValue source time eventType details) rfl
  have htext : characters (eventLine source time eventType (jjoin (details.map Detail.render))) =
      lit "\x7b\"timestamp\":\"" ++ (stamp time ++ (lit "\",\"source\":\"" ++
        (characters (jsonEscape source) ++ (lit "\",\"event_type\":\"" ++
          (characters (jsonEscape eventType) ++ (lit "\",\"details\":\x7b" ++
            (characters (jjoin (details.map Detail.render)) ++ lit "\x7d\x7d"))))))) := by
    have hopen := @characters_ascii "\x7b\"timestamp\":\"" (by decide)
    have hsource := @characters_ascii "\",\"source\":\"" (by decide)
    have htype := @characters_ascii "\",\"event_type\":\"" (by decide)
    have hdetails := @characters_ascii "\",\"details\":\x7b" (by decide)
    have hclose := @characters_ascii "\x7d\x7d" (by decide)
    simp only [eventLine, nowUtcIso, characters_append, hopen, hsource, htype, hdetails, hclose,
      characters_of_named (named_stamp time), List.append_assoc]
  rw [htext]
  convert hobject using 1
  simp only [List.map_cons, List.map_nil, joined, List.flatMap_cons, List.flatMap_nil,
    Spelled.written, member, lit_eq, List.append_assoc]
  simp

theorem noControl_eventLine (source : Bytes) (time : Instant) (eventType : Bytes)
    (details : List Detail) :
    NoControl (eventLine source time eventType (jjoin (details.map Detail.render))) := by
  have hascii : ∀ {s : String}, Named (lit s) → NoControl (ascii s) := fun h => .of_named h
  have hrender : ∀ d : Detail, NoControl d.render := by
    intro d
    cases d with
    | str key value =>
        exact ((((hascii (by decide)).append (noControl_jsonEscape key)).append
          (hascii (by decide))).append (noControl_jsonEscape value)).append (hascii (by decide))
    | num key value =>
        exact (((hascii (by decide)).append (noControl_jsonEscape key)).append
          (hascii (by decide))).append (.of_named (named_intText _))
  have hjoin : ∀ parts : List Bytes, (∀ part ∈ parts, NoControl part) →
      NoControl (jjoin parts) := by
    intro parts hparts
    cases parts with
    | nil => exact fun b hb => absurd hb List.not_mem_nil
    | cons part parts =>
        obtain ⟨hpart, hparts⟩ := List.forall_mem_cons.mp hparts
        refine hpart.append fun b hb => ?_
        obtain ⟨p, hp, hmem⟩ := List.mem_flatMap.mp hb
        exact (hascii (by decide)).append (hparts p hp) b hmem
  have hdetails := hjoin (details.map Detail.render) (List.forall_mem_map.mpr fun d _ => hrender d)
  unfold eventLine nowUtcIso
  exact ((((((((hascii (by decide)).append (.of_named (named_stamp time))).append
    (hascii (by decide))).append (noControl_jsonEscape source)).append
    (hascii (by decide))).append (noControl_jsonEscape eventType)).append
    (hascii (by decide))).append hdetails).append (hascii (by decide))

/-- What a detail is read as determines the detail. -/
theorem detail_pair_injective :
    Function.Injective fun d : Detail => (characters d.key, d.value) := by
  intro d d' h
  obtain ⟨hkey, hvalue⟩ := Prod.mk.inj h
  have hkeys := characters_injective hkey
  cases d with
  | str key value =>
      cases d' with
      | str key' value' =>
          have hbytes := characters_injective (Value.str.inj hvalue)
          exact congr (congrArg Detail.str hkeys) hbytes
      | num key' value' => cases hvalue
  | num key value =>
      cases d' with
      | str key' value' => cases hvalue
      | num key' value' =>
          have hnumber := Int64.toInt_inj.mp (Value.int.inj hvalue)
          exact congr (congrArg Detail.num hkeys) hnumber

/-- The value of a line determines its details. -/
theorem details_eq_of_eventValue {source source' eventType eventType' : Bytes}
    {time time' : Instant} {details details' : List Detail}
    (h : eventValue source time eventType details = eventValue source' time' eventType' details') :
    details = details' := by
  have hmembers := Value.list.inj h
  simp only [List.map_cons, List.map_nil, List.cons.injEq, Value.list.injEq, and_true, true_and]
    at hmembers
  have hpairs := Value.list.inj hmembers.2.2.2
  have hpair : Function.Injective fun p : Str × Value => Value.list [.str p.1, p.2] := by
    rintro ⟨k, v⟩ ⟨k', v'⟩ heq
    simp only [Value.list.injEq, List.cons.injEq, Value.str.injEq, and_true] at heq
    exact Prod.ext heq.1 heq.2
  exact List.map_injective_iff.mpr detail_pair_injective
    (List.map_injective_iff.mpr hpair hpairs)

/-- Whatever the bytes of an event, its line has no control character, is read as the event
with exactly the given details in order, which no other details share, and what is escaped is
unescaped to the same bytes. -/
theorem no_injection (source : Bytes) (time : Instant) (eventType : Bytes)
    (details : List Detail) :
    (∀ b ∈ eventLine source time eventType (jjoin (details.map Detail.render)), 0x20 ≤ b.toNat) ∧
    (∀ limit, loadsWith Hooks.pairs (limit + 2)
        (characters (eventLine source time eventType (jjoin (details.map Detail.render)))) =
      .ok (eventValue source time eventType details)) ∧
    (∀ source' time' eventType' details',
      eventValue source time eventType details = eventValue source' time' eventType' details' →
        details = details') ∧
    ∀ s : Bytes, ∀ rest : Str,
      scanString (characters (jsonEscape s) ++ cp '"' :: rest) = .ok (characters s, rest) := by
  refine ⟨noControl_eventLine source time eventType details, ?_,
    fun _ _ _ _ => details_eq_of_eventValue, spells_jsonEscape⟩
  intro limit
  have hloads := (reads_eventLine source time eventType details).loadsWith
    (w := []) (Nat.le_add_left 2 limit) fun c hc => absurd hc List.not_mem_nil
  rwa [List.append_nil] at hloads

end IcsDeception.Decoy
