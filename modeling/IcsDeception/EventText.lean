import IcsDeception.Preparation

/-!
# The text of an event

`Event.to_json` copies the details of an event and writes it as one line. The line can be
written and encoded exactly for the details that nest within the limits of the interpreter and
are spelled by the writer without a lone surrogate.

## Implementation notes

An event is written as one datum, so that what is said of the details of an event is a case of
what is said of any datum.
-/

namespace IcsDeception

open Text Json Calendar EnvelopeRoundTrip

namespace Publisher

/-! ## The source -/

mutual
/-- How many calls of `asdict` a value takes, one inside the other. -/
def Datum.copies : Datum → Nat
  | .list xs => Datum.copiesItems xs + 1
  | .dict kvs => Datum.copiesMembers kvs + 1
  | _ => 1
/-- The calls for the items. -/
def Datum.copiesItems : List Datum → Nat
  | [] => 0
  | x :: xs => max x.copies (Datum.copiesItems xs)
/-- The calls for the members. -/
def Datum.copiesMembers : List (DetailKey × Datum) → Nat
  | [] => 0
  | (_, x) :: rest => max x.copies (Datum.copiesMembers rest)
end

/-- The style of `json.dumps(..., ensure_ascii=False)`. -/
def plainStyle : Style := ⟨false, false, lit ", ", lit ": ", Option.none⟩

/-- Details under their names. -/
def named (details : Dict Str Datum) : Datum := .dict (details.map fun p => (.text p.1, p.2))

/-- `Event.to_json`, under an interpreter that nests `copyLimit` calls of `asdict`. -/
def Event.toJson (py : Interp) (copyLimit : Nat) (e : Event) : Except Exn Str :=
  if ∃ p ∈ e.details, copyLimit < p.2.copies then .error .recursion
  else do
    let details ← (named e.details).value rendered
    dumps py plainStyle (.ofMembers
      [(lit "timestamp", .str e.timestamp),
       (lit "source", .str e.source),
       (lit "event_type", .str e.eventType),
       (lit "details", details)])

/-! ## What the writer spells -/

/-- An integer of no more digits than the writer takes. -/
def Number.Short : Number → Prop
  | .int i => (Decimal.natText i.natAbs).length ≤ maxDigits
  | _ => True

/-- A key that the writer spells without a lone surrogate. -/
def DetailKey.Spelled : DetailKey → Prop
  | .text s => Scalar s
  | .number n => n.Short
  | .none => True
  | .bytes _ => False

mutual
/-- A value without a byte string for a key, an integer that is too long, or a lone surrogate. -/
def Datum.Spelled : Datum → Prop
  | .int i => (Decimal.natText i.natAbs).length ≤ maxDigits
  | .str s => Scalar s
  | .list xs => Datum.SpelledItems xs
  | .dict kvs => Datum.SpelledMembers kvs
  | _ => True
/-- The items are such values. -/
def Datum.SpelledItems : List Datum → Prop
  | [] => True
  | x :: xs => x.Spelled ∧ Datum.SpelledItems xs
/-- The members are such values, under such keys. -/
def Datum.SpelledMembers : List (DetailKey × Datum) → Prop
  | [] => True
  | (k, x) :: rest => k.Spelled ∧ x.Spelled ∧ Datum.SpelledMembers rest
end

mutual
/-- How deep lists and dictionaries nest in a value. -/
def Datum.nest : Datum → Nat
  | .list xs => Datum.nestItems xs + 1
  | .dict kvs => Datum.nestMembers kvs + 1
  | _ => 0
/-- The deepest nesting among the items. -/
def Datum.nestItems : List Datum → Nat
  | [] => 0
  | x :: xs => max x.nest (Datum.nestItems xs)
/-- The deepest nesting among the members. -/
def Datum.nestMembers : List (DetailKey × Datum) → Nat
  | [] => 0
  | (_, x) :: rest => max x.nest (Datum.nestMembers rest)
end

/-! ## Texts without surrogates -/

theorem isSurrogate_of_shortEscape {c e : CodePoint} (h : shortEscape c = some e) :
    isSurrogate c = false := by
  unfold shortEscape at h
  split_ifs at h with hc hc hc hc hc hc hc
  all_goals
    rw [hc]
    decide

/-- A lone surrogate stands for itself between the quotes. -/
theorem escapeOne_surrogate_plain {c : CodePoint} (h : isSurrogate c = true) :
    escapeOne false c = [c] := by
  have hlow : ¬ c.val < 0x20 := by
    simp only [isSurrogate, Bool.and_eq_true, decide_eq_true_eq] at h
    omega
  unfold escapeOne
  cases hc : shortEscape c with
  | some e =>
      rw [isSurrogate_of_shortEscape hc] at h
      cases h
  | none =>
      dsimp only
      rw [if_neg hlow, if_neg (fun hascii => Bool.false_ne_true hascii.1)]

theorem scalar_quote {s : Str} : Scalar (quote false s) ↔ Scalar s := by
  constructor
  · intro h c hc
    by_contra hs
    have hs : isSurrogate c = true := Bool.eq_true_of_not_eq_false hs
    have hmem : c ∈ quote false s := by
      refine List.mem_cons_of_mem _ (List.mem_append_left _ (List.mem_flatMap.mpr ⟨c, hc, ?_⟩))
      rw [escapeOne_surrogate_plain hs]
      exact List.mem_singleton_self c
    exact Bool.false_ne_true ((h c hmem).symm.trans hs)
  · exact fun h c hc => (plain_of_mem_quote h hc).2

theorem scalar_flatMap {α : Type} {f : α → Str} {l : List α} :
    Scalar (l.flatMap f) ↔ ∀ x ∈ l, Scalar (f x) := List.forall_mem_flatMap

theorem scalar_joined {sep : Str} (hsep : Scalar sep) (parts : List Str) :
    Scalar (joined sep parts) ↔ ∀ p ∈ parts, Scalar p := by
  cases parts with
  | nil => simp [joined, scalar_nil]
  | cons p ps =>
      rw [joined, scalar_append, scalar_flatMap, List.forall_mem_cons]
      simp only [scalar_append, hsep, true_and]

theorem scalar_bracket {level : Nat} {o c : CodePoint} (ho : isSurrogate o = false)
    (hc : isSurrogate c = false) (parts : List Str) :
    Scalar (bracket plainStyle level o c parts) ↔ ∀ p ∈ parts, Scalar p := by
  cases parts with
  | nil => simp [bracket, scalar_cons, scalar_nil, ho, hc]
  | cons p ps =>
      have hsep : Scalar (plainStyle.itemSeparator ++ plainStyle.newline (level + 1)) := by
        simp only [Style.newline, plainStyle, List.append_nil]
        decide
      rw [bracket, scalar_cons, scalar_append, scalar_append, scalar_append, scalar_joined hsep,
        scalar_cons]
      simp [Style.newline, plainStyle, scalar_nil, ho, hc]

theorem scalar_member {p : Str × Str} :
    Scalar (plainStyle.member p) ↔ Scalar p.1 ∧ Scalar p.2 := by
  have hsep : Scalar plainStyle.keySeparator := by decide
  rw [Style.member, scalar_append, scalar_append]
  simp only [plainStyle] at hsep ⊢
  rw [scalar_quote, and_iff_left hsep]

theorem scalar_isoformat (i : Instant) : Scalar i.isoformat := by
  have h : Scalar (i.text true) :=
    (shortText_spelling yearText_length printable_yearText _ _ _).2
  refine scalar_append.mpr ⟨?_, by decide⟩
  split_ifs
  · exact fun c hc => h c (List.mem_of_mem_take hc)
  · exact h

/-! ## Values that are spelled -/

theorem dumpInt_eq_ok {i : Int} {t : Str} :
    dumpInt i = .ok t ↔ (Decimal.natText i.natAbs).length ≤ maxDigits ∧ t = Decimal.intText i := by
  unfold dumpInt
  split_ifs with h
  · exact ⟨(fun ht => by cases ht), fun ht => absurd ht.1 (not_le.mpr h)⟩
  · exact ⟨fun ht => ⟨not_lt.mp h, (Except.ok.inj ht).symm⟩, fun ht => congrArg Except.ok ht.2.symm⟩

theorem DetailKey.spelled_iff (k : DetailKey) :
    k.Spelled ↔ ∃ s, k.jsonText = .ok s ∧ Scalar s := by
  cases k with
  | text s =>
      refine ⟨fun h => ⟨s, rfl, h⟩, ?_⟩
      rintro ⟨_, hs, h⟩
      exact Except.ok.inj hs ▸ h
  | none => exact ⟨fun _ => ⟨_, rfl, by decide⟩, fun _ => trivial⟩
  | bytes b =>
      refine ⟨fun h => h.elim, ?_⟩
      rintro ⟨_, hs, _⟩
      cases hs
  | number n =>
      cases n with
      | bool b => exact ⟨fun _ => ⟨_, rfl, by cases b <;> decide⟩, fun _ => trivial⟩
      | float l =>
          exact ⟨fun _ => ⟨_, rfl, fun c hc => (l.2.printable c hc).plain.2⟩, fun _ => trivial⟩
      | int i =>
          rw [DetailKey.Spelled, Number.Short, DetailKey.jsonText, Number.jsonText]
          constructor
          · intro h
            rw [dumpInt_eq_ok.mpr ⟨h, rfl⟩]
            exact ⟨_, rfl, fun c hc => (printable_of_mem_intText hc).plain.2⟩
          · rintro ⟨s, hs, -⟩
            cases hi : dumpInt i with
            | ok t => exact (dumpInt_eq_ok.mp hi).1
            | error e =>
                rw [hi] at hs
                cases hs

theorem rendered_cons {k : DetailKey} {v : Value} {ms : List (DetailKey × Value)}
    {rs : List (Str × Value)} : rendered ((k, v) :: ms) = .ok rs ↔
      ∃ s us, k.jsonText = .ok s ∧ rendered ms = .ok us ∧ rs = (s, v) :: us := by
  rw [rendered, List.mapM_cons]
  constructor
  · intro h
    obtain ⟨q, hq, h⟩ := bind_eq_ok.mp h
    obtain ⟨us, hus, h⟩ := bind_eq_ok.mp h
    obtain ⟨s, hs, hq⟩ := bind_eq_ok.mp hq
    obtain rfl := Except.ok.inj hq
    exact ⟨s, us, hs, hus, (Except.ok.inj h).symm⟩
  · rintro ⟨s, us, hs, hus, rfl⟩
    exact bind_eq_ok.mpr ⟨_, bind_eq_ok.mpr ⟨s, hs, rfl⟩, bind_eq_ok.mpr ⟨us, hus, rfl⟩⟩

mutual
/-- The values that are spelled are those that are written without a lone surrogate. -/
theorem Datum.spelled_iff : ∀ (level : Nat) (x : Datum), x.Spelled ↔
    ∃ v t, x.value rendered = .ok v ∧ dump plainStyle level v = .ok t ∧ Scalar t
  | _, .none => ⟨fun _ => ⟨_, _, rfl, rfl, by decide⟩, fun _ => trivial⟩
  | _, .bool b => ⟨fun _ => ⟨_, _, rfl, rfl, by cases b <;> decide⟩, fun _ => trivial⟩
  | _, .float l =>
      ⟨fun _ => ⟨_, _, rfl, rfl, fun c hc => (l.2.printable c hc).plain.2⟩, fun _ => trivial⟩
  | _, .int i => by
      constructor
      · intro h
        exact ⟨_, _, rfl, dumpInt_eq_ok.mpr ⟨h, rfl⟩,
          fun c hc => (printable_of_mem_intText hc).plain.2⟩
      · rintro ⟨v, t, hv, ht, -⟩
        obtain rfl := Except.ok.inj hv
        exact (dumpInt_eq_ok.mp ht).1
  | _, .str s => by
      constructor
      · exact fun h => ⟨_, _, rfl, rfl, scalar_quote.mpr h⟩
      · rintro ⟨v, t, hv, ht, hs⟩
        obtain rfl := Except.ok.inj hv
        obtain rfl := Except.ok.inj ht
        exact scalar_quote.mp hs
  | level, .list xs => by
      rw [Datum.Spelled, Datum.spelledItems_iff (level + 1) xs]
      constructor
      · rintro ⟨vs, ts, hvs, hts, hs⟩
        refine ⟨.list vs, _, bind_eq_ok.mpr ⟨vs, hvs, rfl⟩, bind_eq_ok.mpr ⟨ts, hts, rfl⟩, ?_⟩
        exact (scalar_bracket (by decide) (by decide) ts).mpr hs
      · rintro ⟨v, t, hv, ht, hs⟩
        obtain ⟨vs, hvs, hv⟩ := bind_eq_ok.mp hv
        obtain rfl := Except.ok.inj hv
        obtain ⟨ts, hts, ht⟩ := bind_eq_ok.mp ht
        obtain rfl := Except.ok.inj ht
        exact ⟨vs, ts, hvs, hts, (scalar_bracket (by decide) (by decide) ts).mp hs⟩
  | level, .dict kvs => by
      rw [Datum.Spelled, Datum.spelledMembers_iff (level + 1) kvs]
      have hbracket : ∀ ts : List (Str × Str), Scalar (bracket plainStyle level (cp '{') (cp '}')
          ((plainStyle.order ts).map plainStyle.member)) ↔ ∀ p ∈ ts, Scalar p.1 ∧ Scalar p.2 := by
        intro ts
        rw [scalar_bracket (by decide) (by decide), List.forall_mem_map]
        exact forall₂_congr fun p _ => scalar_member
      constructor
      · rintro ⟨ms, rs, ts, hms, hrs, hts, hs⟩
        refine ⟨.ofMembers rs, _, bind_eq_ok.mpr ⟨ms, hms, bind_eq_ok.mpr ⟨rs, hrs, rfl⟩⟩,
          bind_eq_ok.mpr ⟨ts, hts, rfl⟩, (hbracket ts).mpr hs⟩
      · rintro ⟨v, t, hv, ht, hs⟩
        obtain ⟨ms, hms, hv⟩ := bind_eq_ok.mp hv
        obtain ⟨rs, hrs, hv⟩ := bind_eq_ok.mp hv
        obtain rfl := Except.ok.inj hv
        obtain ⟨ts, hts, ht⟩ := bind_eq_ok.mp ht
        obtain rfl := Except.ok.inj ht
        exact ⟨ms, rs, ts, hms, hrs, hts, (hbracket ts).mp hs⟩
/-- The same for items. -/
theorem Datum.spelledItems_iff : ∀ (level : Nat) (xs : List Datum), Datum.SpelledItems xs ↔
    ∃ vs ts, Datum.valueItems rendered xs = .ok vs ∧ dumpItems plainStyle level vs = .ok ts ∧
      ∀ t ∈ ts, Scalar t
  | _, [] => ⟨fun _ => ⟨_, _, rfl, rfl, by simp⟩, fun _ => trivial⟩
  | level, x :: xs => by
      rw [Datum.SpelledItems, Datum.spelled_iff level x, Datum.spelledItems_iff level xs]
      constructor
      · rintro ⟨⟨v, t, hv, ht, hs⟩, vs, ts, hvs, hts, hss⟩
        exact ⟨v :: vs, t :: ts, bind_eq_ok.mpr ⟨v, hv, bind_eq_ok.mpr ⟨vs, hvs, rfl⟩⟩,
          bind_eq_ok.mpr ⟨t, ht, bind_eq_ok.mpr ⟨ts, hts, rfl⟩⟩, List.forall_mem_cons.mpr ⟨hs, hss⟩⟩
      · rintro ⟨us, us', hus, hus', hs⟩
        obtain ⟨v, hv, hus⟩ := bind_eq_ok.mp hus
        obtain ⟨vs, hvs, hus⟩ := bind_eq_ok.mp hus
        obtain rfl := Except.ok.inj hus
        obtain ⟨t, ht, hus'⟩ := bind_eq_ok.mp hus'
        obtain ⟨ts, hts, hus'⟩ := bind_eq_ok.mp hus'
        obtain rfl := Except.ok.inj hus'
        obtain ⟨hs, hss⟩ := List.forall_mem_cons.mp hs
        exact ⟨⟨v, t, hv, ht, hs⟩, vs, ts, hvs, hts, hss⟩
/-- The same for members. -/
theorem Datum.spelledMembers_iff : ∀ (level : Nat) (kvs : List (DetailKey × Datum)),
    Datum.SpelledMembers kvs ↔ ∃ ms rs ts, Datum.valueMembers rendered kvs = .ok ms ∧
      rendered ms = .ok rs ∧ dumpMembers plainStyle level (rs.map fun p => (.str p.1, p.2)) =
        .ok ts ∧ ∀ p ∈ ts, Scalar p.1 ∧ Scalar p.2
  | _, [] => ⟨fun _ => ⟨_, _, _, rfl, rfl, rfl, by simp⟩, fun _ => trivial⟩
  | level, (k, x) :: rest => by
      rw [Datum.SpelledMembers, k.spelled_iff, Datum.spelled_iff level x,
        Datum.spelledMembers_iff level rest]
      constructor
      · rintro ⟨⟨s, hk, hsk⟩, ⟨v, t, hv, ht, hs⟩, ms, rs, ts, hms, hrs, hts, hss⟩
        exact ⟨(k, v) :: ms, (s, v) :: rs, (s, t) :: ts,
          bind_eq_ok.mpr ⟨v, hv, bind_eq_ok.mpr ⟨ms, hms, rfl⟩⟩,
          rendered_cons.mpr ⟨s, rs, hk, hrs, rfl⟩,
          bind_eq_ok.mpr ⟨t, ht, bind_eq_ok.mpr ⟨ts, hts, rfl⟩⟩,
          List.forall_mem_cons.mpr ⟨⟨hsk, hs⟩, hss⟩⟩
      · rintro ⟨ms', rs', ts', hms', hrs', hts', hs⟩
        obtain ⟨v, hv, hms'⟩ := bind_eq_ok.mp hms'
        obtain ⟨ms, hms, hms'⟩ := bind_eq_ok.mp hms'
        obtain rfl := Except.ok.inj hms'
        obtain ⟨s, rs, hk, hrs, rfl⟩ := rendered_cons.mp hrs'
        obtain ⟨t, ht, hts'⟩ := bind_eq_ok.mp hts'
        obtain ⟨ts, hts, hts'⟩ := bind_eq_ok.mp hts'
        obtain rfl := Except.ok.inj hts'
        obtain ⟨⟨hsk, hs⟩, hss⟩ := List.forall_mem_cons.mp hs
        exact ⟨⟨s, hk, hsk⟩, ⟨v, t, hv, ht, hs⟩, ms, rs, ts, hms, hrs, hts, hss⟩
end

theorem nestMembers_rendered {ms : List (DetailKey × Value)} {rs : List (Str × Value)}
    (h : rendered ms = .ok rs) :
    Value.nestMembers (rs.map fun p => (.str p.1, p.2)) = ms.foldr (fun p n => max p.2.nest n) 0 := by
  induction ms generalizing rs with
  | nil =>
      obtain rfl := Except.ok.inj h
      rfl
  | cons p rest ih =>
      obtain ⟨s, us, -, hus, rfl⟩ := rendered_cons.mp h
      rw [List.map_cons, Value.nestMembers, ih hus, List.foldr_cons]

mutual
/-- A value nests as deep as what is written of it. -/
theorem Datum.nest_value : ∀ {x : Datum} {v : Value}, x.value rendered = .ok v → v.nest = x.nest
  | .none, _, h => by
      obtain rfl := Except.ok.inj h
      rfl
  | .bool _, _, h => by
      obtain rfl := Except.ok.inj h
      rfl
  | .int _, _, h => by
      obtain rfl := Except.ok.inj h
      rfl
  | .float _, _, h => by
      obtain rfl := Except.ok.inj h
      rfl
  | .str _, _, h => by
      obtain rfl := Except.ok.inj h
      rfl
  | .list xs, _, h => by
      obtain ⟨vs, hvs, h⟩ := bind_eq_ok.mp h
      obtain rfl := Except.ok.inj h
      rw [Value.nest, Datum.nest, Datum.nest_valueItems hvs]
  | .dict kvs, _, h => by
      obtain ⟨ms, hms, h⟩ := bind_eq_ok.mp h
      obtain ⟨rs, hrs, h⟩ := bind_eq_ok.mp h
      obtain rfl := Except.ok.inj h
      rw [Value.ofMembers, Value.nest, Datum.nest, nestMembers_rendered hrs,
        Datum.nest_valueMembers hms]
/-- The same for items. -/
theorem Datum.nest_valueItems : ∀ {xs : List Datum} {vs : List Value},
    Datum.valueItems rendered xs = .ok vs → Value.nestItems vs = Datum.nestItems xs
  | [], _, h => by
      obtain rfl := Except.ok.inj h
      rfl
  | x :: xs, _, h => by
      obtain ⟨v, hv, h⟩ := bind_eq_ok.mp h
      obtain ⟨vs, hvs, h⟩ := bind_eq_ok.mp h
      obtain rfl := Except.ok.inj h
      rw [Value.nestItems, Datum.nestItems, Datum.nest_value hv, Datum.nest_valueItems hvs]
/-- The same for members. -/
theorem Datum.nest_valueMembers : ∀ {kvs : List (DetailKey × Datum)}
    {ms : List (DetailKey × Value)}, Datum.valueMembers rendered kvs = .ok ms →
      ms.foldr (fun p n => max p.2.nest n) 0 = Datum.nestMembers kvs
  | [], _, h => by
      obtain rfl := Except.ok.inj h
      rfl
  | (k, x) :: rest, _, h => by
      obtain ⟨v, hv, h⟩ := bind_eq_ok.mp h
      obtain ⟨ms, hms, h⟩ := bind_eq_ok.mp h
      obtain rfl := Except.ok.inj h
      rw [List.foldr_cons, Datum.nestMembers, Datum.nest_value hv, Datum.nest_valueMembers hms]
end

/-! ## Events that are written -/

/-- What is written of an event. -/
def Event.written (e : Event) : Datum :=
  .dict [(.text (lit "timestamp"), .str e.timestamp),
    (.text (lit "source"), .str e.source),
    (.text (lit "event_type"), .str e.eventType),
    (.text (lit "details"), named e.details)]

theorem Event.written_value (e : Event) : e.written.value rendered =
    (do
      let details ← (named e.details).value rendered
      return .ofMembers
        [(lit "timestamp", .str e.timestamp),
         (lit "source", .str e.source),
         (lit "event_type", .str e.eventType),
         (lit "details", details)]) := by
  rw [Event.written, Datum.value, Datum.valueMembers, Datum.valueMembers, Datum.valueMembers,
    Datum.valueMembers]
  cases (named e.details).value rendered with
  | error x => rfl
  | ok v => rfl

/-- An event has a line without a lone surrogate exactly if its details nest within the limits of
the interpreter, and all of it is spelled. -/
theorem Event.toJson_iff (py : Interp) (copyLimit : Nat) (e : Event) :
    (∃ line, e.toJson py copyLimit = .ok line ∧ Scalar line) ↔
      (∀ p ∈ e.details, p.2.copies ≤ copyLimit) ∧ (named e.details).nest < py.dumpLimit ∧
        Scalar e.timestamp ∧ Scalar e.source ∧ Scalar e.eventType ∧ (named e.details).Spelled := by
  have hcopies : (¬ ∃ p ∈ e.details, copyLimit < p.2.copies) ↔
      ∀ p ∈ e.details, p.2.copies ≤ copyLimit := by
    simp only [not_exists, not_and, not_lt]
  have hspelled : e.written.Spelled ↔ Scalar e.timestamp ∧ Scalar e.source ∧
      Scalar e.eventType ∧ (named e.details).Spelled := by
    have hname : Scalar (lit "timestamp") ∧ Scalar (lit "source") ∧ Scalar (lit "event_type") ∧
      Scalar (lit "details") := by decide
    simp only [Event.written, Datum.Spelled, Datum.SpelledMembers, DetailKey.Spelled, hname,
      true_and, and_true]
  have hnest : e.written.nest = (named e.details).nest + 1 := by
    simp [Event.written, Datum.nest, Datum.nestMembers]
  rw [← hcopies, ← hspelled, e.written.spelled_iff 0, ← Nat.add_one_le_iff, ← hnest]
  have hline : ∀ line, e.toJson py copyLimit = .ok line ↔
      (¬ ∃ p ∈ e.details, copyLimit < p.2.copies) ∧
        ∃ v, e.written.value rendered = .ok v ∧ dumps py plainStyle v = .ok line := by
    intro line
    rw [Event.toJson, e.written_value]
    split_ifs with h
    · exact ⟨(fun hl => by cases hl), fun hl => absurd h hl.1⟩
    · rw [bind_eq_ok]
      constructor
      · rintro ⟨v, hv, hl⟩
        exact ⟨h, _, bind_eq_ok.mpr ⟨v, hv, rfl⟩, hl⟩
      · rintro ⟨-, v, hv, hl⟩
        obtain ⟨u, hu, hv⟩ := bind_eq_ok.mp hv
        obtain rfl := Except.ok.inj hv
        exact ⟨u, hu, hl⟩
  constructor
  · rintro ⟨line, hl, hs⟩
    obtain ⟨hc, v, hv, hl⟩ := (hline line).mp hl
    obtain ⟨hn, hl⟩ := dumps_eq_ok.mp hl
    exact ⟨hc, Datum.nest_value hv ▸ hn, v, line, hv, hl, hs⟩
  · rintro ⟨hc, hn, v, line, hv, hl, hs⟩
    exact ⟨line, (hline line).mpr ⟨hc, v, hv, dumps_eq_ok.mpr
      ⟨Datum.nest_value hv ▸ hn, hl⟩⟩, hs⟩

/-- The details of an event, truncated. -/
def truncated (details : Dict Str Detail) : Dict Str Datum :=
  details.map fun p => (p.1, truncate p.2)

/-- Details that nest within the limits of the interpreter, and an event that is spelled without a
lone surrogate. -/
structure Writable (py : Interp) (callLimit copyLimit : Nat) (source eventType : Str)
    (details : Dict Str Detail) : Prop where
  calls : ∀ p ∈ details, p.2.calls ≤ callLimit
  copies : ∀ p ∈ truncated details, p.2.copies ≤ copyLimit
  nest : (named (truncated details)).nest < py.dumpLimit
  source : Scalar source
  eventType : Scalar eventType
  spelled : (named (truncated details)).Spelled

/-- These are the events that are built and written as a line without a lone surrogate. -/
theorem writable_iff {py : Interp} {callLimit copyLimit : Nat} {source eventType timestamp : Str}
    {details : Dict Str Detail} (ht : Scalar timestamp) :
    Writable py callLimit copyLimit source eventType details ↔
      ∃ event line, build callLimit source eventType details timestamp = .ok event ∧
        event.toJson py copyLimit = .ok line ∧ Scalar line := by
  constructor
  · intro h
    have hcalls : ¬ ∃ p ∈ details, callLimit < p.2.calls := by
      rintro ⟨p, hp, hlt⟩
      exact absurd (h.calls p hp) (not_le.mpr hlt)
    obtain ⟨line, hline, hs⟩ :=
      (Event.toJson_iff py copyLimit ⟨source, eventType, truncated details, timestamp⟩).mpr
        ⟨h.copies, h.nest, ht, h.source, h.eventType, h.spelled⟩
    exact ⟨_, line, if_neg hcalls, hline, hs⟩
  · rintro ⟨event, line, hevent, hline⟩
    unfold build at hevent
    split_ifs at hevent with hcalls
    obtain rfl := Except.ok.inj hevent
    obtain ⟨hcopies, hnest, -, hsource, htype, hspelled⟩ :=
      (Event.toJson_iff py copyLimit _).mp ⟨line, hline⟩
    exact
      { calls := fun p hp => not_lt.mp fun hlt => hcalls ⟨p, hp, hlt⟩
        copies := hcopies
        nest := hnest
        source := hsource
        eventType := htype
        spelled := hspelled }

end Publisher

end IcsDeception
