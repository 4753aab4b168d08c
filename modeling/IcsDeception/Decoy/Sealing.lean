import IcsDeception.Decoy.Session
import IcsDeception.CanonicalForm
import IcsDeception.EnvelopeRoundTrip
import IcsDeception.Signer

/-!
# Sealing the log of a session

What a client types gets into the log as it is, so a line of the log is UTF-8 exactly when
the texts in it are. Then the line is a JSON object that the signer accepts, and signing the
log is signing its events one after another.
-/

namespace IcsDeception.Decoy

open Text Json Calendar Method

/-! ## Details within bounds -/

/-- A text of the service itself, or one that can stand for it. -/
def Fixed (s : Bytes) : Prop := Clean s ∧ s.length ≤ 513 ∧ Utf8.IsUtf8 s

instance (s : Bytes) : Decidable (Clean s) :=
  @List.decidableBAll _ (fun c => Typed c) (fun _ => inferInstance) s

instance (s : Bytes) : Decidable (Fixed s) :=
  inferInstanceAs (Decidable (Clean s ∧ s.length ≤ 513 ∧ Utf8.IsUtf8 s))

theorem fixed_encodeAll {k : Str} (h : Named k) (hlength : k.length ≤ 513) :
    Fixed (Utf8.encodeAll k) := by
  refine ⟨h.clean, ?_, ?_⟩
  · have := byteLength_printable h
    rw [byteLength] at this
    omega
  · rw [Utf8.IsUtf8, Utf8.decodeStrict_encodeAll h.scalar]
    rfl

theorem fixed_ip (p : Peer) : Fixed p.ip := by
  have hdot : Named (lit ".") := by decide
  have hnat : ∀ n : Nat, Named (Decimal.natText n) := fun n c hc =>
    printable_of_isDigit (Decimal.isDigit_of_mem_natText hc)
  have hlength : ∀ b : UInt8, (Decimal.natText b.toNat).length ≤ 3 := fun b =>
    Decimal.natText_length_le (by decide) (b.toNat_lt.trans (by decide))
  apply fixed_encodeAll
  · intro c hc
    simp only [List.mem_append] at hc
    rcases hc with (((((hc | hc) | hc) | hc) | hc) | hc) | hc
    · exact hnat _ c hc
    · exact hdot c hc
    · exact hnat _ c hc
    · exact hdot c hc
    · exact hnat _ c hc
    · exact hdot c hc
    · exact hnat _ c hc
  · have h₁ := hlength p.octets.1
    have h₂ := hlength p.octets.2.1
    have h₃ := hlength p.octets.2.2.1
    have h₄ := hlength p.octets.2.2.2
    have hone : (lit ".").length = 1 := rfl
    simp only [List.length_append, hone]
    omega

theorem fixed_passwordShape (password : Bytes) : Fixed (passwordShape password) := by
  have hall : ∀ lower upper number other : Bool,
      Fixed (if (if lower then ascii "a" else []) ++ (if upper then ascii "A" else []) ++
          (if number then ascii "0" else []) ++ (if other then ascii "#" else []) = []
        then ascii "none"
        else (if lower then ascii "a" else []) ++ (if upper then ascii "A" else []) ++
          (if number then ascii "0" else []) ++ (if other then ascii "#" else [])) := by
    decide
  exact hall _ _ _ _

/-- What a session may put into an event besides the peer. -/
def Part.Fit (p : Part) : Prop := p.Clean ∧ p.Small

/-- An event within the bounds of a session. -/
structure Event.Fit (e : Event) : Prop where
  eventType : Named e.eventType
  details : ∀ p ∈ e.details, p.Fit
  typeLength : e.eventType.length ≤ 64
  count : e.details.length ≤ 8
  keys : (e.details.map fun p => p.member.1).Nodup

theorem Event.Fit.clean {e : Event} (h : e.Fit) : e.Clean := ⟨h.eventType, fun p hp => (h.details p hp).1⟩

theorem Event.Fit.small {e : Event} (h : e.Fit) : ∀ p ∈ e.details, p.Small :=
  fun p hp => (h.details p hp).2

/-! ## The signer's view of an event -/

/-- The dictionary that a line spells. -/
def Event.value (source : Str) (time : Instant) (e : Event) : Value :=
  .ofMembers (e.fields source time)

theorem norm_ofMembers {ms : List (Str × Value)} (h : ∀ p ∈ ms, Json.norm logStyle p.2 = p.2) :
    Json.norm logStyle (.ofMembers ms) = .ofMembers ms := by
  have hmap : (ms.map fun p => (p.1, Json.norm logStyle p.2)) = ms := by
    refine (List.map_congr_left fun p hp => ?_).trans (List.map_id ms)
    rw [h p hp]
    rfl
  have hmembers := (normMembers_ofMembers (show logStyle.ascii = false from rfl) ms).trans hmap
  rw [Value.ofMembers, Json.norm, hmembers]
  rfl

theorem Part.norm_member (p : Part) : Json.norm logStyle p.member.2 = p.member.2 := by
  cases p with
  | str key value => rfl
  | num key value => rfl

/-- A line spells its dictionary as it is. -/
theorem Event.norm_value (source : Str) (time : Instant) (e : Event) :
    Json.norm logStyle (e.value source time) = e.value source time := by
  apply norm_ofMembers
  simp only [Event.fields, List.forall_mem_cons]
  refine ⟨rfl, rfl, rfl, norm_ofMembers fun q hq => ?_, by simp⟩
  obtain ⟨p, -, rfl⟩ := List.mem_map.mp hq
  exact p.norm_member

theorem textOk_of_named {k : Str} (h : Named k) (hlength : k.length ≤ 513) :
    Canonicalizer.TextOk k :=
  ⟨hlength.trans (by decide), h.scalar⟩

theorem Part.Fit.encodable {p : Part} (h : p.Fit) (hl : p.Legible) {d : Nat}
    (hd : d ≤ Canonicalizer.maxDepth) :
    Canonicalizer.TextOk p.member.1 ∧ Canonicalizer.Encodable d p.member.2 := by
  obtain ⟨hclean, hsmall⟩ := h
  cases p with
  | str key value =>
      have hlength : (Utf8.decodeReplace value).length ≤ 513 := by
        rw [Utf8.decodeReplace, List.length_map]
        exact (Utf8.length_decode_le value).trans hsmall.2
      exact ⟨textOk_of_named hclean.1 (hsmall.1.trans (by decide)), hd,
        hlength.trans (by decide), Utf8.IsUtf8.scalar hl⟩
  | num key value =>
      have hbound : value.natAbs < 10 ^ 5 := hsmall.2.trans (by decide)
      exact ⟨textOk_of_named hclean (hsmall.1.trans (by decide)), hd,
        (Decimal.natText_length_le (by decide) hbound).trans (by decide)⟩

theorem stamp_length (i : Instant) : (stamp i).length ≤ 24 := by
  have hyear : (yearText false (dateOf (i.micros / dayMicros)).1).length ≤ 4 := by
    unfold yearText
    split_ifs with h
    · exact (Decimal.natText_length_le (by decide) (h.1.trans_eq (by decide : 1000 = 10 ^ 3))).trans
        (by decide)
    · rw [Decimal.padded_length]
  simp only [stamp, Instant.text, spelling, List.length_append, List.length_take, List.length_cons,
    List.length_nil, Decimal.padded_length]
  omega

theorem nodup_fields (source : Str) (time : Instant) (e : Event) :
    ((e.fields source time).map Prod.fst).Nodup := by
  have hkeys : [lit "timestamp", lit "source", lit "event_type", lit "details"].Nodup := by decide
  exact hkeys

/-- The fields of a line, as the canonical form takes them. -/
theorem Event.Fit.fields {source : Str} (hs : Named source) (hlength : source.length ≤ 32)
    (time : Instant) {e : Event} (h : e.Fit) (hl : ∀ p ∈ e.details, p.Legible) :
    ∀ p ∈ e.fields source time, Canonicalizer.TextOk p.1 ∧ Canonicalizer.Encodable 1 p.2 := by
  have hname : ∀ k ∈ [lit "timestamp", lit "source", lit "event_type", lit "details"],
      Canonicalizer.TextOk k := fun k hk =>
    textOk_of_named ((by decide : ∀ k ∈ [lit "timestamp", lit "source", lit "event_type",
      lit "details"], Named k) k hk) ((by decide : ∀ k ∈ [lit "timestamp", lit "source",
      lit "event_type", lit "details"], k.length ≤ 513) k hk)
  have hdetails : Canonicalizer.Encodable 1 (.ofMembers (e.details.map Part.member)) := by
    refine ⟨by decide, Canonicalizer.encodableMembers_ofMembers.mpr fun q hq => ?_⟩
    obtain ⟨p, hp, rfl⟩ := List.mem_map.mp hq
    exact (h.details p hp).encodable (hl p hp) (by decide)
  simp only [Event.fields, List.forall_mem_cons]
  refine ⟨⟨hname _ (by simp), by decide, ?_⟩, ⟨hname _ (by simp), by decide, ?_⟩,
    ⟨hname _ (by simp), by decide, ?_⟩, ⟨hname _ (by simp), hdetails⟩, by simp⟩
  · exact textOk_of_named (named_stamp time) ((stamp_length time).trans (by decide))
  · exact textOk_of_named hs (hlength.trans (by decide))
  · exact textOk_of_named h.eventType (h.typeLength.trans (by decide))

theorem Event.Fit.encodable {source : Str} (hs : Named source) (hlength : source.length ≤ 32)
    (time : Instant) {e : Event} (h : e.Fit) (hl : ∀ p ∈ e.details, p.Legible) :
    Canonicalizer.Encodable 0 (e.value source time) :=
  ⟨by decide, Canonicalizer.encodableMembers_ofMembers.mpr (h.fields hs hlength time hl)⟩

theorem Part.Fit.byteLength_valueText {p : Part} (h : p.Fit) (hl : p.Legible) :
    byteLength p.valueText ≤ 3080 := by
  obtain ⟨-, hsmall⟩ := h
  cases p with
  | str key value =>
      have hquote := byteLength_quote (Utf8.decodeReplace value)
      have hlength : (Utf8.decodeReplace value).length ≤ 513 := by
        rw [Utf8.decodeReplace, List.length_map]
        exact (Utf8.length_decode_le value).trans hsmall.2
      rw [Part.valueText]
      omega
  | num key value =>
      have hbound : value.natAbs < 10 ^ 5 := hsmall.2.trans (by decide)
      have hlength := Decimal.natText_length_le (by decide) hbound
      rw [Part.valueText, byteLength_printable fun c hc => printable_of_mem_intText hc]
      unfold Decimal.intText
      split_ifs
      · rw [List.length_cons]
        omega
      · omega

theorem Part.Fit.key_length {p : Part} (h : p.Fit) : p.member.1.length ≤ 32 := by
  cases p with
  | str key value => exact h.2.1
  | num key value => exact h.2.1

/-- The details of an event in canonical form. -/
theorem Event.Fit.details_text {e : Event} (h : e.Fit) (hl : ∀ p ∈ e.details, p.Legible) :
    ∃ t, dump Style.compact 1 (.ofMembers (e.details.map Part.member)) = .ok t ∧
      byteLength t ≤ 26300 := by
  have hmembers : dumpMembers Style.compact 2
      ((e.details.map Part.member).map fun p => (Key.str p.1, p.2)) =
        .ok (e.details.map fun p => (p.member.1, p.valueText)) := by
    apply dumpMembers_ofMembers
    intro p hp
    have hsmall := (h.small p hp).dump 2
    cases p with
    | str key value => rfl
    | num key value => exact hsmall
  have hdump : dump Style.compact 1 (.ofMembers (e.details.map Part.member)) = .ok _ :=
    bind_eq_ok.mpr ⟨_, hmembers, rfl⟩
  refine ⟨_, hdump, (byteLength_dict hmembers hdump).trans ?_⟩
  have hsum : ((e.details.map fun p => (p.member.1, p.valueText)).map
      fun p => 6 * p.1.length + byteLength p.2 + 4).sum ≤ 8 * 3276 := by
    refine (List.sum_le_card_nsmul _ 3276 fun n hn => ?_).trans ?_
    · rw [List.map_map] at hn
      obtain ⟨p, hp, rfl⟩ := List.mem_map.mp hn
      have hkey := (h.details p hp).key_length
      have hvalue := (h.details p hp).byteLength_valueText (hl p hp)
      simp only [Function.comp_apply]
      omega
    · have := h.count
      rw [List.length_map, List.length_map, nsmul_eq_mul, Nat.cast_id]
      omega
  omega

/-- The signer accepts the event of a line. -/
theorem Event.Fit.validateEvent {source : Str} (hs : Named source) (hlength : source.length ≤ 32)
    (time : Instant) {e : Event} (h : e.Fit) (hl : ∀ p ∈ e.details, p.Legible) :
    ∃ kvs, e.value source time = .dict kvs ∧ Models.validateEvent (.dict kvs) = .ok kvs := by
  obtain ⟨d, hd, hdlength⟩ := h.details_text hl
  have henc := h.encodable hs hlength time hl
  have hmembers : dumpMembers Style.compact 1
      ((e.fields source time).map fun p => (Key.str p.1, p.2)) =
        .ok [(lit "timestamp", quote false (stamp time)), (lit "source", quote false source),
          (lit "event_type", quote false e.eventType), (lit "details", d)] := by
    refine bind_eq_ok.mpr ⟨_, rfl, bind_eq_ok.mpr ⟨_, bind_eq_ok.mpr ⟨_, rfl, bind_eq_ok.mpr ⟨_,
      bind_eq_ok.mpr ⟨_, rfl, bind_eq_ok.mpr ⟨_, bind_eq_ok.mpr ⟨_, hd, ?_⟩, rfl⟩⟩, rfl⟩⟩, rfl⟩⟩
    rfl
  have hdump : dump Style.compact 0 (e.value source time) = .ok _ :=
    bind_eq_ok.mpr ⟨_, hmembers, rfl⟩
  have hsize := byteLength_dict hmembers hdump
  have hdepth : Models.depth 1 (e.value source time) ≤ 3 := by
    have hmembers : ∀ ps : List Part, Models.depthMembers 2
        ((ps.map Part.member).map fun p => (Key.str p.1, p.2)) ≤ 3 := by
      intro ps
      induction ps with
      | nil => decide
      | cons p ps ih =>
          have hone : Models.depth 3 p.member.2 = 3 := by
            cases p with
            | str key value => rfl
            | num key value => rfl
          exact max_le hone.le ih
    have hdetails := hmembers e.details
    simp only [Event.value, Event.fields, Value.ofMembers, List.map_cons, List.map_nil,
      Models.depth, Models.depthMembers, Nat.reduceAdd]
    omega
  have hbytes := Canonicalizer.canonicalBytes_eq_ok.mpr ⟨henc, _, hdump, rfl⟩
  refine ⟨_, rfl, validateEvent_eq_ok.mpr ⟨rfl, ⟨_, hbytes, ?_⟩, hdepth.trans (by decide)⟩⟩
  have h₁ := byteLength_quote (stamp time)
  have h₂ := stamp_length time
  have h₃ := byteLength_quote source
  have h₄ := byteLength_quote e.eventType
  have h₅ := h.typeLength
  have hmax : Models.maxEventBytes = 65536 := rfl
  have hkeys : (lit "timestamp").length = 9 ∧ (lit "source").length = 6 ∧
      (lit "event_type").length = 10 ∧ (lit "details").length = 7 := ⟨rfl, rfl, rfl, rfl⟩
  simp only [List.map_cons, List.map_nil, List.sum_cons, List.sum_nil, hkeys] at hsize
  rw [byteLength] at hsize
  omega

theorem within_logStyle : logStyle.Within Plain where
  printable _ h := h.plain
  item := List.forall_mem_singleton.mpr ⟨by decide, by decide⟩
  key := List.forall_mem_singleton.mpr ⟨by decide, by decide⟩
  newline := by simp [Style.newline, logStyle]

/-- A text on a line of its own: no line break in it, no space around it. -/
structure OneLine (t : Str) : Prop where
  lf : lf ∉ t
  cr : cr ∉ t
  strip : strip t = t
  nonempty : t ≠ []

/-- The line of an event whose values are UTF-8 is read as the event's dictionary. -/
theorem Event.Fit.loads (py : Interp) {source : Str} (hs : Named source)
    (hlength : source.length ≤ 32) (time : Instant) {e : Event} (h : e.Fit)
    (hl : ∀ p ∈ e.details, p.Legible) :
    ∃ t, Utf8.decodeStrict (line source time e) = some t ∧ OneLine t ∧
      Json.loads py.jsonLimit t = .ok (e.value source time) := by
  obtain ⟨t, ht, hdump⟩ := decode_line_of_legible hs time h.clean h.small hl
  have henc := h.encodable hs hlength time hl
  refine ⟨t, ht, ?_, ?_⟩
  · have hplain : ∀ c ∈ t, Plain c :=
      dump_within within_logStyle (fun _ hq _ hc => plain_of_mem_quote hq hc) 0 _ t henc.texts hdump
    obtain ⟨m, hm⟩ := dump_dict_ends hdump
    have hlast : t.getLast? = some (cp '\x7d') := by
      rw [hm, List.getLast?_cons, List.getLast?_append]
      rfl
    refine ⟨fun hlf => ?_, fun hcr => ?_, strip_eq_self ?_ ?_ ?_, ?_⟩
    · exact absurd (hplain _ hlf).1 (by decide)
    · exact absurd (hplain _ hcr).1 (by decide)
    · rw [hm]
      rintro c ⟨⟩
      decide
    · rw [hlast]
      rintro c ⟨⟩
      decide
    · rw [hm]
      exact List.cons_ne_nil _ _
    · rw [hm]
      exact List.cons_ne_nil _ _
  · have hdetails : ∀ p ∈ e.details.map Part.member, Scalar p.1 ∧ Writable logStyle p.2 := by
      intro q hq
      obtain ⟨p, hp, rfl⟩ := List.mem_map.mp hq
      refine ⟨((h.details p hp).encodable (hl p hp) (d := 1) (by decide)).1.2, ?_⟩
      have hsmall := h.small p hp
      cases p with
      | str key value => trivial
      | num key value =>
          have hbound : value.natAbs < 10 ^ 5 := hsmall.2.trans (by decide)
          exact (Decimal.natText_length_le (by decide) hbound).trans (by decide)
    have hkeys : ((e.details.map Part.member).map Prod.fst).Nodup := by
      rw [List.map_map]
      exact h.keys
    have hwritable : Writable logStyle (e.value source time) := by
      refine writable_ofMembers (nodup_fields source time e) fun p hp => ?_
      refine ⟨(h.fields hs hlength time hl p hp).1.2, ?_⟩
      revert p
      simp only [Event.fields, List.forall_mem_cons]
      exact ⟨trivial, trivial, trivial, writable_ofMembers hkeys hdetails, by simp⟩
    obtain ⟨u, hu, hreads⟩ := dump_reads Hooks.plain_default valid_logStyle 0 _ hwritable
    obtain rfl : t = u := Except.ok.inj (hdump.symm.trans hu)
    have hnest : (e.value source time).nest ≤ py.jsonLimit := by
      have hmembers : ∀ ps : List Part,
          Value.nestMembers ((ps.map Part.member).map fun p => (Key.str p.1, p.2)) = 0 := by
        intro ps
        induction ps with
        | nil => rfl
        | cons p ps ih =>
            have hone : p.member.2.nest = 0 := by
              cases p with
              | str key value => rfl
              | num key value => rfl
            simp only [List.map_cons, Value.nestMembers, hone, ih, max_self]
      have := py.jsonLimit_le
      have hdetails := hmembers e.details
      simp only [Event.value, Event.fields, Value.ofMembers, List.map_cons, List.map_nil,
        Value.nest, Value.nestMembers, hdetails]
      omega
    have hload := hreads.loadsWith (w := []) hnest (by simp)
    rwa [List.append_nil, e.norm_value] at hload

/-! ## The log file -/

/-- The file that the logger has written: each event with the time at which it was logged. -/
def logFile (source : Str) (log : List (Instant × Event)) : Bytes :=
  log.flatMap fun entry => line source entry.1 entry.2 ++ [Utf8.lfByte]

/-- The lines of a file that is opened as UTF-8 text, `none` when it is not UTF-8. -/
def readLines (content : Bytes) : Option (List Str) :=
  (Utf8.decodeStrict content).map fun text => splitLines (universalNewlines text)

/-- A file of lines is read line by line. -/
theorem readLines_flatMap {α : Type} {xs : List α} {f : α → Bytes} {text : α → Str}
    (h : ∀ x ∈ xs, Utf8.decodeStrict (f x) = some (text x) ∧ lf ∉ text x ∧ cr ∉ text x) :
    readLines (xs.flatMap fun x => f x ++ [Utf8.lfByte]) = some (xs.map fun x => text x ++ [lf]) := by
  have hdecode : Utf8.decode (xs.flatMap fun x => f x ++ [Utf8.lfByte]) =
      (xs.flatMap fun x => text x ++ [lf]).map some := by
    induction xs with
    | nil => rfl
    | cons x xs ih =>
        obtain ⟨hx, hxs⟩ := List.forall_mem_cons.mp h
        have hlf : ∀ t, Utf8.decode (Utf8.lfByte :: t) = some lf :: Utf8.decode t :=
          fun t => Utf8.decode_ascii (by decide) t
        rw [List.flatMap_cons, List.flatMap_cons, List.append_assoc, List.singleton_append,
          Utf8.decode_append_ascii _ (by decide), hlf, ih hxs, Utf8.decode_of_decodeStrict hx.1,
          List.map_append, List.map_append, List.append_assoc]
        rfl
  have hcr : cr ∉ xs.flatMap fun x => text x ++ [lf] := by
    intro hmem
    obtain ⟨x, hx, hmem⟩ := List.mem_flatMap.mp hmem
    rcases List.mem_append.mp hmem with hmem | hmem
    · exact (h x hx).2.2 hmem
    · exact absurd (List.mem_singleton.mp hmem) (by decide)
  have hlf : ∀ t ∈ xs.map text, lf ∉ t := by
    intro t ht
    obtain ⟨x, hx, rfl⟩ := List.mem_map.mp ht
    exact (h x hx).2.1
  have hlines := splitLines_flatMap hlf
  rw [List.flatMap_map, List.map_map] at hlines
  rw [readLines, Utf8.decodeStrict_of_decode hdecode, Option.map_some,
    universalNewlines_eq_self hcr, hlines]
  rfl

/-! ## Signing the log -/

/-- The report on records that were signed one after another. -/
def reportOn (report : SigningReport) (records : List (Int × Str)) : SigningReport :=
  records.foldl (fun r record => r.note record.1) report

theorem reportOn_eq (records : List (Int × Str)) (report : SigningReport) :
    (reportOn report records).signed = report.signed + records.length ∧
      (reportOn report records).skipped = report.skipped ∧
      (reportOn report records).errors = report.errors := by
  induction records generalizing report with
  | nil => exact ⟨rfl, rfl, rfl⟩
  | cons record records ih =>
      obtain ⟨hsigned, hskipped, herrors⟩ := ih (report.note record.1)
      refine ⟨hsigned.trans ?_, hskipped, herrors⟩
      rw [List.length_cons]
      exact Nat.add_right_comm report.signed 1 records.length

/-- A line from which an event is read. -/
def Spells (py : Interp) (text : Str) (event : Value) : Prop :=
  strip text ≠ [] ∧ Json.loads py.jsonLimit (strip text) = .ok event ∧ ∃ kvs, event = .dict kvs

/-- Signing lines from which events are read is signing the events. -/
theorem signLines_spells (py : Interp) (s : EvidenceSigner) {lines : List Str}
    {events : List Value} (h : List.Forall₂ (Spells py) lines events) (count : Nat)
    (report : SigningReport) : s.signLines py none lines count report =
      (s.signEach py events >>= fun records => pure (reportOn report records)) := by
  induction h generalizing count report with
  | nil => rfl
  | @cons text event lines events hline _ ih =>
      obtain ⟨hne, hload, kvs, rfl⟩ := hline
      rw [EvidenceSigner.signLines, if_neg hne, EvidenceSigner.signEach, Method.bind_assoc]
      simp only [Option.any_none, Bool.false_eq_true, if_false, hload]
      refine congrArg _ (funext fun now => ?_)
      rw [Method.bind_assoc]
      refine congrArg _ (funext fun r => ?_)
      rw [ih, Method.bind_assoc]
      rfl

theorem safe_trivial {σ α : Type} (w : World Fs σ) (m : StoreM α) (o : EvidenceStore) (st : σ) :
    m.Safe w (fun _ => True) (fun _ _ _ => True) o st := by
  unfold Method.Safe
  generalize m o = p
  induction p generalizing st with
  | done a => exact ⟨trivial, trivial⟩
  | call c k ih => exact ⟨trivial, fun _ _ => trivial, fun r t _ => ih r t⟩

/-- What holds of a method's result whatever the world does holds of it behind another one. -/
theorem safe_trivial_bind {σ α β : Type} {w : World Fs σ} {Q : β → Prop} {m : StoreM α}
    {f : α → StoreM β}
    (h : ∀ a o st, (f a).Safe w (fun _ => True) (fun r _ _ => ∀ b, r = .ok b → Q b) o st)
    (o : EvidenceStore) (st : σ) :
    (m >>= f).Safe w (fun _ => True) (fun r _ _ => ∀ b, r = .ok b → Q b) o st := by
  rw [safe_bind]
  refine (safe_trivial w m o st).weaken fun r o st _ _ => ?_
  cases r with
  | error e => exact nofun
  | ok a => exact h a o st

/-- Signing events leaves a record for each. -/
theorem safe_signEach_length (py : Interp) (s : EvidenceSigner) {σ : Type} (w : World Fs σ)
    (events : List Value) (o : EvidenceStore) (st : σ) :
    (s.signEach py events).Safe w (fun _ => True)
      (fun r _ _ => ∀ records, r = .ok records → records.length = events.length) o st := by
  induction events generalizing o st with
  | nil =>
      rw [EvidenceSigner.signEach, safe_pure]
      exact ⟨trivial, fun records hr => congrArg List.length (Except.ok.inj hr).symm⟩
  | cons event events ih =>
      rw [EvidenceSigner.signEach]
      refine safe_trivial_bind (fun now => safe_trivial_bind fun record => ?_) o st
      intro o st
      rw [safe_bind]
      refine (ih o st).weaken fun r o st _ hr => ?_
      cases r with
      | error e => exact nofun
      | ok records =>
          rw [Method.Then, safe_pure]
          refine ⟨trivial, fun all hall => ?_⟩
          rw [← Except.ok.inj hall, List.length_cons, List.length_cons, hr records rfl]

/-- What holds of the result of a body holds of the result of its session. -/
theorem safe_session_result (py : Interp) {σ α : Type} {w : World Fs σ} {Q : α → Prop}
    {body : StoreM α}
    (h : ∀ o st, body.Safe w (fun _ => True) (fun r _ _ => ∀ a, r = .ok a → Q a) o st)
    (o : EvidenceStore) (st : σ) :
    (EvidenceSigner.session py body).Safe w (fun _ => True)
      (fun r _ _ => ∀ a, r = .ok a → Q a) o st := by
  unfold EvidenceSigner.session
  refine safe_trivial_bind (fun _ o st => ?_) o st
  rw [safe_bind, safe_attempt]
  refine (h o st).weaken fun r o st _ hr => ?_
  refine safe_trivial_bind (fun _ o st => ?_) o st
  exact safe_ofExcept.mpr ⟨trivial, hr⟩

/-! ## Logs that can be sealed -/

/-- The line of an entry is UTF-8, and the JSON text of an event that the signer accepts. -/
def Accepts (py : Interp) (source : Str) (entry : Instant × Event) (event : Value) : Prop :=
  ∃ text kvs, Utf8.decodeStrict (line source entry.1 entry.2) = some text ∧
    Json.loads py.jsonLimit text = .ok event ∧ event = .dict kvs ∧
    Models.validateEvent event = .ok kvs

/-- A log that can be sealed: every line is read as an event, and signing the file is signing
these events, so that every run that comes to its end has signed an event for each line. -/
structure Sealable (py : Interp) (source : Str) (log : List (Instant × Event)) : Prop where
  accepts : ∃ file events, readLines (logFile source log) = some file ∧
    List.Forall₂ (Accepts py source) log events ∧
    ∀ s : EvidenceSigner, s.signLog py file none = EvidenceSigner.session py
      (s.signEach py events >>= fun records => pure (reportOn .start records))
  report : ∀ file, readLines (logFile source log) = some file → ∀ (s : EvidenceSigner) {σ : Type}
    (w : World Fs σ) (o o' : EvidenceStore) (st st' : σ) (r : SigningReport),
    (s.signLog py file none).Ends w o st (.ok r) o' st' →
      r.signed = log.length ∧ r.skipped = 0 ∧ r.errors = 0

/-- A log can be sealed exactly when every value in it is UTF-8. -/
theorem sealable_of_fit (py : Interp) {source : Str} (hs : Named source)
    (hlength : source.length ≤ 32) {log : List (Instant × Event)}
    (hfit : ∀ entry ∈ log, entry.2.Fit) :
    Sealable py source log ↔ ∀ entry ∈ log, ∀ p ∈ entry.2.details, p.Legible := by
  constructor
  · intro h entry hentry
    obtain ⟨file, events, -, haccepts, -⟩ := h.accepts
    have hall : ∀ entry ∈ log, Utf8.IsUtf8 (line source entry.1 entry.2) := by
      clear hfit hentry h
      induction haccepts with
      | nil => simp
      | cons hline _ ih =>
          obtain ⟨text, kvs, htext, -⟩ := hline
          refine List.forall_mem_cons.mpr ⟨?_, ih⟩
          rw [Utf8.IsUtf8, htext]
          rfl
    exact (isUtf8_line hs entry.1 (hfit entry hentry).clean).mp (hall entry hentry)
  · intro hl
    have hload : ∀ entry ∈ log,
        Utf8.decodeStrict (line source entry.1 entry.2) =
          some (Utf8.decodeReplace (line source entry.1 entry.2)) ∧
        OneLine (Utf8.decodeReplace (line source entry.1 entry.2)) ∧
        Json.loads py.jsonLimit (Utf8.decodeReplace (line source entry.1 entry.2)) =
          .ok (entry.2.value source entry.1) := by
      intro entry hentry
      obtain ⟨t, ht, hone, hvalue⟩ :=
        (hfit entry hentry).loads py hs hlength entry.1 (hl entry hentry)
      rw [Utf8.decodeReplace_of_decodeStrict ht]
      exact ⟨ht, hone, hvalue⟩
    have hvalid : ∀ entry ∈ log, ∃ kvs, entry.2.value source entry.1 = .dict kvs ∧
        Models.validateEvent (.dict kvs) = .ok kvs := fun entry hentry =>
      (hfit entry hentry).validateEvent hs hlength entry.1 (hl entry hentry)
    have hfile : readLines (logFile source log) = some (log.map fun entry =>
        Utf8.decodeReplace (line source entry.1 entry.2) ++ [lf]) :=
      readLines_flatMap fun entry hentry =>
        ⟨(hload entry hentry).1, (hload entry hentry).2.1.lf, (hload entry hentry).2.1.cr⟩
    have hspells : List.Forall₂ (Spells py)
        (log.map fun entry => Utf8.decodeReplace (line source entry.1 entry.2) ++ [lf])
        (log.map fun entry => entry.2.value source entry.1) := by
      rw [List.forall₂_map_left_iff, List.forall₂_map_right_iff, List.forall₂_same]
      intro entry hentry
      obtain ⟨-, hone, hvalue⟩ := hload entry hentry
      obtain ⟨kvs, hkvs, -⟩ := hvalid entry hentry
      rw [Spells, strip_append_lf, hone.strip]
      exact ⟨hone.nonempty, hvalue, kvs, hkvs⟩
    have hsign : ∀ s : EvidenceSigner, s.signLog py (log.map fun entry =>
        Utf8.decodeReplace (line source entry.1 entry.2) ++ [lf]) none =
          EvidenceSigner.session py
            (s.signEach py (log.map fun entry => entry.2.value source entry.1) >>=
              fun records => pure (reportOn .start records)) := fun s =>
      congrArg (EvidenceSigner.session py) (signLines_spells py s hspells 0 .start)
    constructor
    · refine ⟨_, log.map fun entry => entry.2.value source entry.1, hfile, ?_, hsign⟩
      rw [List.forall₂_map_right_iff, List.forall₂_same]
      intro entry hentry
      obtain ⟨htext, -, hvalue⟩ := hload entry hentry
      obtain ⟨kvs, hkvs, haccepted⟩ := hvalid entry hentry
      exact ⟨_, kvs, htext, hvalue, hkvs, hkvs ▸ haccepted⟩
    · intro file hread s σ w o o' st st' r hr
      obtain rfl := Option.some.inj (hread.symm.trans hfile)
      rw [hsign] at hr
      have hbody : ∀ o st, Method.Safe w (fun _ => True)
          (fun r _ _ => ∀ report, r = .ok report → report.signed = log.length ∧
            report.skipped = 0 ∧ report.errors = 0)
          (s.signEach py (log.map fun entry => entry.2.value source entry.1) >>=
            fun records => pure (reportOn .start records)) o st := by
        intro o st
        rw [safe_bind]
        refine (safe_signEach_length py s w _ o st).weaken fun r o st _ hlength => ?_
        cases r with
        | error e => exact fun _ h => by cases h
        | ok records =>
            rw [Method.Then, safe_pure]
            refine ⟨trivial, fun r hr => ?_⟩
            obtain ⟨hsigned, hskipped, herrors⟩ := reportOn_eq records .start
            rw [← Except.ok.inj hr, hsigned, hskipped, herrors, hlength records rfl, List.length_map]
            exact ⟨Nat.zero_add _, rfl, rfl⟩
      exact (safe_session_result py hbody o st).ends hr r rfl

/-! ## What a client types -/

section

-- one instance by name, for the membership that the definition decides
local instance lawfulBEq_bytes : LawfulBEq Bytes := List.instLawfulBEq

/-- The commands among the lines of a client: the lines that are not empty, up to the limit, to
the command that ends the session, or to an answer that cannot be sent. -/
def commandTexts (svc : Service) : Nat → Nat → Conn → List Bytes
  | 0, _, _ => []
  | fuel + 1, count, c =>
      let read := readLine c.arrivals
      if read.status ≠ .ok then []
      else if read.out = [] then
        if c.sends 0 then commandTexts svc fuel count (c.sent.after read.rest) else []
      else if maxCommandsPerSession < count + 1 then []
      else if read.out ∈ svc.exits ∨ c.sends 0 = false then [read.out]
      else read.out :: commandTexts svc fuel (count + 1) (c.sent.after read.rest)

end

/-- What a client types behind its name: its password, when passwords are captured, and its
commands. -/
def textsBehindName (svc : Service) (captureCredentials : Bool) (c : Conn) : List Bytes :=
  let pass := readLine c.arrivals
  (if captureCredentials then [pass.out] else []) ++
    if c.sends 0 then
      commandTexts svc (pass.rest.length + 1) 0 (c.sent.after pass.rest)
    else []

/-- The texts of a client that a session takes into its log: an identification, and behind a
completed login the name, the password when passwords are captured, and the commands. -/
def clientTexts (svc : Service) (captureCredentials : Bool) (c : Conn) : List Bytes :=
  match Conn.sendAll svc.greetings c with
  | (false, _) => []
  | (true, c) =>
      let user := readLine c.arrivals
      (if svc.identifies = true ∧ (ascii "SSH-").isPrefixOf user.out = true then [user.out]
        else []) ++
      if user.status = .ok ∧ c.sends 0 = true ∧ (readLine user.rest).status = .ok then
        user.out :: textsBehindName svc captureCredentials (c.sent.after user.rest)
      else []

/-- Events within bounds whose values are UTF-8 exactly when some texts are. -/
structure Carries (events : List Event) (texts : List Bytes) : Prop where
  fit : ∀ e ∈ events, e.Fit
  legible : (∀ e ∈ events, ∀ p ∈ e.details, p.Legible) ↔ ∀ t ∈ texts, Utf8.IsUtf8 t

theorem Carries.nil : Carries [] [] where
  fit := by simp
  legible := by simp

theorem Carries.append {es es' : List Event} {ts ts' : List Bytes} (h : Carries es ts)
    (h' : Carries es' ts') : Carries (es ++ es') (ts ++ ts') where
  fit := List.forall_mem_append.mpr ⟨h.fit, h'.fit⟩
  legible := by
    rw [List.forall_mem_append, List.forall_mem_append]
    exact and_congr h.legible h'.legible

theorem Carries.cons {e : Event} {es : List Event} {ts ts' : List Bytes} (h : Carries [e] ts)
    (h' : Carries es ts') : Carries (e :: es) (ts ++ ts') := h.append h'

/-- A service whose own names and texts are within bounds. -/
structure Service.Proper (svc : Service) : Prop where
  source : Named svc.source
  sourceLength : svc.source.length ≤ 32
  name : Named svc.name
  nameLength : svc.name.length ≤ 16
  note : svc.note = [] ∨ ∃ text, Fixed text ∧ svc.note = [.str (lit "note") text]

theorem proper_telnet : telnet.Proper where
  source := by decide
  sourceLength := by decide
  name := by decide
  nameLength := by decide
  note := .inl rfl

theorem proper_sshBanner : sshBanner.Proper where
  source := by decide
  sourceLength := by decide
  name := by decide
  nameLength := by decide
  note := .inr ⟨ascii "SSH-banner decoy; no key exchange performed",
    fixed_encodeAll (printable_of_all (by decide)) (by decide), rfl⟩

/-- A text of a client, as the line reader returns it. -/
def Read (text : Bytes) : Prop := Clean text ∧ text.length ≤ 513

theorem read_readLine (arrivals : List Arrival) : Read (readLine arrivals).out :=
  ⟨readLine_clean arrivals, readLine_short arrivals⟩

theorem fit_str {key : Str} (hkey : Named key) (hlength : key.length ≤ 32) {text : Bytes}
    (h : Read text) : (Part.str key text).Fit := ⟨⟨hkey, h.1⟩, hlength, h.2⟩

theorem fit_num {key : Str} (hkey : Named key) (hlength : key.length ≤ 32) {n : Nat}
    (h : n < 65536) : (Part.num key n).Fit := ⟨hkey, hlength, h⟩

theorem Fixed.read {text : Bytes} (h : Fixed text) : Read text := ⟨h.1, h.2.1⟩

/-- An event behind the peer's address and port. -/
theorem carries_single (peer : Peer) {eventType : Str} (htype : Named eventType)
    (hlength : eventType.length ≤ 64) {details : List Part} {ts : List Bytes}
    (hfit : ∀ p ∈ details, p.Fit) (hcount : details.length ≤ 6)
    (hkeys : (lit "client_ip" :: lit "client_port" :: details.map fun p => p.member.1).Nodup)
    (htexts : (∀ p ∈ details, p.Legible) ↔ ∀ t ∈ ts, Utf8.IsUtf8 t) :
    Carries [⟨eventType, peer.parts ++ details⟩] ts where
  fit := by
    refine List.forall_mem_singleton.mpr ⟨htype, List.forall_mem_append.mpr ⟨?_, hfit⟩, hlength,
      ?_, hkeys⟩
    · refine List.forall_mem_cons.mpr ⟨fit_str (by decide) (by decide) (fixed_ip peer).read, ?_⟩
      exact List.forall_mem_singleton.mpr (fit_num (by decide) (by decide) peer.port.toNat_lt)
    · rw [List.length_append]
      exact Nat.add_le_add_left hcount 2
  legible := by
    rw [List.forall_mem_singleton, List.forall_mem_append, htexts]
    refine and_iff_right (List.forall_mem_cons.mpr ⟨(fixed_ip peer).2.2, ?_⟩)
    exact List.forall_mem_singleton.mpr trivial

variable {svc : Service} (peer : Peer)

/-- An event with no text of the client. -/
theorem Service.Proper.carries_event (hsvc : svc.Proper) {what : String} (hwhat : Named (lit what))
    (hlength : (lit what).length ≤ 40) {details : List Part} {ts : List Bytes}
    (hfit : ∀ p ∈ details, p.Fit) (hcount : details.length ≤ 6)
    (hkeys : (lit "client_ip" :: lit "client_port" :: details.map fun p => p.member.1).Nodup)
    (htexts : (∀ p ∈ details, p.Legible) ↔ ∀ t ∈ ts, Utf8.IsUtf8 t) :
    Carries [svc.event peer what details] ts := by
  refine carries_single peer ?_ ?_ hfit hcount hkeys htexts
  · exact List.forall_mem_append.mpr ⟨hsvc.name, hwhat⟩
  · have := hsvc.nameLength
    rw [List.length_append]
    omega

theorem carries_peerIdentification (hsvc : svc.Proper) {text : Bytes} (htext : Read text) :
    Carries (svc.recordPeerIdentification peer text)
      (if svc.identifies = true ∧ (ascii "SSH-").isPrefixOf text = true then [text] else []) := by
  unfold Service.recordPeerIdentification
  split_ifs
  · have hnote : Fixed (ascii
        "peer sent an SSH identification string; this decoy performs no key exchange") :=
      fixed_encodeAll (printable_of_all (by decide)) (by decide)
    have hkeys : [lit "client_ip", lit "client_port", lit "first_line", lit "note"].Nodup := by
      decide
    refine hsvc.carries_event peer (by decide) (by decide) ?_ (by simp) hkeys ?_
    · refine List.forall_mem_cons.mpr ⟨fit_str (by decide) (by decide) htext, ?_⟩
      exact List.forall_mem_singleton.mpr (fit_str (by decide) (by decide) hnote.read)
    · rw [List.forall_mem_cons, List.forall_mem_singleton, List.forall_mem_singleton]
      exact and_iff_left hnote.2.2
  · exact .nil

theorem carries_loginAttempt {captureCredentials : Bool} {username password : Bytes}
    (hname : Read username) (hpassword : Read password) :
    Carries [Service.logLoginAttempt peer captureCredentials username password]
      (username :: if captureCredentials then [password] else []) := by
  have hshape := fixed_passwordShape password
  have hlength : password.length < 65536 := hpassword.2.trans_lt (by decide)
  have hflag : (Part.num (lit "credentials_captured") (if captureCredentials then 1 else 0)).Fit := by
    cases captureCredentials with
    | false => exact fit_num (by decide) (by decide) (by decide : 0 < 65536)
    | true => exact fit_num (by decide) (by decide) (by decide : 1 < 65536)
  have hfixed : ∀ p ∈ [Part.str (lit "username") username,
      .num (lit "password_length") password.length,
      .str (lit "password_shape") (passwordShape password),
      .num (lit "credentials_captured") (if captureCredentials then 1 else 0)], p.Fit := by
    simp only [List.forall_mem_cons]
    exact ⟨fit_str (by decide) (by decide) hname, fit_num (by decide) (by decide) hlength,
      fit_str (by decide) (by decide) hshape.read, hflag, by simp⟩
  have hlegible : (∀ p ∈ [Part.str (lit "username") username,
      .num (lit "password_length") password.length,
      .str (lit "password_shape") (passwordShape password),
      .num (lit "credentials_captured") (if captureCredentials then 1 else 0)], p.Legible) ↔
        Utf8.IsUtf8 username := by
    simp only [List.forall_mem_cons, Part.Legible]
    exact ⟨fun h => h.1, fun h => ⟨h, trivial, hshape.2.2, trivial, by simp⟩⟩
  unfold Service.logLoginAttempt
  rw [List.append_assoc]
  cases captureCredentials with
  | false =>
      have hkeys : [lit "client_ip", lit "client_port", lit "username", lit "password_length",
          lit "password_shape", lit "credentials_captured"].Nodup := by decide
      refine carries_single peer (by decide) (by decide) (by simpa using hfixed) (by simp) hkeys ?_
      rw [show (if false = true then [password] else []) = ([] : List Bytes) from rfl,
        List.forall_mem_singleton]
      exact hlegible
  | true =>
      have hkeys : [lit "client_ip", lit "client_port", lit "username", lit "password_length",
          lit "password_shape", lit "credentials_captured", lit "password"].Nodup := by decide
      refine carries_single peer (by decide) (by decide) ?_ (by simp) hkeys ?_
      · refine List.forall_mem_append.mpr ⟨hfixed, List.forall_mem_singleton.mpr ?_⟩
        exact fit_str (by decide) (by decide) hpassword
      · rw [List.forall_mem_append, hlegible, List.forall_mem_cons]
        exact and_congr_right fun _ => by simp [Part.Legible]

/-- An event whose only detail is a number or a text of the service. -/
theorem Service.Proper.carries_own (hsvc : svc.Proper) {what : String} (hwhat : Named (lit what))
    (hlength : (lit what).length ≤ 40) {part : Part} (hfit : part.Fit) (hlegible : part.Legible)
    (hkeys : [lit "client_ip", lit "client_port", part.member.1].Nodup) :
    Carries [svc.event peer what [part]] [] := by
  refine hsvc.carries_event peer hwhat hlength (List.forall_mem_singleton.mpr hfit) (by simp) hkeys ?_
  simpa using hlegible

theorem Service.Proper.carries_plain (hsvc : svc.Proper) {what : String} (hwhat : Named (lit what))
    (hlength : (lit what).length ≤ 40) : Carries [svc.event peer what []] [] := by
  have hkeys : [lit "client_ip", lit "client_port"].Nodup := by decide
  exact hsvc.carries_event peer hwhat hlength (by simp) (by simp) hkeys (by simp)

theorem Service.Proper.carries_command (hsvc : svc.Proper) {text : Bytes} (htext : Read text)
    {count : Nat} (hcount : count ≤ maxCommandsPerSession) :
    Carries [svc.event peer "_command"
      [.str (lit "command") text, .num (lit "sequence") (count : Int)]] [text] := by
  have hkeys : [lit "client_ip", lit "client_port", lit "command", lit "sequence"].Nodup := by decide
  refine hsvc.carries_event peer (by decide) (by decide) ?_ (by simp) hkeys ?_
  · refine List.forall_mem_cons.mpr ⟨fit_str (by decide) (by decide) htext, ?_⟩
    exact List.forall_mem_singleton.mpr
      (fit_num (by decide) (by decide) (hcount.trans_lt (by decide)))
  · simp [Part.Legible]

/-- The loop over the commands logs the commands. -/
theorem carries_commands (hsvc : svc.Proper) (fuel count : Nat) (c : Conn) :
    Carries (svc.commands peer fuel count c).1 (commandTexts svc fuel count c) := by
  have hlimit : [lit "client_ip", lit "client_port", lit "limit"].Nodup := by decide
  induction fuel generalizing count c with
  | zero => exact .nil
  | succ fuel ih =>
      rw [Service.commands, commandTexts]
      dsimp only
      cases hstatus : (readLine c.arrivals).status with
      | timeout =>
          simp only [ne_eq, reduceCtorEq, not_false_eq_true, if_true]
          exact hsvc.carries_plain peer (by decide) (by decide)
      | tooLong =>
          simp only [ne_eq, reduceCtorEq, not_false_eq_true, if_true]
          exact hsvc.carries_own peer (by decide) (by decide)
            (fit_num (by decide) (by decide) (by decide : maxLineLength < 65536)) trivial hlimit
      | closed | error =>
          simp only [ne_eq, reduceCtorEq, not_false_eq_true, if_true]
          exact .nil
      | ok =>
          simp only [ne_eq, not_true_eq_false, if_false]
          by_cases hempty : (readLine c.arrivals).out = []
          · simp only [hempty, if_true]
            split_ifs
            · exact ih _ _
            · exact .nil
          · by_cases hmany : maxCommandsPerSession < count + 1
            · simp only [hempty, hmany, if_true, if_false]
              exact hsvc.carries_own peer (by decide) (by decide)
                (fit_num (by decide) (by decide) (by decide : maxCommandsPerSession < 65536)) trivial
                hlimit
            · have hcommand := hsvc.carries_command peer (read_readLine c.arrivals)
                (Nat.le_of_not_lt hmany)
              simp only [hempty, hmany, if_false]
              by_cases hexit : (readLine c.arrivals).out ∈ svc.exits
              · simp only [hexit, true_or, if_true]
                exact hcommand
              · cases hsent : c.sends 0 with
                | true =>
                    simp only [hexit, if_false, if_true, false_or, Bool.true_eq_false]
                    exact hcommand.cons (ih _ _)
                | false =>
                    simp only [hexit, if_false, if_true, false_or, Bool.false_eq_true]
                    exact hcommand

/-- The close reasons. -/
def closeReasons : List Str :=
  [lit "peer_closed", lit "send_failed", lit "line_too_long", lit "login_incomplete",
    lit "timeout", lit "error", lit "command_limit", lit "client_exit"]

theorem fixed_closeReason {reason : Str} (h : reason ∈ closeReasons) :
    Fixed (Utf8.encodeAll reason) := by
  have hnamed : ∀ r ∈ closeReasons, Named r := by decide
  have hlength : ∀ r ∈ closeReasons, r.length ≤ 513 := by decide
  exact fixed_encodeAll (hnamed reason h) (hlength reason h)

theorem commands_reason (fuel count : Nat) (c : Conn) :
    (svc.commands peer fuel count c).2 ∈ closeReasons := by
  induction fuel generalizing count c with
  | zero => simp [Service.commands, closeReasons]
  | succ fuel ih =>
      rw [Service.commands]
      dsimp only
      cases hstatus : (readLine c.arrivals).status with
      | timeout | tooLong | closed | error => simp [closeReasons]
      | ok =>
          dsimp only
          split_ifs
          · exact ih _ _
          · simp [closeReasons]
          · simp [closeReasons]
          · simp [closeReasons]
          · exact ih _ _
          · simp [closeReasons]

theorem loginReason_mem (status : LineStatus) : Service.loginReason status ∈ closeReasons := by
  unfold Service.loginReason
  split_ifs
  · simp [closeReasons]
  · simp [closeReasons]

/-- What follows a completed login logs the name, the password when it is captured, and the
commands. -/
theorem carries_serve (hsvc : svc.Proper) (captureCredentials : Bool) {username : Bytes}
    (hname : Read username) (c : Conn) :
    Carries (svc.serve peer captureCredentials
        (.complete username (readLine c.arrivals).out (c.after (readLine c.arrivals).rest))).1
      (username :: textsBehindName svc captureCredentials c) := by
  have hattempt : Carries
      [Service.logLoginAttempt peer captureCredentials username (readLine c.arrivals).out]
      (username :: if captureCredentials then [(readLine c.arrivals).out] else []) :=
    carries_loginAttempt peer hname (read_readLine c.arrivals)
  simp only [Service.serve, textsBehindName, Conn.after]
  by_cases hsent : c.sends 0 = true
  · simp only [hsent, if_true]
    exact hattempt.append (carries_commands peer hsvc _ _ _)
  · simp only [hsent, if_false, List.append_nil, Bool.false_eq_true]
    exact hattempt

/-- A login and what follows it log what the client types. -/
theorem carries_login (hsvc : svc.Proper) (captureCredentials : Bool) (c : Conn) :
    Carries ((svc.login peer c).1 ++ (svc.serve peer captureCredentials (svc.login peer c).2).1)
        (clientTexts svc captureCredentials c) ∧
      (svc.serve peer captureCredentials (svc.login peer c).2).2 ∈ closeReasons := by
  have hrefused : ∀ {events : List Event} {texts : List Bytes} {reason : Str},
      Carries events texts → reason ∈ closeReasons →
        Carries (events ++ (svc.serve peer captureCredentials (.refused reason)).1) (texts ++ []) ∧
          (svc.serve peer captureCredentials (.refused reason)).2 ∈ closeReasons :=
    fun hevents hreason => ⟨hevents.append .nil, hreason⟩
  have hunsent : lit "send_failed" ∈ closeReasons := by simp [closeReasons]
  rw [Service.login, clientTexts]
  generalize Conn.sendAll svc.greetings c = greeted
  obtain ⟨sent, c⟩ := greeted
  cases sent with
  | false => exact hrefused .nil hunsent
  | true =>
      have hident := carries_peerIdentification peer hsvc (read_readLine c.arrivals)
      dsimp only
      by_cases hok : (readLine c.arrivals).status = .ok
      · cases hprompt : c.sends 0 with
        | false =>
            simp only [hok, ne_eq, not_true_eq_false, Bool.false_eq_true, false_and, and_false,
              if_false, if_true]
            exact hrefused hident hunsent
        | true =>
            by_cases hpass : (readLine (readLine c.arrivals).rest).status = .ok
            · simp only [hok, hpass, ne_eq, not_true_eq_false, Bool.true_eq_false, and_self,
                if_false, if_true]
              refine ⟨hident.append (carries_serve peer hsvc captureCredentials
                (read_readLine c.arrivals) (c.sent.after (readLine c.arrivals).rest)), ?_⟩
              simp only [Service.serve]
              split_ifs
              · exact commands_reason peer _ _ _
              · exact hunsent
            · simp only [hok, hpass, ne_eq, not_true_eq_false, not_false_eq_true,
                Bool.true_eq_false, and_false, if_false, if_true]
              exact hrefused hident (loginReason_mem _)
      · simp only [hok, ne_eq, not_false_eq_true, false_and, if_false, if_true]
        exact hrefused hident (loginReason_mem _)

/-- A session logs what its client types. -/
theorem carries_session (hsvc : svc.Proper) (captureCredentials : Bool) (c : Conn) :
    Carries (svc.session peer captureCredentials c) (clientTexts svc captureCredentials c) := by
  have hkeys : [lit "client_ip", lit "client_port", lit "reason"].Nodup := by decide
  have hnote : [lit "client_ip", lit "client_port", lit "note"].Nodup := by decide
  obtain ⟨hlogged, hreason⟩ := carries_login peer hsvc captureCredentials c
  have hfixed := fixed_closeReason hreason
  have hclosed : Carries [svc.event peer "_connection_closed" [.str (lit "reason")
      (Utf8.encodeAll (svc.serve peer captureCredentials (svc.login peer c).2).2)]] [] :=
    hsvc.carries_own peer (by decide) (by decide)
      (fit_str (by decide) (by decide) hfixed.read) hfixed.2.2 hkeys
  have hopened : Carries [svc.event peer "_connection" svc.note] [] := by
    rcases hsvc.note with hnone | ⟨text, htext, hsome⟩
    · rw [hnone]
      exact hsvc.carries_plain peer (by decide) (by decide)
    · rw [hsome]
      exact hsvc.carries_own peer (by decide) (by decide)
        (fit_str (by decide) (by decide) htext.read) htext.2.2 hnote
  have hall := hopened.append (hlogged.append hclosed)
  rw [List.append_nil, List.nil_append] at hall
  exact hall

theorem proper_of_decoy {svc : Service} (h : svc = telnet ∨ svc = sshBanner) : svc.Proper := by
  rcases h with rfl | rfl
  · exact proper_telnet
  · exact proper_sshBanner

/-- The log of a session can be sealed exactly when the texts of the client that the session
takes into it are UTF-8. -/
theorem session_sealable_iff (py : Interp) {svc : Service} (hsvc : svc = telnet ∨ svc = sshBanner)
    (peer : Peer) (captureCredentials : Bool) (c : Conn) {log : List (Instant × Event)}
    (hlog : log.map Prod.snd = svc.session peer captureCredentials c) :
    Sealable py svc.source log ↔ ∀ t ∈ clientTexts svc captureCredentials c, Utf8.IsUtf8 t := by
  have hproper := proper_of_decoy hsvc
  have hcarries := carries_session peer hproper captureCredentials c
  rw [← hlog] at hcarries
  have hfit : ∀ entry ∈ log, entry.2.Fit := fun entry hentry =>
    hcarries.fit _ (List.mem_map_of_mem hentry)
  rw [sealable_of_fit py hproper.source hproper.sourceLength hfit, ← hcarries.legible]
  simp only [List.forall_mem_map]

/-! ## A byte that is no text -/

/-- A client that types one byte as its name. -/
def oneByteName (name : UInt8) : Conn where
  arrivals := [.byte name true, .byte Utf8.lfByte true, .byte Utf8.lfByte true]
  sends _ := true

/-- A log of that client's session. -/
def oneByteLog (name : UInt8) : List (Instant × Event) :=
  (telnet.session ⟨(127, 0, 0, 1), 50000⟩ false (oneByteName name)).map fun e => (Instant.first, e)

theorem session_sealable_iff_oneByte :
    Sealable Interp.reference telnet.source (oneByteLog 0xFF) ↔
      ∀ t ∈ clientTexts telnet false (oneByteName 0xFF), Utf8.IsUtf8 t :=
  session_sealable_iff Interp.reference (.inl rfl) ⟨(127, 0, 0, 1), 50000⟩ false (oneByteName 0xFF)
    (by simp [oneByteLog, Function.comp_def])

/-- A session whose log cannot be sealed. -/
theorem session_unsealable :
    ¬ ∀ (py : Interp) (svc : Service) (_ : svc = telnet ∨ svc = sshBanner) (peer : Peer)
      (captureCredentials : Bool) (c : Conn) (log : List (Instant × Event)),
      log.map Prod.snd = svc.session peer captureCredentials c → Sealable py svc.source log := by
  intro hall
  have hsealable := hall Interp.reference telnet (.inl rfl) ⟨(127, 0, 0, 1), 50000⟩ false
    (oneByteName 0xFF) (oneByteLog 0xFF) (by simp [oneByteLog, Function.comp_def])
  have hcarries := carries_session ⟨(127, 0, 0, 1), 50000⟩ proper_telnet false (oneByteName 0xFF)
  have hfit : ∀ entry ∈ oneByteLog 0xFF, entry.2.Fit := by
    intro entry hentry
    obtain ⟨e, he, rfl⟩ := List.mem_map.mp hentry
    exact hcarries.fit e he
  have hlegible := (sealable_of_fit Interp.reference proper_telnet.source proper_telnet.sourceLength
    hfit).mp hsealable
  have htexts := hcarries.legible.mp fun e he => hlegible _ (List.mem_map_of_mem he)
  exact absurd htexts (by decide)

end IcsDeception.Decoy
