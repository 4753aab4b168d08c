import IcsDeception.Publisher
import IcsDeception.EnvelopeRoundTrip
import IcsDeception.Lib.Json.Shorter

/-!
# Which prepared events can be signed

The sink bounds the length of a JSON text; the signer bounds the types, the depth, the texts
and the canonical size of the value that is read from it. The length takes care of the size,
of the lengths of the texts and of the digits, and of nothing else: a float, a lone surrogate
or a seventeenth level passes the sink and is refused by the signer.
-/

namespace IcsDeception

open Text Json Canonicalizer Models

/-! ## The depth of an event and of a canonical value -/

namespace Canonicalizer

mutual
/-- A value is within the depth of an event exactly if it has a canonical form so many levels
further down. -/
theorem encodable_iff_depth : ∀ (d level : Nat) (v : Value), d ≤ 16 + level →
    (Encodable (16 + level) v ↔ Encodable d v ∧ depth level v ≤ maxEventDepth)
  | d, level, .null, hd => by
      simp only [Encodable, depth, maxDepth, maxEventDepth]
      omega
  | d, level, .bool _, hd => by
      simp only [Encodable, depth, maxDepth, maxEventDepth]
      omega
  | d, level, .int i, hd => by
      simp only [Encodable, depth, maxDepth, maxEventDepth]
      omega
  | _, _, .float _, _ => ⟨fun h => h.elim, fun h => h.1.elim⟩
  | _, _, .other _, _ => ⟨fun h => h.elim, fun h => h.1.elim⟩
  | d, level, .str s, hd => by
      simp only [Encodable, depth, maxDepth, maxEventDepth]
      rw [and_right_comm]
      exact and_congr_left fun _ => by omega
  | d, level, .list xs, hd => by
      have h := encodableItems_iff_depth (d + 1) level xs (by omega)
      simp only [Encodable, depth, maxDepth, maxEventDepth] at h ⊢
      rw [and_assoc, ← h]
      constructor
      · exact fun ⟨hl, hxs⟩ => ⟨by omega, by omega, hxs⟩
      · exact fun ⟨_, hl, hxs⟩ => ⟨by omega, hxs⟩
  | d, level, .tuple xs, hd => by
      have h := encodableItems_iff_depth (d + 1) level xs (by omega)
      simp only [Encodable, depth, maxDepth, maxEventDepth] at h ⊢
      rw [and_assoc, ← h]
      constructor
      · exact fun ⟨hl, hxs⟩ => ⟨by omega, by omega, hxs⟩
      · exact fun ⟨_, hl, hxs⟩ => ⟨by omega, hxs⟩
  | d, level, .dict kvs, hd => by
      have h := encodableMembers_iff_depth (d + 1) level kvs (by omega)
      simp only [Encodable, depth, maxDepth, maxEventDepth] at h ⊢
      rw [and_assoc, ← h]
      constructor
      · exact fun ⟨hl, hxs⟩ => ⟨by omega, by omega, hxs⟩
      · exact fun ⟨_, hl, hxs⟩ => ⟨by omega, hxs⟩
/-- The same for items. -/
theorem encodableItems_iff_depth : ∀ (d level : Nat) (xs : List Value), d ≤ 16 + level + 1 →
    (level ≤ maxEventDepth ∧ EncodableItems (16 + level + 1) xs ↔
      EncodableItems d xs ∧ depthItems level xs ≤ maxEventDepth)
  | _, _, [], _ => and_comm
  | d, level, x :: xs, hd => by
      have hx := encodable_iff_depth d (level + 1) x hd
      have hxs := encodableItems_iff_depth d level xs hd
      rw [EncodableItems, EncodableItems, depthItems, max_le_iff, and_and_and_comm, ← hx, ← hxs,
        and_left_comm]
      rfl
/-- The same for members. -/
theorem encodableMembers_iff_depth : ∀ (d level : Nat) (kvs : List (Key × Value)),
    d ≤ 16 + level + 1 → (level ≤ maxEventDepth ∧ EncodableMembers (16 + level + 1) kvs ↔
      EncodableMembers d kvs ∧ depthMembers level kvs ≤ maxEventDepth)
  | _, _, [], _ => and_comm
  | _, _, (.other _, _) :: _, _ => ⟨fun h => h.2.elim, fun h => h.1.elim⟩
  | d, level, (.str k, v) :: rest, hd => by
      have hv := encodable_iff_depth d (level + 1) v hd
      have hrest := encodableMembers_iff_depth d level rest hd
      rw [EncodableMembers, EncodableMembers, depthMembers, max_le_iff, and_assoc,
        and_and_and_comm, ← hv, ← hrest, and_left_comm]
      exact and_congr_right fun _ => and_left_comm
end

end Canonicalizer

/-- A dictionary whose compact text is short is accepted exactly if it has a canonical form
within the depth of an event. -/
theorem validateEvent_iff_encodable {kvs : List (Key × Value)}
    (hlength : textLength Style.compact 0 (.dict kvs) ≤ 16384) :
    (∃ kws, validateEvent (.dict kvs) = .ok kws) ↔ Encodable 17 (.dict kvs) := by
  rw [encodable_iff_depth 0 1 (.dict kvs) (by omega)]
  constructor
  · rintro ⟨kws, h⟩
    obtain ⟨heq, ⟨b, hb, -⟩, hdepth⟩ := validateEvent_eq_ok.mp h
    obtain rfl := Value.dict.inj heq
    exact ⟨(canonicalBytes_eq_ok.mp hb).1, hdepth⟩
  · rintro ⟨henc, hdepth⟩
    obtain ⟨t, ht⟩ := henc.dump 0 0
    have hbytes := byteLength_le t
    rw [dump_length 0 _ t ht] at hbytes
    refine ⟨kvs, validateEvent_eq_ok.mpr ⟨rfl, ⟨_, canonicalBytes_eq_ok.mpr ⟨henc, t, ht, rfl⟩, ?_⟩,
      hdepth⟩⟩
    rw [maxEventBytes]
    exact hbytes.trans (by omega)

namespace Publisher

/-! ## What a reader keeps of a payload -/

/-- A later member is read under the same key. -/
def ReadAgain (k : Str) (rest : List (Key × Value)) : Prop :=
  ∃ p ∈ rest, ∃ k', p.1 = .str k' ∧ joinSurrogates k' = joinSurrogates k

mutual
/-- What a reader keeps of a written value can be signed, at a level of nesting: there is no
float, no lone surrogate and no level too many. Of members that are read under one key only
the last is kept. -/
def Signable (level : Nat) : Value → Prop
  | .null => level ≤ maxEventDepth
  | .bool _ => level ≤ maxEventDepth
  | .int _ => level ≤ maxEventDepth
  | .float _ => False
  | .str s => level ≤ maxEventDepth ∧ Scalar (joinSurrogates s)
  | .list xs => level ≤ maxEventDepth ∧ SignableItems (level + 1) xs
  | .tuple xs => level ≤ maxEventDepth ∧ SignableItems (level + 1) xs
  | .dict kvs => level ≤ maxEventDepth ∧ SignableMembers (level + 1) kvs
  | .other _ => False
/-- The items of a list. -/
def SignableItems (level : Nat) : List Value → Prop
  | [] => True
  | x :: xs => Signable level x ∧ SignableItems level xs
/-- The members of a dictionary, in written order. -/
def SignableMembers (level : Nat) : List (Key × Value) → Prop
  | [] => True
  | (.other _, _) :: rest => SignableMembers level rest
  | (.str k, v) :: rest =>
      (¬ ReadAgain k rest → Scalar (joinSurrogates k) ∧ Signable level v) ∧
        SignableMembers level rest
end

theorem tight_signedStyle : signedStyle.Tight := ⟨by decide, by decide, rfl⟩

/-- The members as they are read, under repeated keys as well. -/
def readPairs (kvs : List (Key × Value)) : List (Str × Value) :=
  (rereadMembers signedStyle kvs).map fun p => (joinSurrogates p.1, p.2)

theorem reread_dict (kvs : List (Key × Value)) :
    reread signedStyle (.dict kvs) = .ofMembers (dictOfPairs (readPairs kvs)) := rfl

theorem mem_keys_readPairs {k : Str} {kvs : List (Key × Value)} :
    joinSurrogates k ∈ (readPairs kvs).map Prod.fst ↔ ReadAgain k kvs := by
  induction kvs with
  | nil => simp [readPairs, rereadMembers, ReadAgain]
  | cons p rest ih =>
      obtain ⟨key, v⟩ := p
      cases key with
      | other s =>
          have hpairs : readPairs ((.other s, v) :: rest) = readPairs rest := rfl
          rw [hpairs, ih, ReadAgain, ReadAgain, List.exists_mem_cons_iff]
          simp
      | str k' =>
          have hpairs : readPairs ((.str k', v) :: rest) =
              (joinSurrogates k', reread signedStyle v) :: readPairs rest := rfl
          rw [hpairs, List.map_cons, List.mem_cons, ih, ReadAgain, ReadAgain,
            List.exists_mem_cons_iff]
          simp [eq_comm]

theorem textOk_joinSurrogates {s : Str} (h : (quote true s).length ≤ maxStringLength) :
    TextOk (joinSurrogates s) ↔ Scalar (joinSurrogates s) := by
  have hlength := (joinSurrogates_length s).1
  have hquote := length_le_quote true s
  exact ⟨fun ht => ht.2, fun hs => ⟨by omega, hs⟩⟩

theorem level_iff (level : Nat) : level ≤ maxEventDepth ↔ 16 + level ≤ maxDepth := by
  simp only [maxEventDepth, maxDepth]
  omega

mutual
/-- A value whose text is not too long is kept signable exactly if its value read back has a
canonical form within the depth of an event. -/
theorem signable_iff : ∀ (level l : Nat) (v : Value) (t : Str), dump signedStyle l v = .ok t →
    t.length ≤ maxStringLength →
      (Signable level v ↔ Canonicalizer.Encodable (16 + level) (reread signedStyle v))
  | level, _, .null, _, _, _ => level_iff level
  | level, _, .bool _, _, _, _ => level_iff level
  | level, _, .int i, t, h, _ => by
      rw [dump, dumpInt] at h
      split_ifs at h with hd
      have hback : reread signedStyle (.int i) = .int i := rfl
      rw [Signable, hback, Canonicalizer.Encodable, level_iff]
      exact (and_iff_left (Nat.not_lt.mp hd)).symm
  | _, _, .float _, _, _, _ => Iff.rfl
  | _, _, .other _, _, h, _ => by cases h
  | level, _, .str s, t, h, ht => by
      obtain rfl := Except.ok.inj h
      have hback : reread signedStyle (.str s) = .str (joinSurrogates s) := rfl
      rw [Signable, hback, Canonicalizer.Encodable, level_iff, textOk_joinSurrogates ht]
  | level, l, .list xs, t, h, ht => by
      rw [dump] at h
      obtain ⟨ts, hts, h⟩ := bind_eq_ok.mp h
      obtain rfl := Except.ok.inj h
      rw [Signable, reread, Canonicalizer.Encodable, level_iff]
      exact and_congr_right fun _ => signableItems_iff (level + 1) (l + 1) xs ts hts
        fun p hp => (tight_signedStyle.part_le l _ _ hp).trans ht
  | level, l, .tuple xs, t, h, ht => by
      rw [dump] at h
      obtain ⟨ts, hts, h⟩ := bind_eq_ok.mp h
      obtain rfl := Except.ok.inj h
      rw [Signable, reread, Canonicalizer.Encodable, level_iff]
      exact and_congr_right fun _ => signableItems_iff (level + 1) (l + 1) xs ts hts
        fun p hp => (tight_signedStyle.part_le l _ _ hp).trans ht
  | level, l, .dict kvs, t, h, ht => by
      rw [dump] at h
      obtain ⟨ts, hts, h⟩ := bind_eq_ok.mp h
      obtain rfl := Except.ok.inj h
      rw [Signable, reread_dict, Value.ofMembers, Canonicalizer.Encodable, level_iff,
        encodableMembers_ofMembers, forall_dictOfPairs_iff]
      exact and_congr_right fun _ => signableMembers_iff (level + 1) (l + 1) kvs ts hts
        fun p hp => (tight_signedStyle.part_le l _ _ (List.mem_map_of_mem hp)).trans ht
/-- The same for items. -/
theorem signableItems_iff : ∀ (level l : Nat) (xs : List Value) (ts : List Str),
    dumpItems signedStyle l xs = .ok ts → (∀ t ∈ ts, t.length ≤ maxStringLength) →
      (SignableItems level xs ↔ EncodableItems (16 + level) (rereadItems signedStyle xs))
  | _, _, [], _, _, _ => Iff.rfl
  | level, l, x :: xs, _, h, ht => by
      rw [dumpItems] at h
      obtain ⟨t, hx, h⟩ := bind_eq_ok.mp h
      obtain ⟨ts, hxs, h⟩ := bind_eq_ok.mp h
      obtain rfl := Except.ok.inj h
      obtain ⟨htx, htxs⟩ := List.forall_mem_cons.mp ht
      rw [SignableItems, rereadItems, EncodableItems, signable_iff level l x t hx htx,
        signableItems_iff level l xs ts hxs htxs]
/-- The same for members, of which those are kept whose keys do not come again. -/
theorem signableMembers_iff : ∀ (level l : Nat) (kvs : List (Key × Value))
    (ts : List (Str × Str)), dumpMembers signedStyle l kvs = .ok ts →
      (∀ p ∈ ts, (signedStyle.member p).length ≤ maxStringLength) →
        (SignableMembers level kvs ↔
          Lasting (fun p => TextOk p.1 ∧ Canonicalizer.Encodable (16 + level) p.2) (readPairs kvs))
  | _, _, [], _, _, _ => Iff.rfl
  | _, _, (.other _, _) :: _, _, h, _ => by cases h
  | level, l, (.str k, v) :: rest, _, h, ht => by
      rw [dumpMembers] at h
      obtain ⟨t, hv, h⟩ := bind_eq_ok.mp h
      obtain ⟨ts, hrest, h⟩ := bind_eq_ok.mp h
      obtain rfl := Except.ok.inj h
      obtain ⟨htv, htrest⟩ := List.forall_mem_cons.mp ht
      simp only [Style.member, List.length_append] at htv
      have hpairs : readPairs ((.str k, v) :: rest) =
          (joinSurrogates k, reread signedStyle v) :: readPairs rest := rfl
      have hquote : (quote true k).length ≤ maxStringLength := by
        have : (quote signedStyle.ascii k).length ≤ maxStringLength := by omega
        exact this
      rw [SignableMembers, hpairs, Lasting, mem_keys_readPairs, textOk_joinSurrogates hquote,
        signable_iff level l v t hv (by omega), signableMembers_iff level l rest ts hrest htrest]
end

/-! ## The value that is written -/

theorem snd_of_rendered {ms : List (DetailKey × Value)} {ts : List (Str × Value)}
    (h : rendered ms = .ok ts) : ts.map Prod.snd = ms.map Prod.snd := by
  induction ms generalizing ts with
  | nil =>
      obtain rfl := Except.ok.inj h
      rfl
  | cons p rest ih =>
      rw [rendered, List.mapM_cons] at h
      obtain ⟨q, hq, h⟩ := bind_eq_ok.mp h
      obtain ⟨us, hus, h⟩ := bind_eq_ok.mp h
      obtain ⟨k, -, hq⟩ := bind_eq_ok.mp hq
      obtain rfl := Except.ok.inj hq
      obtain rfl := Except.ok.inj h
      rw [List.map_cons, List.map_cons, ih hus]

theorem snd_of_mapM {κ : Type} {f : DetailKey → Option κ} {ms : List (DetailKey × Value)}
    {ts : List (κ × Value)} (h : (ms.mapM fun p => (f p.1).map (·, p.2)) = some ts) :
    ts.map Prod.snd = ms.map Prod.snd := by
  induction ms generalizing ts with
  | nil =>
      obtain rfl := Option.some.inj h
      rfl
  | cons p rest ih =>
      rw [List.mapM_cons] at h
      obtain ⟨q, hq, h⟩ := Option.bind_eq_some_iff.mp h
      obtain ⟨us, hus, h⟩ := Option.bind_eq_some_iff.mp h
      obtain ⟨k, -, rfl⟩ := Option.map_eq_some_iff.mp hq
      obtain rfl := Option.some.inj h
      rw [List.map_cons, List.map_cons, ih hus]

/-- Sorting the members neither makes nor loses a value. -/
theorem perm_of_sortedItems {numberLe : Number → Number → Bool} {ms : List (DetailKey × Value)}
    {ts : List (Str × Value)} (h : sortedItems numberLe ms = .ok ts) :
    (ts.map Prod.snd).Perm (ms.map Prod.snd) := by
  unfold sortedItems at h
  cases htexts : ms.mapM fun p => p.1.text?.map (·, p.2) with
  | some texts =>
      rw [htexts] at h
      obtain rfl := Except.ok.inj h
      rw [← snd_of_mapM htexts]
      exact (List.perm_insertionSort _ texts).map _
  | none =>
      rw [htexts] at h
      dsimp only at h
      cases hnumbers : ms.mapM fun p => p.1.number?.map (·, p.2) with
      | some numbers =>
          rw [hnumbers] at h
          rw [snd_of_rendered h, List.map_map, ← snd_of_mapM hnumbers]
          exact (List.perm_insertionSort _ numbers).map _
      | none =>
          rw [hnumbers] at h
          dsimp only at h
          split_ifs at h
          rw [snd_of_rendered h]

section

variable {items : List (DetailKey × Value) → Except Exn (List (Str × Value))}

mutual
/-- Every float that is written is the `repr` of one. -/
theorem Datum.legible (hitems : ∀ ms ts, items ms = .ok ts →
    (ts.map Prod.snd).Perm (ms.map Prod.snd)) : ∀ (x : Datum) (v : Value), x.value items = .ok v →
      Legible v
  | .none, _, h => by
      obtain rfl := Except.ok.inj h
      trivial
  | .bool _, _, h => by
      obtain rfl := Except.ok.inj h
      trivial
  | .int _, _, h => by
      obtain rfl := Except.ok.inj h
      trivial
  | .float l, _, h => by
      obtain rfl := Except.ok.inj h
      exact l.property
  | .str _, _, h => by
      obtain rfl := Except.ok.inj h
      trivial
  | .list xs, _, h => by
      rw [Datum.value] at h
      obtain ⟨vs, hvs, h⟩ := bind_eq_ok.mp h
      obtain rfl := Except.ok.inj h
      exact legibleItems_iff.mpr (Datum.legible_items hitems xs vs hvs)
  | .dict kvs, _, h => by
      rw [Datum.value] at h
      obtain ⟨ms, hms, h⟩ := bind_eq_ok.mp h
      obtain ⟨ts, hts, h⟩ := bind_eq_ok.mp h
      obtain rfl := Except.ok.inj h
      have hlegible := Datum.legible_members hitems kvs ms hms
      apply legibleMembers_iff.mpr
      intro q hq
      obtain ⟨p, hp, rfl⟩ := List.mem_map.mp hq
      exact hlegible p.2 ((hitems ms ts hts).subset (List.mem_map_of_mem hp))
/-- The same for items. -/
theorem Datum.legible_items (hitems : ∀ ms ts, items ms = .ok ts →
    (ts.map Prod.snd).Perm (ms.map Prod.snd)) : ∀ (xs : List Datum) (vs : List Value),
      Datum.valueItems items xs = .ok vs → ∀ v ∈ vs, Legible v
  | [], _, h => by
      obtain rfl := Except.ok.inj h
      exact fun v hv => absurd hv List.not_mem_nil
  | x :: xs, _, h => by
      rw [Datum.valueItems] at h
      obtain ⟨v, hv, h⟩ := bind_eq_ok.mp h
      obtain ⟨vs, hvs, h⟩ := bind_eq_ok.mp h
      obtain rfl := Except.ok.inj h
      exact List.forall_mem_cons.mpr
        ⟨Datum.legible hitems x v hv, Datum.legible_items hitems xs vs hvs⟩
/-- The same for the values of members. -/
theorem Datum.legible_members (hitems : ∀ ms ts, items ms = .ok ts →
    (ts.map Prod.snd).Perm (ms.map Prod.snd)) : ∀ (kvs : List (DetailKey × Datum))
      (ms : List (DetailKey × Value)), Datum.valueMembers items kvs = .ok ms →
        ∀ v ∈ ms.map Prod.snd, Legible v
  | [], _, h => by
      obtain rfl := Except.ok.inj h
      exact fun v hv => absurd hv List.not_mem_nil
  | (_, x) :: rest, _, h => by
      rw [Datum.valueMembers] at h
      obtain ⟨v, hv, h⟩ := bind_eq_ok.mp h
      obtain ⟨ms, hms, h⟩ := bind_eq_ok.mp h
      obtain rfl := Except.ok.inj h
      exact List.forall_mem_cons.mpr
        ⟨Datum.legible hitems x v hv, Datum.legible_members hitems rest ms hms⟩
end

end

theorem printed_signedStyle : signedStyle.Printed where
  valid := ⟨⟨[], rfl, fun c hc => by cases hc⟩, ⟨[], rfl, fun c hc => by cases hc⟩⟩
  ascii := rfl
  within :=
    { printable := fun _ h => .inl h
      item := fun c hc => .inl (printable_of_all (by decide) c hc)
      key := fun c hc => .inl (printable_of_all (by decide) c hc)
      newline := fun _ c hc => by cases hc }

/-- The payload of an event is written as a dictionary, and its text is read as one. -/
theorem payload_value {numberLe : Number → Number → Bool} {e : Event} {v : Value}
    (h : e.payload.value (sortedItems numberLe) = .ok v) :
    Legible v ∧ ∃ kvs, reread signedStyle v = .dict kvs := by
  refine ⟨Datum.legible (fun _ _ => perm_of_sortedItems) _ _ h, ?_⟩
  rw [Event.payload, Datum.value] at h
  obtain ⟨ms, -, h⟩ := bind_eq_ok.mp h
  obtain ⟨ts, -, h⟩ := bind_eq_ok.mp h
  obtain rfl := Except.ok.inj h
  exact ⟨_, rfl⟩

/-! ## The digest that stands for a large payload -/

/-- The digest of an event with a text of a length is within the bounds of the signer. -/
structure DigestFits (e : Event) (length : Nat) : Prop where
  source : Scalar e.source
  eventType : Scalar e.eventType
  digits : (Decimal.natText length).length ≤ maxDigits
  size : byteLength (quote false e.source) + byteLength (quote false e.eventType) +
    (Decimal.natText length).length + 153 ≤ maxEventBytes

theorem byteLength_quote_digest {s : Str} (h : IsDigest s) : byteLength (quote false s) = 66 := by
  have hone : ∀ n < 16, byteLength (escapeOne false (hexChar n)) = 1 := by decide
  have hquote := byteLength_quote_eq (s := s) fun c hc => by
    have hhex := h.2 c hc
    simp only [isHexDigit, Bool.or_eq_true, Bool.and_eq_true, decide_eq_true_eq] at hhex
    obtain ⟨n, hn, rfl⟩ : ∃ n < 16, c = hexChar n := by
      rcases hhex with hhex | hhex
      · refine ⟨c.val - 0x30, by omega, ?_⟩
        rw [hexChar, if_pos (by omega)]
        exact (Utf8.ofCode_eq (by omega)).symm
      · refine ⟨c.val - 0x57, by omega, ?_⟩
        rw [hexChar, if_neg (by omega)]
        exact (Utf8.ofCode_eq (by omega)).symm
    exact hone n hn
  rw [hquote, h.1]

theorem intText_natCast (n : Nat) : Decimal.intText n = Decimal.natText n := by
  rw [Decimal.intText, if_neg (by omega), Int.natAbs_natCast]

theorem textOk_of_byteLength {s : Str} (hs : Scalar s)
    (h : byteLength (quote false s) ≤ maxEventBytes) : TextOk s := by
  have hquote := length_le_quote false s
  have hbytes := Utf8.length_le_encodeAll (quote false s)
  simp only [byteLength, maxEventBytes] at h
  refine ⟨?_, hs⟩
  rw [maxStringLength]
  omega

/-- What the digest takes in canonical form. -/
theorem byteLength_digest {py : Interp} {e : Event} {encoded : Str} {bytes : Bytes} {t : Str}
    (h : dump Style.compact 0 (.ofMembers (e.digest py encoded bytes)) = .ok t) :
    byteLength t = byteLength (quote false e.source) + byteLength (quote false e.eventType) +
      (Decimal.natText encoded.length).length + 153 := by
  have hnumber : byteLength (Decimal.intText encoded.length) =
      (Decimal.natText encoded.length).length := by
    rw [byteLength_printable fun c hc => printable_of_mem_intText hc, intText_natCast]
  have hdigest := byteLength_quote_digest (py.sha3_256_digest bytes)
  rw [Value.ofMembers, dump] at h
  obtain ⟨ts, hts, h⟩ := bind_eq_ok.mp h
  obtain rfl := Except.ok.inj h
  have hlit : ts = [(lit "source", quote false e.source),
      (lit "event_type", quote false e.eventType), (lit "payload_truncated", lit "true"),
      (lit "payload_bytes", Decimal.intText encoded.length),
      (lit "payload_sha3_256", quote false (py.sha3_256 bytes))] := by
    by_cases hd : maxDigits < (Decimal.natText encoded.length).length
    · simp [Event.digest, dumpMembers, Json.dump, dumpInt, hd, bind, Except.bind] at hts
    · simp only [Event.digest, dumpMembers, Json.dump, dumpInt, Int.natAbs_natCast, hd, bind,
        Except.bind, pure, Except.pure, List.map_cons, List.map_nil, if_false, if_true] at hts
      exact (Except.ok.inj hts).symm
  have hne : (Style.compact.order ts).map Style.compact.member ≠ [] := by
    rw [ne_eq, List.map_eq_nil_iff]
    intro hnil
    have hperm := (Style.compact.order_perm ts).length_eq
    rw [hnil, hlit] at hperm
    cases hperm
  rw [byteLength_bracket_eq 0 hne, partsLength_perm ((Style.compact.order_perm ts).map _), hlit]
  have hmember : ∀ k t : Str, byteLength (Style.compact.member (k, t)) =
      byteLength (quote false k) + 1 + byteLength t := by
    intro k t
    rw [Style.member, byteLength_append, byteLength_append]
    rfl
  have h₁ : byteLength (quote false (lit "source")) = 8 := by decide
  have h₂ : byteLength (quote false (lit "event_type")) = 12 := by decide
  have h₃ : byteLength (quote false (lit "payload_truncated")) = 19 := by decide
  have h₄ : byteLength (quote false (lit "payload_bytes")) = 15 := by decide
  have h₅ : byteLength (quote false (lit "payload_sha3_256")) = 18 := by decide
  have htrue : byteLength (lit "true") = 4 := by decide
  simp only [partsLength, List.map_cons, List.map_nil, List.sum_cons, List.sum_nil, hmember, h₁, h₂,
    h₃, h₄, h₅, htrue, hnumber, hdigest]
  omega

/-- The digest is accepted exactly if it fits. -/
theorem validateEvent_digest {py : Interp} {e : Event} {encoded : Str} {bytes : Bytes} :
    (∃ kws, validateEvent (.ofMembers (e.digest py encoded bytes)) = .ok kws) ↔
      DigestFits e encoded.length := by
  have hd : 0 ≤ maxDepth := by decide
  have hd' : 1 ≤ maxDepth := by decide
  constructor
  · rintro ⟨kws, h⟩
    obtain ⟨heq, ⟨b, hb, hsize⟩, -⟩ := validateEvent_eq_ok.mp h
    rw [← heq] at hb
    obtain ⟨henc, t, ht, rfl⟩ := canonicalBytes_eq_ok.mp hb
    have hbytes := byteLength_digest ht
    have hmembers := (encodableMembers_ofMembers.mp henc.2)
    have hsource := hmembers _ (List.mem_cons_self)
    have htype := hmembers _ (List.mem_cons_of_mem _ List.mem_cons_self)
    have hnumber := hmembers (lit "payload_bytes", .int encoded.length) (by simp [Event.digest])
    exact
      { source := hsource.2.2.2
        eventType := htype.2.2.2
        digits := hnumber.2.2
        size := hbytes ▸ hsize }
  · intro hfits
    have hsize := hfits.size
    have hshort := EnvelopeRoundTrip.shortText_hash (EnvelopeRoundTrip.validateHash_of_isDigest (py.sha3_256_digest bytes))
    have hdigest : TextOk (py.sha3_256 bytes) := ⟨hshort.1.trans (by decide), hshort.2⟩
    have hname : ∀ name ∈ [lit "source", lit "event_type", lit "payload_truncated",
        lit "payload_bytes", lit "payload_sha3_256"], TextOk name := by
      unfold TextOk
      decide
    have henc : Canonicalizer.Encodable 0 (.ofMembers (e.digest py encoded bytes)) := by
      refine ⟨hd, encodableMembers_ofMembers.mpr ?_⟩
      simp only [List.forall_mem_cons, List.not_mem_nil, false_imp_iff, implies_true] at hname
      obtain ⟨h₁, h₂, h₃, h₄, h₅, -⟩ := hname
      simp only [Event.digest, List.forall_mem_cons]
      exact ⟨⟨h₁, hd', textOk_of_byteLength hfits.source (by omega)⟩,
        ⟨h₂, hd', textOk_of_byteLength hfits.eventType (by omega)⟩, ⟨h₃, hd'⟩,
        ⟨h₄, hd', hfits.digits⟩, ⟨h₅, hd', hdigest⟩, fun p hp => absurd hp List.not_mem_nil⟩
    obtain ⟨t, ht⟩ := henc.dump 0 0
    refine ⟨_, validateEvent_eq_ok.mpr ⟨rfl, ⟨_, canonicalBytes_eq_ok.mpr ⟨henc, t, ht, rfl⟩, ?_⟩, ?_⟩⟩
    · exact (byteLength_digest ht).trans_le hsize
    · have hdepth : 2 ≤ maxEventDepth := by decide
      exact hdepth

/-! ## When everything that is prepared can be signed -/

/-- A payload that the sink can write is signable in what is read back from it, or, where it
is large, its digest fits. -/
def Event.CanBeSigned (py : Interp) (numberLe : Number → Number → Bool) (e : Event) : Prop :=
  ∀ payload, e.payload.value (sortedItems numberLe) = .ok payload →
    (dumps py signedStyle payload).isOk = true →
      if textLength signedStyle 0 payload ≤ maxSignedEventBytes then
        payload.nest ≤ py.jsonLimit → Signable 1 payload
      else DigestFits e (textLength signedStyle 0 payload)

theorem dumps_eq_ok {py : Interp} {st : Style} {v : Value} {t : Str} :
    dumps py st v = .ok t ↔ v.nest ≤ py.dumpLimit ∧ dump st 0 v = .ok t := by
  unfold dumps
  split_ifs with hn
  · simp [Nat.not_le.mpr hn]
  · cases hd : dump st 0 v with
    | ok text => simp [Nat.not_lt.mp hn]
    | error e => cases e <;> simp

/-- What the sink makes of a payload that it wrote. -/
theorem boundEvent_of_dumps {py : Interp} {numberLe : Number → Number → Bool} {e : Event}
    {payload : Value} (hvalue : e.payload.value (sortedItems numberLe) = .ok payload)
    {encoded : Str} (hdumps : dumps py signedStyle payload = .ok encoded) {v : Value} :
    boundEvent py numberLe e = .ok v ↔
      if encoded.length ≤ maxSignedEventBytes then loads py.jsonLimit encoded = .ok v
      else v = .ofMembers (e.digest py encoded (Utf8.encodeAll encoded)) := by
  have hprinted : ∀ c ∈ encoded, PrintableLine c := by
    obtain ⟨-, hdump⟩ := dumps_eq_ok.mp hdumps
    obtain ⟨t, ht, -, hprinted⟩ :=
      readsAs_reread printed_signedStyle 0 payload encoded (payload_value hvalue).1 hdump
    obtain rfl := Except.ok.inj (hdump.symm.trans ht)
    exact hprinted
  have hencode := Utf8.encode_of_scalar (printableLine_scalar hprinted)
  simp only [boundEvent, hvalue, hdumps, hencode, bind, Except.bind]
  split_ifs with hlength
  · cases hload : loads py.jsonLimit encoded with
    | ok w => simp
    | error x => cases x <;> simp
  · rw [Except.ok.injEq]
    exact eq_comm

/-- Of the events that a publisher builds, exactly those are always accepted by the signer, as
the sink prepares them, that can be signed. -/
theorem boundEvent_validates_iff (py : Interp) (numberLe : Number → Number → Bool)
    (callLimit : Nat) (source eventType : Str) (details : Dict Str Detail) (timestamp : Str) :
    (∀ e, build callLimit source eventType details timestamp = .ok e →
      ∀ v, boundEvent py numberLe e = .ok v → ∃ kws, validateEvent v = .ok kws) ↔
      ∀ e, build callLimit source eventType details timestamp = .ok e →
        e.CanBeSigned py numberLe := by
  refine forall₂_congr fun e _ => ?_
  cases hvalue : e.payload.value (sortedItems numberLe) with
  | error x =>
      have hraise : boundEvent py numberLe e = .error x := by
        rw [boundEvent, hvalue]
        rfl
      simp [Event.CanBeSigned, hraise, hvalue]
  | ok payload =>
      cases hdumps : dumps py signedStyle payload with
      | error x =>
          have hraise : boundEvent py numberLe e = .error x := by
            simp only [boundEvent, hvalue, hdumps, bind, Except.bind]
          simp [Event.CanBeSigned, hraise, hvalue, hdumps, Except.isOk, Except.toBool]
      | ok encoded =>
          obtain ⟨hlegible, kvs, hdict⟩ := payload_value hvalue
          obtain ⟨-, hdump⟩ := dumps_eq_ok.mp hdumps
          have hlength := dump_length 0 payload encoded hdump
          have hcan : e.CanBeSigned py numberLe ↔
              if textLength signedStyle 0 payload ≤ maxSignedEventBytes then
                payload.nest ≤ py.jsonLimit → Signable 1 payload
              else DigestFits e (textLength signedStyle 0 payload) := by
            constructor
            · exact fun h => h payload hvalue (by rw [hdumps]; rfl)
            · rintro h _ hother -
              obtain rfl := Except.ok.inj (hvalue.symm.trans hother)
              exact h
          simp only [boundEvent_of_dumps hvalue hdumps, hcan, ← hlength]
          split_ifs with hshort
          · have hcompact : textLength Style.compact 0 (.dict kvs) ≤ 16384 := by
              have hle := textLength_reread_le tight_signedStyle rfl 0 0 payload
              rw [hdict, ← hlength] at hle
              exact hle.trans hshort
            have hmax : encoded.length ≤ maxStringLength := hshort.trans (by decide)
            rw [signable_iff 1 0 payload encoded hdump hmax, hdict,
              ← validateEvent_iff_encodable hcompact]
            simp only [loads_dump printed_signedStyle hlegible hdump, hdict]
            constructor
            · exact fun h hn => h _ ⟨hn, rfl⟩
            · rintro h v ⟨hn, rfl⟩
              exact h hn
          · rw [forall_eq, validateEvent_digest]

theorem scanNumber_interval : scanNumber (lit "10.0") = .ok (.float (lit "10.0"), []) := by rfl

/-- The details with which the fake PLC announces its start. -/
def startupDetails : Dict Str Detail :=
  [(lit "target_host", .str (lit "127.0.0.1")), (lit "target_port", .int 5020),
   (lit "interval", .float ⟨lit "10.0", floatText_of_scanNumber scanNumber_interval⟩),
   (lit "state_file", .str (lit "plc_state.json"))]

theorem startup_is_refused :
    ((build 100 (lit "fake_plc") (lit "fake_plc_startup") startupDetails []).toOption.bind fun e =>
      (boundEvent .reference (fun _ _ => true) e).toOption).any
        (fun v => !(validateEvent v).isOk) = true := by
  decide +kernel

theorem ok_of_toOption {ε α : Type} {r : Except ε α} {a : α} (h : r.toOption = some a) :
    r = .ok a := by
  cases r with
  | error e => cases h
  | ok b => rw [Option.some.inj h]

/-- The event of the fake PLC's start is prepared, and the signer refuses what is prepared. -/
theorem startup_event_is_not_signed :
    ¬ ∀ e, build 100 (lit "fake_plc") (lit "fake_plc_startup") startupDetails [] = .ok e →
      ∀ v, boundEvent .reference (fun _ _ => true) e = .ok v →
        ∃ kws, validateEvent v = .ok kws := by
  intro h
  obtain ⟨v, hv, hrefused⟩ := (Option.any_eq_true _ _).mp startup_is_refused
  obtain ⟨e, he, hv⟩ := Option.bind_eq_some_iff.mp hv
  obtain ⟨kws, hkws⟩ := h e (ok_of_toOption he) v (ok_of_toOption hv)
  rw [hkws] at hrefused
  cases hrefused

end Publisher

end IcsDeception
