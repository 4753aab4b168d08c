import IcsDeception.Environment
import IcsDeception.Lib.Json.Extent

/-!
# Canonical JSON

The check of a value, its canonical text and bytes, and the normal form of a
timestamp.
-/

namespace IcsDeception

open Text Calendar Json

namespace Canonicalizer

/-- `MAX_DEPTH`. -/
def maxDepth : Nat := 32

/-- `MAX_STRING_LENGTH`. -/
def maxStringLength : Nat := 1000000

/-- `_check_string`. -/
def checkString (s : Str) : Except Exn Unit :=
  if maxStringLength < s.length then .error .canonicalization
  else if s.any isSurrogate then .error .canonicalization
  else .ok ()

mutual
/-- `_check`. -/
def check (depth : Nat) (v : Value) : Except Exn Unit :=
  if maxDepth < depth then .error .canonicalization
  else
    match v with
    | .null => .ok ()
    | .bool _ => .ok ()
    | .int _ => .ok ()
    | .float _ => .error .canonicalization
    | .str s => checkString s
    | .dict kvs => checkMembers (depth + 1) kvs
    | .list xs => checkItems (depth + 1) xs
    | .tuple xs => checkItems (depth + 1) xs
    | .other _ => .error .canonicalization
/-- The loop of `_check` over the members of a dictionary. -/
def checkMembers (depth : Nat) : List (Key × Value) → Except Exn Unit
  | [] => .ok ()
  | (.other _, _) :: _ => .error .canonicalization
  | (.str k, v) :: rest => do
      checkString k
      check depth v
      checkMembers depth rest
/-- The loop of `_check` over the items of a list or tuple. -/
def checkItems (depth : Nat) : List Value → Except Exn Unit
  | [] => .ok ()
  | v :: rest => do
      check depth v
      checkItems depth rest
end

/-- `check_canonicalizable`. -/
def checkCanonicalizable (v : Value) : Except Exn Unit := check 0 v

/-- `canonical_string`. -/
def canonicalString (v : Value) : Except Exn Str := do
  checkCanonicalizable v
  match dump Style.compact 0 v with
  | .error _ => .error .canonicalization
  | .ok text => .ok text

/-- `canonical_bytes`. -/
def canonicalBytes (v : Value) : Except Exn Bytes := do
  let text ← canonicalString v
  match Utf8.encode text with
  | none => .error .canonicalization
  | some b => .ok b

/-! ## The values that have a canonical form -/

/-- A text that `_check_string` accepts. -/
def TextOk (s : Str) : Prop := s.length ≤ maxStringLength ∧ Scalar s

mutual
/-- The values with a canonical form, at a depth. -/
def Encodable (depth : Nat) : Value → Prop
  | .null => depth ≤ maxDepth
  | .bool _ => depth ≤ maxDepth
  | .int i => depth ≤ maxDepth ∧ (Decimal.natText i.natAbs).length ≤ maxDigits
  | .float _ => False
  | .str s => depth ≤ maxDepth ∧ TextOk s
  | .dict kvs => depth ≤ maxDepth ∧ EncodableMembers (depth + 1) kvs
  | .list xs => depth ≤ maxDepth ∧ EncodableItems (depth + 1) xs
  | .tuple xs => depth ≤ maxDepth ∧ EncodableItems (depth + 1) xs
  | .other _ => False
/-- Members with a canonical form. -/
def EncodableMembers (depth : Nat) : List (Key × Value) → Prop
  | [] => True
  | (.other _, _) :: _ => False
  | (.str k, v) :: rest => TextOk k ∧ Encodable depth v ∧ EncodableMembers depth rest
/-- Items with a canonical form. -/
def EncodableItems (depth : Nat) : List Value → Prop
  | [] => True
  | v :: rest => Encodable depth v ∧ EncodableItems depth rest
end

theorem checkString_eq_ok {s : Str} : checkString s = .ok () ↔ TextOk s := by
  unfold checkString TextOk Scalar
  have hany : s.any isSurrogate = true ↔ ∃ c ∈ s, isSurrogate c = true := List.any_eq_true
  split_ifs with h₁ h₂
  · simp [h₁]
  · obtain ⟨c, hc, hs⟩ := hany.mp h₂
    simp only [false_iff, not_and]
    intro _ hall
    rw [hall c hc] at hs
    cases hs
  · simp only [true_iff]
    refine ⟨by omega, fun c hc => ?_⟩
    by_contra hs
    exact h₂ (hany.mpr ⟨c, hc, by simpa using hs⟩)

mutual
/-- What the check and the writer both accept has a canonical form. -/
theorem encodable_of_check : ∀ (d l : Nat) (v : Value) (t : Str), check d v = .ok () →
    dump Style.compact l v = .ok t → Encodable d v
  | d, l, v, t, hc, ht => by
      rw [check.eq_def] at hc
      split_ifs at hc with hd
      have hd : d ≤ maxDepth := by omega
      cases v with
      | null => exact hd
      | bool b => exact hd
      | int i =>
          refine ⟨hd, ?_⟩
          simp only [dump, dumpInt] at ht
          split_ifs at ht with hlen
          omega
      | float f => simp at hc
      | other n => simp at hc
      | str s => exact ⟨hd, checkString_eq_ok.mp hc⟩
      | list xs =>
          rw [dump] at ht
          obtain ⟨ts, hts, -⟩ := bind_eq_ok.mp ht
          exact ⟨hd, encodableItems_of_check _ _ xs ts hc hts⟩
      | tuple xs =>
          rw [dump] at ht
          obtain ⟨ts, hts, -⟩ := bind_eq_ok.mp ht
          exact ⟨hd, encodableItems_of_check _ _ xs ts hc hts⟩
      | dict kvs =>
          rw [dump] at ht
          obtain ⟨ts, hts, -⟩ := bind_eq_ok.mp ht
          exact ⟨hd, encodableMembers_of_check _ _ kvs ts hc hts⟩
/-- The same for members. -/
theorem encodableMembers_of_check : ∀ (d l : Nat) (kvs : List (Key × Value))
    (ts : List (Str × Str)), checkMembers d kvs = .ok () →
    dumpMembers Style.compact l kvs = .ok ts → EncodableMembers d kvs
  | _, _, [], _, _, _ => trivial
  | _, _, (.other _, _) :: _, _, hc, _ => by simp [checkMembers] at hc
  | d, l, (.str k, v) :: rest, ts, hc, ht => by
      rw [checkMembers] at hc
      obtain ⟨⟨⟩, hk, hc⟩ := bind_eq_ok.mp hc
      obtain ⟨⟨⟩, hv, hc⟩ := bind_eq_ok.mp hc
      rw [dumpMembers] at ht
      obtain ⟨t, hdump, ht⟩ := bind_eq_ok.mp ht
      obtain ⟨us, hus, -⟩ := bind_eq_ok.mp ht
      exact ⟨checkString_eq_ok.mp hk, encodable_of_check d l v t hv hdump,
        encodableMembers_of_check d l rest us hc hus⟩
/-- The same for items. -/
theorem encodableItems_of_check : ∀ (d l : Nat) (xs : List Value) (ts : List Str),
    checkItems d xs = .ok () → dumpItems Style.compact l xs = .ok ts → EncodableItems d xs
  | _, _, [], _, _, _ => trivial
  | d, l, v :: rest, ts, hc, ht => by
      rw [checkItems] at hc
      obtain ⟨⟨⟩, hv, hc⟩ := bind_eq_ok.mp hc
      rw [dumpItems] at ht
      obtain ⟨t, hdump, ht⟩ := bind_eq_ok.mp ht
      obtain ⟨us, hus, -⟩ := bind_eq_ok.mp ht
      exact ⟨encodable_of_check d l v t hv hdump, encodableItems_of_check d l rest us hc hus⟩
end

mutual
/-- A value with a canonical form passes the check. -/
theorem Encodable.check : ∀ (d : Nat) (v : Value), Encodable d v →
    Canonicalizer.check d v = .ok ()
  | d, v, h => by
      rw [Canonicalizer.check.eq_def]
      cases v with
      | null => exact if_neg (Nat.not_lt.mpr h)
      | bool b => exact if_neg (Nat.not_lt.mpr h)
      | int i => exact if_neg (Nat.not_lt.mpr h.1)
      | float f => exact h.elim
      | other n => exact h.elim
      | str s => exact (if_neg (Nat.not_lt.mpr h.1)).trans (checkString_eq_ok.mpr h.2)
      | list xs =>
          exact (if_neg (Nat.not_lt.mpr h.1)).trans (EncodableItems.check _ xs h.2)
      | tuple xs =>
          exact (if_neg (Nat.not_lt.mpr h.1)).trans (EncodableItems.check _ xs h.2)
      | dict kvs =>
          exact (if_neg (Nat.not_lt.mpr h.1)).trans (EncodableMembers.check _ kvs h.2)
/-- The same for members. -/
theorem EncodableMembers.check : ∀ (d : Nat) (kvs : List (Key × Value)), EncodableMembers d kvs →
    checkMembers d kvs = .ok ()
  | _, [], _ => rfl
  | _, (.other _, _) :: _, h => h.elim
  | d, (.str k, v) :: rest, h => by
      rw [checkMembers, checkString_eq_ok.mpr h.1]
      simp only [bind, Except.bind, Encodable.check d v h.2.1, EncodableMembers.check d rest h.2.2]
/-- The same for items. -/
theorem EncodableItems.check : ∀ (d : Nat) (xs : List Value), EncodableItems d xs →
    checkItems d xs = .ok ()
  | _, [], _ => rfl
  | d, v :: rest, h => by
      rw [checkItems]
      simp only [bind, Except.bind, Encodable.check d v h.1, EncodableItems.check d rest h.2]
end

mutual
/-- The texts of a value with a canonical form have an encoding. -/
theorem Encodable.texts : ∀ (d : Nat) (v : Value), Encodable d v → AllTexts Scalar v
  | _, .null, _ => trivial
  | _, .bool _, _ => trivial
  | _, .int _, _ => trivial
  | _, .float _, h => h.elim
  | _, .other _, h => h.elim
  | _, .str _, h => h.2.2
  | _, .list xs, h => EncodableItems.texts _ xs h.2
  | _, .tuple xs, h => EncodableItems.texts _ xs h.2
  | _, .dict kvs, h => EncodableMembers.texts _ kvs h.2
/-- The same for members. -/
theorem EncodableMembers.texts : ∀ (d : Nat) (kvs : List (Key × Value)), EncodableMembers d kvs →
    AllTextsMembers Scalar kvs
  | _, [], _ => trivial
  | _, (.other _, _) :: _, h => h.elim
  | d, (.str _, v) :: rest, h =>
      ⟨h.1.2, Encodable.texts d v h.2.1, EncodableMembers.texts d rest h.2.2⟩
/-- The same for items. -/
theorem EncodableItems.texts : ∀ (d : Nat) (xs : List Value), EncodableItems d xs →
    AllTextsItems Scalar xs
  | _, [], _ => trivial
  | d, v :: rest, h => ⟨Encodable.texts d v h.1, EncodableItems.texts d rest h.2⟩
end

mutual
/-- A value with a canonical form and distinct keys is written so that it is read back. -/
theorem Encodable.writable : ∀ (d : Nat) (v : Value), Encodable d v → v.Distinct →
    Writable Style.compact v
  | _, .null, _, _ => trivial
  | _, .bool _, _, _ => trivial
  | _, .int _, h, _ => h.2
  | _, .float _, h, _ => h.elim
  | _, .other _, h, _ => h.elim
  | _, .str _, _, _ => trivial
  | _, .list xs, h, hd => EncodableItems.writable _ xs h.2 hd
  | _, .tuple xs, h, hd => EncodableItems.writable _ xs h.2 hd
  | _, .dict kvs, h, hd => ⟨hd.1, EncodableMembers.writable _ kvs h.2 hd.2⟩
/-- The same for members. -/
theorem EncodableMembers.writable : ∀ (d : Nat) (kvs : List (Key × Value)),
    EncodableMembers d kvs → Value.DistinctMembers kvs → WritableMembers Style.compact kvs
  | _, [], _, _ => trivial
  | _, (.other _, _) :: _, h, _ => h.elim
  | d, (.str _, v) :: rest, h, hd =>
      ⟨fun hf => absurd hf (by decide), Encodable.writable d v h.2.1 hd.1,
        EncodableMembers.writable d rest h.2.2 hd.2⟩
/-- The same for items. -/
theorem EncodableItems.writable : ∀ (d : Nat) (xs : List Value), EncodableItems d xs →
    Value.DistinctItems xs → WritableItems Style.compact xs
  | _, [], _, _ => trivial
  | d, v :: rest, h, hd => ⟨Encodable.writable d v h.1 hd.1, EncodableItems.writable d rest h.2 hd.2⟩
end

mutual
/-- A value with a canonical form is written. -/
theorem Encodable.dump : ∀ (d l : Nat) (v : Value), Encodable d v →
    ∃ t, Json.dump Style.compact l v = .ok t
  | _, _, .null, _ => ⟨_, rfl⟩
  | _, _, .bool _, _ => ⟨_, rfl⟩
  | _, _, .int i, h => by
      refine ⟨Decimal.intText i, ?_⟩
      rw [Json.dump, dumpInt, if_neg (Nat.not_lt.mpr h.2)]
  | _, _, .float _, h => h.elim
  | _, _, .other _, h => h.elim
  | _, _, .str _, _ => ⟨_, rfl⟩
  | _, l, .list xs, h => by
      obtain ⟨ts, ht⟩ := EncodableItems.dump _ (l + 1) xs h.2
      exact ⟨_, bind_eq_ok.mpr ⟨ts, ht, rfl⟩⟩
  | _, l, .tuple xs, h => by
      obtain ⟨ts, ht⟩ := EncodableItems.dump _ (l + 1) xs h.2
      exact ⟨_, bind_eq_ok.mpr ⟨ts, ht, rfl⟩⟩
  | _, l, .dict kvs, h => by
      obtain ⟨ts, ht⟩ := EncodableMembers.dump _ (l + 1) kvs h.2
      exact ⟨_, bind_eq_ok.mpr ⟨ts, ht, rfl⟩⟩
/-- The same for members. -/
theorem EncodableMembers.dump : ∀ (d l : Nat) (kvs : List (Key × Value)),
    EncodableMembers d kvs → ∃ ts, dumpMembers Style.compact l kvs = .ok ts
  | _, _, [], _ => ⟨_, rfl⟩
  | _, _, (.other _, _) :: _, h => h.elim
  | d, l, (.str k, v) :: rest, h => by
      obtain ⟨t, ht⟩ := Encodable.dump d l v h.2.1
      obtain ⟨ts, hts⟩ := EncodableMembers.dump d l rest h.2.2
      exact ⟨(k, t) :: ts, bind_eq_ok.mpr ⟨t, ht, bind_eq_ok.mpr ⟨ts, hts, rfl⟩⟩⟩
/-- The same for items. -/
theorem EncodableItems.dump : ∀ (d l : Nat) (xs : List Value), EncodableItems d xs →
    ∃ ts, dumpItems Style.compact l xs = .ok ts
  | _, _, [], _ => ⟨_, rfl⟩
  | d, l, v :: rest, h => by
      obtain ⟨t, ht⟩ := Encodable.dump d l v h.1
      obtain ⟨ts, hts⟩ := EncodableItems.dump d l rest h.2
      exact ⟨t :: ts, bind_eq_ok.mpr ⟨t, ht, bind_eq_ok.mpr ⟨ts, hts, rfl⟩⟩⟩
end

/-- The canonical text of a value has no control characters and no surrogates. -/
theorem Encodable.plain {d l : Nat} {v : Value} {t : Str} (h : Encodable d v)
    (ht : Json.dump Style.compact l v = .ok t) : ∀ c ∈ t, Plain c :=
  dump_within Style.within_compact (fun _ hs _ hc => plain_of_mem_quote hs hc) l v t h.texts ht

theorem scalar_of_plain {t : Str} (h : ∀ c ∈ t, Plain c) : Scalar t := fun c hc => (h c hc).2

/-- The canonical bytes are the encoding of the canonical text, and exist exactly for the
values with a canonical form. -/
theorem canonicalBytes_eq_ok {v : Value} {b : Bytes} :
    canonicalBytes v = .ok b ↔
      Encodable 0 v ∧ ∃ t, Json.dump Style.compact 0 v = .ok t ∧ b = Utf8.encodeAll t := by
  unfold canonicalBytes canonicalString checkCanonicalizable
  constructor
  · intro h
    obtain ⟨text, h, hb⟩ := bind_eq_ok.mp h
    obtain ⟨⟨⟩, hc, h⟩ := bind_eq_ok.mp h
    cases hd : Json.dump Style.compact 0 v with
    | error e => simp [hd] at h
    | ok t =>
        simp only [hd, Except.ok.injEq] at h
        subst h
        have henc := encodable_of_check 0 0 v t hc hd
        rw [Utf8.encode_of_scalar (scalar_of_plain (henc.plain hd))] at hb
        exact ⟨henc, t, rfl, (Except.ok.inj hb).symm⟩
  · rintro ⟨henc, t, ht, rfl⟩
    refine bind_eq_ok.mpr ⟨t, bind_eq_ok.mpr ⟨(), henc.check, ?_⟩, ?_⟩
    · rw [ht]
    · rw [Utf8.encode_of_scalar (scalar_of_plain (henc.plain ht))]

/-- Two values with the same canonical bytes have one normal form. -/
theorem norm_eq_of_canonicalBytes {a b : Value} {bytes : Bytes} (ha : canonicalBytes a = .ok bytes)
    (hb : canonicalBytes b = .ok bytes) (hda : a.Distinct) (hdb : b.Distinct) :
    norm Style.compact a = norm Style.compact b := by
  obtain ⟨hea, s, hs, rfl⟩ := canonicalBytes_eq_ok.mp ha
  obtain ⟨heb, t, ht, heq⟩ := canonicalBytes_eq_ok.mp hb
  have : s = t := Utf8.encodeAll_injective (scalar_of_plain (hea.plain hs))
    (scalar_of_plain (heb.plain ht)) heq
  subst this
  exact norm_eq_of_dump_eq Style.valid_compact (hea.writable _ a hda) (heb.writable _ b hdb)
    (hs.trans ht.symm)

/-! ## Timestamps -/

/-- The text handed to `fromisoformat`: a trailing `Z` or `z` is spelled as an offset. -/
def isoCandidate (text : Str) : Str :=
  if text.getLast? = some (cp 'Z') ∨ text.getLast? = some (cp 'z') then
    text.dropLast ++ lit "+00:00"
  else text

/-- `normalize_timestamp`. The exception of `astimezone` at the ends of the calendar is
not caught. -/
def normalizeTimestamp (py : Interp) : Value → Except Exn Str
  | .str s =>
      if s = [] then .error .canonicalization
      else
        match py.fromisoformat (isoCandidate (strip s)) with
        | none => .error .canonicalization
        | some r =>
            match r.toUtc with
            | .error .naive => .error .canonicalization
            | .error .overflow => .error .overflow
            | .ok i => .ok (i.text py.padYears ++ [cp 'Z'])
  | _ => .error .canonicalization

end Canonicalizer

end IcsDeception
