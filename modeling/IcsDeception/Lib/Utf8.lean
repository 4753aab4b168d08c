import IcsDeception.Lib.Text

/-!
# UTF-8

The encoder refuses surrogates. The decoder is one function that marks each
maximal invalid subpart of the input; the strict reader fails on a mark and the
lenient reader puts the replacement character in its place.
-/

namespace IcsDeception.Utf8

open Text

/-- The bytes of one code point. Surrogates are excluded by `encode`. -/
def encodeOne (c : CodePoint) : Bytes :=
  if c.val < 0x80 then [UInt8.ofNat c.val]
  else if c.val < 0x800 then
    [UInt8.ofNat (0xC0 + c.val / 64), UInt8.ofNat (0x80 + c.val % 64)]
  else if c.val < 0x10000 then
    [UInt8.ofNat (0xE0 + c.val / 4096), UInt8.ofNat (0x80 + c.val / 64 % 64),
      UInt8.ofNat (0x80 + c.val % 64)]
  else
    [UInt8.ofNat (0xF0 + c.val / 262144), UInt8.ofNat (0x80 + c.val / 4096 % 64),
      UInt8.ofNat (0x80 + c.val / 64 % 64), UInt8.ofNat (0x80 + c.val % 64)]

/-- The bytes of a text, surrogates not checked. -/
def encodeAll (s : Str) : Bytes := s.flatMap encodeOne

/-- `str.encode("utf-8")`, which fails on a surrogate. -/
def encode (s : Str) : Option Bytes := if Scalar s then some (encodeAll s) else none

@[simp] theorem encodeAll_nil : encodeAll [] = [] := rfl

@[simp] theorem encodeAll_cons (c : CodePoint) (s : Str) :
    encodeAll (c :: s) = encodeOne c ++ encodeAll s := rfl

@[simp] theorem encodeAll_append (s t : Str) :
    encodeAll (s ++ t) = encodeAll s ++ encodeAll t := List.flatMap_append

theorem encode_of_scalar {s : Str} (h : Scalar s) : encode s = some (encodeAll s) := if_pos h

theorem encode_eq_some {s : Str} {b : Bytes} :
    encode s = some b ↔ Scalar s ∧ encodeAll s = b := by
  unfold encode
  split <;> simp_all

/-- A continuation byte. -/
def isCont (b : UInt8) : Bool := 0x80 ≤ b.toNat && b.toNat ≤ 0xBF

/-- The second byte allowed after a three- or four-byte lead; it excludes overlong
forms, surrogates and values past the last code point. -/
def isSecond (lead b : UInt8) : Bool :=
  isCont b && (lead != 0xE0 || 0xA0 ≤ b.toNat) && (lead != 0xED || b.toNat ≤ 0x9F) &&
    (lead != 0xF0 || 0x90 ≤ b.toNat) && (lead != 0xF4 || b.toNat ≤ 0x8F)

/-- The payload of a continuation byte. -/
def low (b : UInt8) : Nat := b.toNat - 0x80

/-- The decoder, with `none` in place of each maximal invalid subpart. -/
def decode : Bytes → List (Option CodePoint)
  | [] => []
  | b0 :: t0 =>
      if b0.toNat < 0x80 then some (ofCode b0.toNat) :: decode t0
      else if 0xC2 ≤ b0.toNat ∧ b0.toNat ≤ 0xDF then
        match t0 with
        | [] => [none]
        | b1 :: t1 =>
            if isCont b1 then some (ofCode ((b0.toNat - 0xC0) * 64 + low b1)) :: decode t1
            else none :: decode (b1 :: t1)
      else if 0xE0 ≤ b0.toNat ∧ b0.toNat ≤ 0xEF then
        match t0 with
        | [] => [none]
        | b1 :: t1 =>
            if isSecond b0 b1 then
              match t1 with
              | [] => [none]
              | b2 :: t2 =>
                  if isCont b2 then
                    some (ofCode ((b0.toNat - 0xE0) * 4096 + low b1 * 64 + low b2)) :: decode t2
                  else none :: decode (b2 :: t2)
            else none :: decode (b1 :: t1)
      else if 0xF0 ≤ b0.toNat ∧ b0.toNat ≤ 0xF4 then
        match t0 with
        | [] => [none]
        | b1 :: t1 =>
            if isSecond b0 b1 then
              match t1 with
              | [] => [none]
              | b2 :: t2 =>
                  if isCont b2 then
                    match t2 with
                    | [] => [none]
                    | b3 :: t3 =>
                        if isCont b3 then
                          some (ofCode ((b0.toNat - 0xF0) * 262144 + low b1 * 4096 +
                            low b2 * 64 + low b3)) :: decode t3
                        else none :: decode (b3 :: t3)
                  else none :: decode (b2 :: t2)
            else none :: decode (b1 :: t1)
      else none :: decode t0

/-- `bytes.decode("utf-8")`, which fails on an invalid subpart. -/
def decodeStrict (b : Bytes) : Option Str := (decode b).mapM id

/-- `bytes.decode("utf-8", errors="replace")`. -/
def decodeReplace (b : Bytes) : Str := (decode b).map fun c => c.getD (cp '\uFFFD')

theorem toNat_ofNat {n : Nat} (h : n < 256) : (UInt8.ofNat n).toNat = n :=
  UInt8.toNat_ofNat_of_lt' h

theorem ofCode_eq {n : Nat} {c : CodePoint} (h : n = c.val) : ofCode n = c := by
  rw [h, ofCode_val]

theorem isCont_ofNat {n : Nat} (h : n < 64) : isCont (UInt8.ofNat (0x80 + n)) = true := by
  simp only [isCont, toNat_ofNat (show 0x80 + n < 256 by omega), Bool.and_eq_true, decide_eq_true_eq]
  omega

theorem low_ofNat {n : Nat} (h : n < 64) : low (UInt8.ofNat (0x80 + n)) = n := by
  unfold low
  rw [toNat_ofNat (by omega)]
  omega

theorem ne_of_toNat_ne {a b : UInt8} (h : a.toNat ≠ b.toNat) : (a != b) = true := by
  simp only [bne_iff_ne, ne_eq]
  rintro rfl
  exact h rfl

theorem decode_ascii {b : UInt8} (h : b.toNat < 0x80) (t : Bytes) :
    decode (b :: t) = some (ofCode b.toNat) :: decode t := by
  rw [decode.eq_def]
  simp only [if_pos h]

theorem decode_two {b0 b1 : UInt8} (h0 : 0xC2 ≤ b0.toNat ∧ b0.toNat ≤ 0xDF)
    (h1 : isCont b1 = true) (t : Bytes) :
    decode (b0 :: b1 :: t) = some (ofCode ((b0.toNat - 0xC0) * 64 + low b1)) :: decode t := by
  rw [decode.eq_def]
  simp only [if_neg (show ¬ b0.toNat < 0x80 by omega), if_pos h0, if_pos h1]

theorem decode_three {b0 b1 b2 : UInt8} (h0 : 0xE0 ≤ b0.toNat ∧ b0.toNat ≤ 0xEF)
    (h1 : isSecond b0 b1 = true) (h2 : isCont b2 = true) (t : Bytes) :
    decode (b0 :: b1 :: b2 :: t) =
      some (ofCode ((b0.toNat - 0xE0) * 4096 + low b1 * 64 + low b2)) :: decode t := by
  rw [decode.eq_def]
  simp only [if_neg (show ¬ b0.toNat < 0x80 by omega),
    if_neg (show ¬ (0xC2 ≤ b0.toNat ∧ b0.toNat ≤ 0xDF) by omega), if_pos h0, if_pos h1, if_pos h2]

theorem decode_four {b0 b1 b2 b3 : UInt8} (h0 : 0xF0 ≤ b0.toNat ∧ b0.toNat ≤ 0xF4)
    (h1 : isSecond b0 b1 = true) (h2 : isCont b2 = true) (h3 : isCont b3 = true) (t : Bytes) :
    decode (b0 :: b1 :: b2 :: b3 :: t) =
      some (ofCode ((b0.toNat - 0xF0) * 262144 + low b1 * 4096 + low b2 * 64 + low b3)) ::
        decode t := by
  rw [decode.eq_def]
  simp only [if_neg (show ¬ b0.toNat < 0x80 by omega),
    if_neg (show ¬ (0xC2 ≤ b0.toNat ∧ b0.toNat ≤ 0xDF) by omega),
    if_neg (show ¬ (0xE0 ≤ b0.toNat ∧ b0.toNat ≤ 0xEF) by omega),
    if_pos h0, if_pos h1, if_pos h2, if_pos h3]

/-- The second byte of an encoded scalar value is in the range its lead byte allows. -/
theorem isSecond_ofNat {lead n : Nat} (hl : lead < 256) (h : n < 64)
    (he0 : lead = 0xE0 → 0x20 ≤ n) (hed : lead = 0xED → n ≤ 0x1F)
    (hf0 : lead = 0xF0 → 0x10 ≤ n) (hf4 : lead = 0xF4 → n ≤ 0x0F) :
    isSecond (UInt8.ofNat lead) (UInt8.ofNat (0x80 + n)) = true := by
  have hne : ∀ k : Nat, k < 256 → lead ≠ k → (UInt8.ofNat lead != UInt8.ofNat k) = true := by
    intro k hk hlk
    apply ne_of_toNat_ne
    rwa [toNat_ofNat hl, toNat_ofNat hk]
  simp only [isSecond, isCont_ofNat h, toNat_ofNat (show 0x80 + n < 256 by omega), Bool.true_and,
    Bool.and_eq_true, Bool.or_eq_true, decide_eq_true_eq]
  refine ⟨⟨⟨?_, ?_⟩, ?_⟩, ?_⟩
  · by_cases hk : lead = 0xE0
    · exact Or.inr (by have := he0 hk; omega)
    · exact Or.inl (hne 0xE0 (by decide) hk)
  · by_cases hk : lead = 0xED
    · exact Or.inr (by have := hed hk; omega)
    · exact Or.inl (hne 0xED (by decide) hk)
  · by_cases hk : lead = 0xF0
    · exact Or.inr (by have := hf0 hk; omega)
    · exact Or.inl (hne 0xF0 (by decide) hk)
  · by_cases hk : lead = 0xF4
    · exact Or.inr (by have := hf4 hk; omega)
    · exact Or.inl (hne 0xF4 (by decide) hk)

/-- The decoder reads back one encoded scalar value and continues behind it. -/
theorem decode_encodeOne {c : CodePoint} (hc : isSurrogate c = false) (t : Bytes) :
    decode (encodeOne c ++ t) = some c :: decode t := by
  have hlt : c.val < 0x110000 := c.isLt
  simp only [isSurrogate, Bool.and_eq_false_iff, decide_eq_false_iff_not, not_le] at hc
  unfold encodeOne
  split_ifs with h1 h2 h3 <;> simp only [List.cons_append, List.nil_append]
  · rw [decode_ascii (by rwa [toNat_ofNat (by omega)]), toNat_ofNat (by omega), ofCode_eq (c := c) rfl]
  · rw [decode_two (by rw [toNat_ofNat (by omega)]; omega) (isCont_ofNat (by omega)),
      low_ofNat (by omega), toNat_ofNat (by omega), ofCode_eq (c := c) (by omega)]
  · rw [decode_three (by rw [toNat_ofNat (by omega)]; omega)
      (isSecond_ofNat (by omega) (by omega) (by omega) (by omega) (by omega) (by omega))
      (isCont_ofNat (by omega)),
      low_ofNat (by omega), low_ofNat (by omega), toNat_ofNat (by omega), ofCode_eq (c := c) (by omega)]
  · rw [decode_four (by rw [toNat_ofNat (by omega)]; omega)
      (isSecond_ofNat (by omega) (by omega) (by omega) (by omega) (by omega) (by omega))
      (isCont_ofNat (by omega)) (isCont_ofNat (by omega)),
      low_ofNat (by omega), low_ofNat (by omega), low_ofNat (by omega), toNat_ofNat (by omega),
      ofCode_eq (c := c) (by omega)]

/-- Decoding inverts encoding, with any bytes behind. -/
theorem decode_encodeAll_append {s : Str} (h : Scalar s) (t : Bytes) :
    decode (encodeAll s ++ t) = s.map some ++ decode t := by
  induction s with
  | nil => rfl
  | cons c rest ih =>
      obtain ⟨hc, hr⟩ := scalar_cons.mp h
      rw [encodeAll_cons, List.append_assoc, decode_encodeOne hc, ih hr]
      rfl

theorem decode_encodeAll {s : Str} (h : Scalar s) : decode (encodeAll s) = s.map some := by
  have := decode_encodeAll_append h []
  simpa [decode] using this

theorem decodeReplace_encodeAll {s : Str} (h : Scalar s) : decodeReplace (encodeAll s) = s := by
  rw [decodeReplace, decode_encodeAll h, List.map_map]
  exact List.map_id s

theorem decodeStrict_encodeAll {s : Str} (h : Scalar s) :
    decodeStrict (encodeAll s) = some s := by
  rw [decodeStrict, decode_encodeAll h]
  induction s with
  | nil => rfl
  | cons c rest ih =>
      rw [List.map_cons, List.mapM_cons, ih (scalar_cons.mp h).2]
      rfl

/-- Encoding is injective on scalar texts. -/
theorem encodeAll_injective {s t : Str} (hs : Scalar s) (ht : Scalar t)
    (h : encodeAll s = encodeAll t) : s = t := by
  have := congrArg decodeReplace h
  rwa [decodeReplace_encodeAll hs, decodeReplace_encodeAll ht] at this

theorem encodeOne_length_pos (c : CodePoint) : 0 < (encodeOne c).length := by
  unfold encodeOne
  split_ifs <;> simp

/-- A text is at most as long as its encoding. -/
theorem length_le_encodeAll (s : Str) : s.length ≤ (encodeAll s).length := by
  induction s with
  | nil => simp
  | cons c rest ih =>
      have := encodeOne_length_pos c
      simp only [encodeAll_cons, List.length_append, List.length_cons]
      omega

/-- The front of an encoding in ASCII is the encoding of a front. -/
theorem exists_of_prefix_ascii {s : Str} (h : ∀ c ∈ s, c.val < 0x80) {b : Bytes}
    (hb : b <+: encodeAll s) : ∃ p r, s = p ++ r ∧ b = encodeAll p := by
  induction s generalizing b with
  | nil => exact ⟨[], [], rfl, List.prefix_nil.mp hb⟩
  | cons c rest ih =>
      obtain ⟨hc, hrest⟩ := List.forall_mem_cons.mp h
      have hone : encodeOne c = [UInt8.ofNat c.val] := if_pos hc
      rw [encodeAll_cons, hone, List.singleton_append] at hb
      rcases List.prefix_cons_iff.mp hb with rfl | ⟨t, rfl, ht⟩
      · exact ⟨[], c :: rest, rfl, rfl⟩
      · obtain ⟨p, r, rfl, rfl⟩ := ih hrest ht
        exact ⟨c :: p, r, rfl, by rw [encodeAll_cons, hone, List.singleton_append]⟩

end IcsDeception.Utf8
