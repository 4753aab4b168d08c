import IcsDeception.Lib.Text

/-!
# Base64

Encoding with padding, and the decoder that checks the alphabet and the padding.
The decoder ignores the unused low bits of the last symbol before the padding, and some
interpreters take more padding than the last group needs, so several texts can decode to
the same bytes.

## Implementation notes

How much padding is taken has changed between versions of Python: up to two symbols in all,
any number behind complete groups, or none but what is needed. It is a parameter of the
decoder, a predicate on the number of symbols before the padding and on the number of
padding symbols too many.
-/

namespace IcsDeception.Base64

open Text

/-- The symbol of a six-bit number. -/
def symbol (n : Nat) : CodePoint :=
  if n < 26 then ofCode (0x41 + n)
  else if n < 52 then ofCode (0x61 + (n - 26))
  else if n < 62 then ofCode (0x30 + (n - 52))
  else if n = 62 then cp '+'
  else cp '/'

/-- The six-bit number of a symbol. -/
def value (c : CodePoint) : Option Nat :=
  if 0x41 ≤ c.val ∧ c.val ≤ 0x5A then some (c.val - 0x41)
  else if 0x61 ≤ c.val ∧ c.val ≤ 0x7A then some (c.val - 0x61 + 26)
  else if 0x30 ≤ c.val ∧ c.val ≤ 0x39 then some (c.val - 0x30 + 52)
  else if c = cp '+' then some 62
  else if c = cp '/' then some 63
  else none

/-- The padding symbol. -/
def pad : CodePoint := cp '='

/-- `base64.b64encode`. -/
def encode : Bytes → Str
  | [] => []
  | [a] => [symbol (a.toNat / 4), symbol (a.toNat % 4 * 16), pad, pad]
  | [a, b] =>
      [symbol (a.toNat / 4), symbol (a.toNat % 4 * 16 + b.toNat / 16), symbol (b.toNat % 16 * 4),
        pad]
  | a :: b :: c :: rest =>
      symbol (a.toNat / 4) :: symbol (a.toNat % 4 * 16 + b.toNat / 16) ::
        symbol (b.toNat % 16 * 4 + c.toNat / 64) :: symbol (c.toNat % 64) :: encode rest

/-- The decoder of texts with the padding that their last group needs. -/
def decode : Str → Option Bytes
  | [] => some []
  | a :: b :: c :: d :: rest =>
      if c = pad ∧ d = pad ∧ rest = [] then do
        let a ← value a
        let b ← value b
        return [UInt8.ofNat (a * 4 + b / 16)]
      else if d = pad ∧ rest = [] then do
        let a ← value a
        let b ← value b
        let c ← value c
        return [UInt8.ofNat (a * 4 + b / 16), UInt8.ofNat (b % 16 * 16 + c / 4)]
      else do
        let a ← value a
        let b ← value b
        let c ← value c
        let d ← value d
        let tail ← decode rest
        return UInt8.ofNat (a * 4 + b / 16) :: UInt8.ofNat (b % 16 * 16 + c / 4) ::
          UInt8.ofNat (c % 4 * 64 + d) :: tail
  | _ => none

/-- `base64.b64decode(text, validate=True)`, where `excess` says which padding is taken beyond
what the last group needs. -/
def decodeWith (excess : Nat → Nat → Bool) (text : Str) : Option Bytes :=
  let symbols := text.takeWhile (· ≠ pad)
  let padding := text.dropWhile (· ≠ pad)
  let needed := (4 - symbols.length % 4) % 4
  if needed < padding.length ∧ (∀ c ∈ padding, c = pad) ∧
      excess symbols.length (padding.length - needed) = true then
    decode (symbols ++ padding.take needed)
  else decode text

theorem decodeWith_nil (excess : Nat → Nat → Bool) : decodeWith excess [] = some [] := rfl

theorem value_symbol : ∀ n < 64, value (symbol n) = some n := by decide

theorem symbol_ne_pad : ∀ n < 64, symbol n ≠ pad := by decide

theorem ofNat_eq {n : Nat} {a : UInt8} (h : n = a.toNat) : UInt8.ofNat n = a := by
  rw [h, UInt8.ofNat_toNat]

/-- Decoding inverts encoding. -/
theorem decode_encode (b : Bytes) : decode (encode b) = some b := by
  induction b using encode.induct with
  | case1 => rfl
  | case2 a =>
      have ha := a.toNat_lt
      simp only [encode, decode, and_self, if_true, value_symbol _ (show a.toNat / 4 < 64 by omega),
        value_symbol _ (show a.toNat % 4 * 16 < 64 by omega), Option.bind_eq_bind, Option.bind_some,
        Option.pure_def]
      rw [ofNat_eq (a := a) (by omega)]
  | case3 a b =>
      have ha := a.toNat_lt
      have hb := b.toNat_lt
      have hne := symbol_ne_pad (b.toNat % 16 * 4) (by omega)
      simp only [encode, decode, hne, false_and, if_false, and_self, if_true,
        value_symbol _ (show a.toNat / 4 < 64 by omega),
        value_symbol _ (show a.toNat % 4 * 16 + b.toNat / 16 < 64 by omega),
        value_symbol _ (show b.toNat % 16 * 4 < 64 by omega), Option.bind_eq_bind, Option.bind_some,
        Option.pure_def]
      rw [ofNat_eq (a := a) (by omega), ofNat_eq (a := b) (by omega)]
  | case4 a b c rest ih =>
      have ha := a.toNat_lt
      have hb := b.toNat_lt
      have hc := c.toNat_lt
      have h₁ := symbol_ne_pad (b.toNat % 16 * 4 + c.toNat / 64) (by omega)
      have h₂ := symbol_ne_pad (c.toNat % 64) (by omega)
      simp only [encode, decode, h₁, h₂, false_and, if_false,
        value_symbol _ (show a.toNat / 4 < 64 by omega),
        value_symbol _ (show a.toNat % 4 * 16 + b.toNat / 16 < 64 by omega),
        value_symbol _ (show b.toNat % 16 * 4 + c.toNat / 64 < 64 by omega),
        value_symbol _ (show c.toNat % 64 < 64 by omega), ih, Option.bind_eq_bind, Option.bind_some,
        Option.pure_def]
      rw [ofNat_eq (a := a) (by omega), ofNat_eq (a := b) (by omega), ofNat_eq (a := c) (by omega)]

theorem symbol_ascii : ∀ n < 64, 0x20 < (symbol n).val ∧ (symbol n).val < 0x7F := by decide

/-- The written symbols are printable ASCII. -/
theorem encode_ascii (b : Bytes) : ∀ c ∈ encode b, 0x20 < c.val ∧ c.val < 0x7F := by
  have hpad : 0x20 < pad.val ∧ pad.val < 0x7F := by decide
  induction b using encode.induct with
  | case1 => simp [encode]
  | case2 a =>
      have ha := a.toNat_lt
      simp only [encode, List.forall_mem_cons, hpad, and_self, true_and]
      exact ⟨symbol_ascii _ (by omega), symbol_ascii _ (by omega), by simp⟩
  | case3 a b =>
      have ha := a.toNat_lt
      have hb := b.toNat_lt
      simp only [encode, List.forall_mem_cons, hpad, and_self, true_and]
      exact ⟨symbol_ascii _ (by omega), symbol_ascii _ (by omega), symbol_ascii _ (by omega), by simp⟩
  | case4 a b c rest ih =>
      have ha := a.toNat_lt
      have hb := b.toNat_lt
      have hc := c.toNat_lt
      simp only [encode, List.forall_mem_cons]
      exact ⟨symbol_ascii _ (by omega), symbol_ascii _ (by omega), symbol_ascii _ (by omega),
        symbol_ascii _ (by omega), ih⟩

theorem encode_length (b : Bytes) : (encode b).length = (b.length + 2) / 3 * 4 := by
  induction b using encode.induct with
  | case1 => rfl
  | case2 a => simp [encode]
  | case3 a b => simp [encode]
  | case4 a b c rest ih =>
      simp only [encode, List.length_cons, ih]
      omega

theorem encode_ne_nil {b : Bytes} (h : b ≠ []) : encode b ≠ [] := by
  cases b using encode.fun_cases with
  | case1 => exact absurd rfl h
  | case2 a => simp [encode]
  | case3 a b => simp [encode]
  | case4 a b c rest => simp [encode]

/-! ## The spellings of given bytes -/

theorem symbol_value {c : CodePoint} {n : Nat} (h : value c = some n) : n < 64 ∧ symbol n = c := by
  unfold value at h
  split_ifs at h with h₁ h₂ h₃ h₄ h₅
  · obtain rfl := Option.some.inj h
    refine ⟨by omega, ?_⟩
    rw [symbol, if_pos (by omega), Nat.add_sub_cancel' h₁.1, ofCode_val]
  · obtain rfl := Option.some.inj h
    refine ⟨by omega, ?_⟩
    rw [symbol, if_neg (by omega), if_pos (by omega), Nat.add_sub_cancel,
      Nat.add_sub_cancel' h₂.1, ofCode_val]
  · obtain rfl := Option.some.inj h
    refine ⟨by omega, ?_⟩
    rw [symbol, if_neg (by omega), if_neg (by omega), if_pos (by omega), Nat.add_sub_cancel,
      Nat.add_sub_cancel' h₃.1, ofCode_val]
  · obtain rfl := Option.some.inj h
    exact ⟨by decide, h₄.symm⟩
  · obtain rfl := Option.some.inj h
    exact ⟨by decide, h₅.symm⟩

/-- The texts that spell given bytes: groups of four symbols, the last one filled up. -/
inductive Spells : Str → Bytes → Prop
  | nil : Spells [] []
  | one {x y : Nat} (hx : x < 64) (hy : y < 64) :
      Spells [symbol x, symbol y, pad, pad] [UInt8.ofNat (x * 4 + y / 16)]
  | two {x y z : Nat} (hx : x < 64) (hy : y < 64) (hz : z < 64) :
      Spells [symbol x, symbol y, symbol z, pad]
        [UInt8.ofNat (x * 4 + y / 16), UInt8.ofNat (y % 16 * 16 + z / 4)]
  | three {x y z w : Nat} {s : Str} {raw : Bytes} (hx : x < 64) (hy : y < 64) (hz : z < 64)
      (hw : w < 64) (h : Spells s raw) :
      Spells (symbol x :: symbol y :: symbol z :: symbol w :: s)
        (UInt8.ofNat (x * 4 + y / 16) :: UInt8.ofNat (y % 16 * 16 + z / 4) ::
          UInt8.ofNat (z % 4 * 64 + w) :: raw)

theorem Spells.decode {s : Str} {raw : Bytes} (h : Spells s raw) : decode s = some raw := by
  induction h with
  | nil => rfl
  | one hx hy =>
      simp only [Base64.decode, and_self, if_true, value_symbol _ hx, value_symbol _ hy,
        Option.bind_eq_bind, Option.bind_some, Option.pure_def]
  | two hx hy hz =>
      simp only [Base64.decode, symbol_ne_pad _ hz, false_and, if_false, and_self, if_true,
        value_symbol _ hx, value_symbol _ hy, value_symbol _ hz, Option.bind_eq_bind,
        Option.bind_some, Option.pure_def]
  | three hx hy hz hw _ ih =>
      simp only [Base64.decode, symbol_ne_pad _ hz, symbol_ne_pad _ hw, false_and, if_false,
        value_symbol _ hx, value_symbol _ hy, value_symbol _ hz, value_symbol _ hw, ih,
        Option.bind_eq_bind, Option.bind_some, Option.pure_def]

theorem spells_of_decode {s : Str} {raw : Bytes} (h : decode s = some raw) : Spells s raw := by
  induction s using decode.induct generalizing raw with
  | case1 =>
      obtain rfl := Option.some.inj h
      exact .nil
  | case2 a b c d rest hpad =>
      obtain ⟨rfl, rfl, rfl⟩ := hpad
      rw [decode, if_pos ⟨rfl, rfl, rfl⟩] at h
      obtain ⟨x, ha, h⟩ := Option.bind_eq_some_iff.mp h
      obtain ⟨y, hb, h⟩ := Option.bind_eq_some_iff.mp h
      obtain rfl := Option.some.inj h
      obtain ⟨hx, rfl⟩ := symbol_value ha
      obtain ⟨hy, rfl⟩ := symbol_value hb
      exact .one hx hy
  | case3 a b c d rest hne hpad =>
      obtain ⟨rfl, rfl⟩ := hpad
      rw [decode, if_neg hne, if_pos ⟨rfl, rfl⟩] at h
      obtain ⟨x, ha, h⟩ := Option.bind_eq_some_iff.mp h
      obtain ⟨y, hb, h⟩ := Option.bind_eq_some_iff.mp h
      obtain ⟨z, hc, h⟩ := Option.bind_eq_some_iff.mp h
      obtain rfl := Option.some.inj h
      obtain ⟨hx, rfl⟩ := symbol_value ha
      obtain ⟨hy, rfl⟩ := symbol_value hb
      obtain ⟨hz, rfl⟩ := symbol_value hc
      exact .two hx hy hz
  | case4 a b c d rest hne hne' ih =>
      rw [decode, if_neg hne, if_neg hne'] at h
      obtain ⟨x, ha, h⟩ := Option.bind_eq_some_iff.mp h
      obtain ⟨y, hb, h⟩ := Option.bind_eq_some_iff.mp h
      obtain ⟨z, hc, h⟩ := Option.bind_eq_some_iff.mp h
      obtain ⟨w, hd, h⟩ := Option.bind_eq_some_iff.mp h
      obtain ⟨tail, hrest, h⟩ := Option.bind_eq_some_iff.mp h
      obtain rfl := Option.some.inj h
      obtain ⟨hx, rfl⟩ := symbol_value ha
      obtain ⟨hy, rfl⟩ := symbol_value hb
      obtain ⟨hz, rfl⟩ := symbol_value hc
      obtain ⟨hw, rfl⟩ := symbol_value hd
      exact .three hx hy hz hw (ih hrest)
  | case5 s hnil hgroup =>
      rw [decode.eq_def] at h
      split at h
      · exact absurd rfl hnil
      · exact absurd rfl (hgroup _ _ _ _ _)
      · cases h

/-- Padding stands exactly where the bytes do not fill the last group. -/
theorem Spells.pad_mem_iff {s : Str} {raw : Bytes} (h : Spells s raw) :
    pad ∈ s ↔ raw.length % 3 ≠ 0 := by
  induction h with
  | nil => simp
  | one hx hy => simp
  | two hx hy hz => simp
  | three hx hy hz hw _ ih =>
      have hne : ∀ n < 64, pad ≠ symbol n := fun n hn => (symbol_ne_pad n hn).symm
      simp only [List.mem_cons, hne _ hx, hne _ hy, hne _ hz, hne _ hw, false_or, ih,
        List.length_cons]
      omega

theorem ofNat_toNat {n : Nat} (h : n < 256) : (UInt8.ofNat n).toNat = n := by
  simpa using Nat.mod_eq_of_lt h

/-- Without padding, the spelling is the one that the encoder writes. -/
theorem Spells.eq_encode {s : Str} {raw : Bytes} (h : Spells s raw) (hpad : pad ∉ s) :
    s = encode raw := by
  induction h with
  | nil => rfl
  | one hx hy => simp at hpad
  | two hx hy hz => simp at hpad
  | @three x y z w s raw hx hy hz hw _ ih =>
      have hs : pad ∉ s := fun hmem => hpad (by simp [hmem])
      rw [encode, ← ih hs, ofNat_toNat (by omega), ofNat_toNat (by omega), ofNat_toNat (by omega)]
      congr 1
      · congr 1
        omega
      · congr 1
        · congr 1
          omega
        · congr 1
          · congr 1
            omega
          · congr 1
            congr 1
            omega

/-- Padding leaves bits of the last symbol unused, and so another spelling. -/
theorem Spells.respell {s : Str} {raw : Bytes} (h : Spells s raw) (hpad : pad ∈ s) :
    ∃ t, t ≠ s ∧ t.length = s.length ∧ Spells t raw := by
  have hinj : ∀ m n, m < 64 → n < 64 → symbol m = symbol n → m = n := by
    intro m n hm hn heq
    have := congrArg value heq
    rw [value_symbol m hm, value_symbol n hn] at this
    exact Option.some.inj this
  induction h with
  | nil => simp at hpad
  | @one x y hx hy =>
      have hbyte : (x * 4 + (y / 16 * 16 + (y % 16 + 1) % 16) / 16) = x * 4 + y / 16 := by omega
      refine ⟨[symbol x, symbol (y / 16 * 16 + (y % 16 + 1) % 16), pad, pad], ?_, rfl, ?_⟩
      · intro heq
        have := hinj _ _ (by omega) hy (List.cons.inj (List.cons.inj heq).2).1
        omega
      · rw [← hbyte]
        exact .one hx (by omega)
  | @two x y z hx hy hz =>
      have hbyte : (y % 16 * 16 + (z / 4 * 4 + (z % 4 + 1) % 4) / 4) = y % 16 * 16 + z / 4 := by
        omega
      refine ⟨[symbol x, symbol y, symbol (z / 4 * 4 + (z % 4 + 1) % 4), pad], ?_, rfl, ?_⟩
      · intro heq
        have := hinj _ _ (by omega) hz
          (List.cons.inj (List.cons.inj (List.cons.inj heq).2).2).1
        omega
      · rw [← hbyte]
        exact .two hx hy (by omega)
  | @three x y z w s raw hx hy hz hw _ ih =>
      have hne : ∀ n < 64, pad ≠ symbol n := fun n hn => (symbol_ne_pad n hn).symm
      simp only [List.mem_cons, hne _ hx, hne _ hy, hne _ hz, hne _ hw, false_or] at hpad
      obtain ⟨t, hts, hlen, ht⟩ := ih hpad
      exact ⟨symbol x :: symbol y :: symbol z :: symbol w :: t, by simpa using hts,
        by simpa using hlen, .three hx hy hz hw ht⟩

/-- The characters of a spelling. -/
theorem Spells.chars {s : Str} {raw : Bytes} (h : Spells s raw) :
    ∀ c ∈ s, c = pad ∨ ∃ n < 64, c = symbol n := by
  induction h with
  | nil => simp
  | one hx hy =>
      simp only [List.forall_mem_cons]
      exact ⟨.inr ⟨_, hx, rfl⟩, .inr ⟨_, hy, rfl⟩, .inl trivial, .inl trivial, by simp⟩
  | two hx hy hz =>
      simp only [List.forall_mem_cons]
      exact ⟨.inr ⟨_, hx, rfl⟩, .inr ⟨_, hy, rfl⟩, .inr ⟨_, hz, rfl⟩, .inl trivial, by simp⟩
  | three hx hy hz hw _ ih =>
      simp only [List.forall_mem_cons]
      exact ⟨.inr ⟨_, hx, rfl⟩, .inr ⟨_, hy, rfl⟩, .inr ⟨_, hz, rfl⟩, .inr ⟨_, hw, rfl⟩, ih⟩

/-! ## Padding beyond the last group -/

/-- The number of symbols that given bytes are spelled with. -/
def symbolCount (raw : Bytes) : Nat := (4 * raw.length + 2) / 3

theorem symbolCount_three (a b c : UInt8) (raw : Bytes) :
    symbolCount (a :: b :: c :: raw) = symbolCount raw + 4 := by
  simp only [symbolCount, List.length_cons]
  omega

/-- A spelling is its symbols and the padding of the last group. -/
theorem Spells.shape {s : Str} {raw : Bytes} (h : Spells s raw) :
    ∃ symbols, (∀ c ∈ symbols, c ≠ pad) ∧ symbols.length = symbolCount raw ∧
      s = symbols ++ List.replicate ((4 - symbolCount raw % 4) % 4) pad := by
  induction h with
  | nil => exact ⟨[], by simp, rfl, rfl⟩
  | @one x y hx hy =>
      refine ⟨[symbol x, symbol y], ?_, by simp [symbolCount], by simp [symbolCount]⟩
      simp only [List.forall_mem_cons]
      exact ⟨symbol_ne_pad x hx, symbol_ne_pad y hy, by simp⟩
  | @two x y z hx hy hz =>
      refine ⟨[symbol x, symbol y, symbol z], ?_, by simp [symbolCount], by simp [symbolCount]⟩
      simp only [List.forall_mem_cons]
      exact ⟨symbol_ne_pad x hx, symbol_ne_pad y hy, symbol_ne_pad z hz, by simp⟩
  | @three x y z w s raw hx hy hz hw _ ih =>
      obtain ⟨symbols, hsymbols, hlength, rfl⟩ := ih
      rw [symbolCount_three, Nat.add_mod_right]
      refine ⟨symbol x :: symbol y :: symbol z :: symbol w :: symbols, ?_, ?_, rfl⟩
      · simp only [List.forall_mem_cons]
        exact ⟨symbol_ne_pad x hx, symbol_ne_pad y hy, symbol_ne_pad z hz, symbol_ne_pad w hw,
          hsymbols⟩
      · simp only [List.length_cons, hlength]

/-- The texts that the decoder takes for given bytes: a spelling, and padding that it takes
behind it. -/
def Accepts (excess : Nat → Nat → Bool) (s : Str) (raw : Bytes) : Prop :=
  ∃ t n, s = t ++ List.replicate n pad ∧ Spells t raw ∧
    (n = 0 ∨ excess (symbolCount raw) n = true)

theorem Spells.accepts {s : Str} {raw : Bytes} (h : Spells s raw) (excess : Nat → Nat → Bool) :
    Accepts excess s raw := ⟨s, 0, (List.append_nil s).symm, h, .inl rfl⟩

/-- What stands before the padding, and the padding. -/
theorem split_padding {symbols : Str} (h : ∀ c ∈ symbols, c ≠ pad) (n : Nat) :
    (symbols ++ List.replicate n pad).takeWhile (· ≠ pad) = symbols ∧
      (symbols ++ List.replicate n pad).dropWhile (· ≠ pad) = List.replicate n pad := by
  have hall : ∀ c ∈ symbols, decide (c ≠ pad) = true := fun c hc => decide_eq_true (h c hc)
  rw [List.takeWhile_append_of_pos hall, List.dropWhile_append_of_pos hall]
  cases n with
  | zero => simp
  | succ n => simp [List.replicate_succ]

theorem eq_replicate_pad {padding : Str} (h : ∀ c ∈ padding, c = pad) :
    padding = List.replicate padding.length pad := List.eq_replicate_iff.mpr ⟨rfl, h⟩

theorem Spells.symbols_length {s : Str} {raw : Bytes} (h : Spells s raw) :
    (s.takeWhile (· ≠ pad)).length = symbolCount raw := by
  obtain ⟨symbols, hsymbols, hlength, rfl⟩ := h.shape
  rw [(split_padding hsymbols _).1, hlength]

/-- The decoder takes exactly these texts. -/
theorem decodeWith_eq_some {excess : Nat → Nat → Bool} {s : Str} {raw : Bytes} :
    decodeWith excess s = some raw ↔ Accepts excess s raw := by
  unfold decodeWith
  dsimp only
  constructor
  · intro h
    split_ifs at h with hexcess
    · obtain ⟨hlt, hpad, hexcess⟩ := hexcess
      have hsplit := (List.takeWhile_append_dropWhile (p := (· ≠ pad)) (l := s)).symm
      have hsymbols : ∀ c ∈ s.takeWhile (· ≠ pad), c ≠ pad := fun c hc =>
        by simpa using List.mem_takeWhile_imp hc
      rw [eq_replicate_pad hpad] at hsplit h
      generalize s.takeWhile (· ≠ pad) = symbols at hsplit hsymbols hlt hexcess h
      generalize (s.dropWhile (· ≠ pad)).length = padding at hsplit hlt hexcess h
      generalize hneeded : (4 - symbols.length % 4) % 4 = needed at hlt hexcess h
      rw [List.take_replicate, Nat.min_eq_left hlt.le] at h
      have hspells := spells_of_decode h
      have hlength := hspells.symbols_length
      rw [(split_padding hsymbols _).1] at hlength
      refine ⟨_, padding - needed, ?_, hspells, .inr (hlength ▸ hexcess)⟩
      rw [hsplit, List.append_assoc, ← List.replicate_add, Nat.add_sub_cancel' hlt.le]
    · exact (spells_of_decode h).accepts excess
  · rintro ⟨t, n, rfl, hspells, hn⟩
    obtain ⟨symbols, hsymbols, hlength, rfl⟩ := hspells.shape
    rw [List.append_assoc, ← List.replicate_add, (split_padding hsymbols _).1,
      (split_padding hsymbols _).2, List.length_replicate, hlength, List.take_replicate]
    rcases hn with rfl | hn
    · rw [if_neg (by omega)]
      exact hspells.decode
    · by_cases hzero : n = 0
      · subst hzero
        rw [if_neg (by omega)]
        exact hspells.decode
      · rw [if_pos ⟨by omega, fun c hc => (List.mem_replicate.mp hc).2, by
          rwa [Nat.add_sub_cancel_left]⟩, Nat.min_eq_left (Nat.le_add_right _ _)]
        exact hspells.decode

/-- What is written is taken. -/
theorem decodeWith_encode (excess : Nat → Nat → Bool) (b : Bytes) :
    decodeWith excess (encode b) = some b :=
  decodeWith_eq_some.mpr ((spells_of_decode (decode_encode b)).accepts excess)

/-- The characters of a text that is taken. -/
theorem Accepts.chars {excess : Nat → Nat → Bool} {s : Str} {raw : Bytes}
    (h : Accepts excess s raw) : ∀ c ∈ s, c = pad ∨ ∃ n < 64, c = symbol n := by
  obtain ⟨t, n, rfl, ht, -⟩ := h
  intro c hc
  rcases List.mem_append.mp hc with hc | hc
  · exact ht.chars c hc
  · exact .inl (List.mem_replicate.mp hc).2

/-- A padded text is not the only one of its bytes that is taken. -/
theorem Accepts.other {excess : Nat → Nat → Bool} {s : Str} {raw : Bytes}
    (h : Accepts excess s raw) (hpad : pad ∈ s) :
    ∃ t, t ≠ s ∧ t.length ≤ s.length ∧ Accepts excess t raw := by
  obtain ⟨t, n, rfl, ht, hn⟩ := h
  by_cases hzero : n = 0
  · subst hzero
    rw [List.replicate_zero, List.append_nil] at hpad ⊢
    obtain ⟨u, hne, hlength, hu⟩ := ht.respell hpad
    exact ⟨u, hne, hlength.le, hu.accepts excess⟩
  · refine ⟨t, ?_, by simp, ht.accepts excess⟩
    intro heq
    have := congrArg List.length heq
    simp only [List.length_append, List.length_replicate] at this
    omega

/-- Without padding, a text has as many symbols as its bytes take. -/
theorem Accepts.unpadded {excess : Nat → Nat → Bool} {s : Str} {raw : Bytes}
    (h : Accepts excess s raw) (hpad : pad ∉ s) : Spells s raw ∧ s.length = symbolCount raw := by
  obtain ⟨t, n, rfl, ht, -⟩ := h
  have hzero : n = 0 := by
    by_contra hne
    exact hpad (List.mem_append_right _ (List.mem_replicate.mpr ⟨hne, rfl⟩))
  subst hzero
  rw [List.replicate_zero, List.append_nil] at hpad ⊢
  refine ⟨ht, ?_⟩
  have hall : t.takeWhile (· ≠ pad) = t :=
    List.takeWhile_eq_self_iff.mpr fun c hc => decide_eq_true fun heq => hpad (heq ▸ hc)
  rw [← ht.symbols_length, hall]

/-- The texts that are taken for the bytes of an unpadded one are this text, and what is taken
of it with padding behind it. -/
theorem Accepts.unpadded_iff {excess : Nat → Nat → Bool} {s : Str} {raw : Bytes}
    (h : Accepts excess s raw) (hpad : pad ∉ s) (t : Str) :
    Accepts excess t raw ↔
      ∃ n, t = s ++ List.replicate n pad ∧ (n = 0 ∨ excess s.length n = true) := by
  obtain ⟨hs, hlength⟩ := h.unpadded hpad
  rw [hlength]
  constructor
  · rintro ⟨u, n, rfl, hu, hn⟩
    have hupad : pad ∉ u := by
      rw [hu.pad_mem_iff, ← hs.pad_mem_iff]
      exact hpad
    exact ⟨n, by rw [hs.eq_encode hpad, hu.eq_encode hupad], hn⟩
  · rintro ⟨n, rfl, hn⟩
    exact ⟨s, n, rfl, hs, hn⟩

end IcsDeception.Base64
