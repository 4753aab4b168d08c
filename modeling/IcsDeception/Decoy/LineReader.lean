import IcsDeception.Decoy.Logger

/-!
# The line reader of the interactive decoys

One line of a client, read byte by byte with the editing keys applied, and what is logged
about a password.

## Implementation notes

A connection is the list of what `recv` returns, one entry a call; at its end the peer has
closed the connection. A byte carries whether it had arrived when the byte before it was
read, since the reader looks for the line feed of a CRLF without waiting for it.
-/

namespace IcsDeception.Decoy

open Text Json

/-- What one call of `recv` returns. -/
inductive Arrival
  | byte (value : UInt8) (early : Bool)
  | interrupted
  | timedOut
  | failed
  deriving DecidableEq

/-- `LineStatus`. -/
inductive LineStatus
  | ok
  | closed
  | timeout
  | error
  | tooLong
  deriving DecidableEq

/-- `kMaxLineLength`. -/
def maxLineLength : Nat := 512

def crByte : UInt8 := 0x0D

/-- What `read_line` returns, with what is left on the connection. -/
structure LineRead where
  status : LineStatus
  out : Bytes
  rest : List Arrival
  deriving DecidableEq

/-- The look behind a carriage return: a line feed that has already arrived is dropped. -/
def skipPaired : List Arrival → List Arrival
  | .byte c early :: rest => if c = Utf8.lfByte ∧ early = true then rest else .byte c early :: rest
  | arrivals => arrivals

/-- `read_line`, with the characters that it has put out so far. -/
def readLineFrom (out : Bytes) : List Arrival → LineRead
  | [] => ⟨.closed, out, []⟩
  | .interrupted :: rest => readLineFrom out rest
  | .timedOut :: rest => ⟨.timeout, out, rest⟩
  | .failed :: rest => ⟨.error, out, rest⟩
  | .byte c _ :: rest =>
      if c = Utf8.lfByte then ⟨.ok, out, rest⟩
      else if c = crByte then ⟨.ok, out, skipPaired rest⟩
      else if c = 0x7F ∨ c = 0x08 then readLineFrom out.dropLast rest
      else if c < 0x20 then readLineFrom out rest
      else if maxLineLength < (out ++ [c]).length then ⟨.tooLong, out ++ [c], rest⟩
      else readLineFrom (out ++ [c]) rest

/-- `read_line`. -/
def readLine (arrivals : List Arrival) : LineRead := readLineFrom [] arrivals

/-- `password_shape`. -/
def passwordShape (password : Bytes) : Bytes :=
  let isLower (c : UInt8) : Bool := 0x61 ≤ c && c ≤ 0x7A
  let isUpper (c : UInt8) : Bool := 0x41 ≤ c && c ≤ 0x5A
  let isNumber (c : UInt8) : Bool := 0x30 ≤ c && c ≤ 0x39
  let shape :=
    (if password.any isLower then ascii "a" else []) ++
    (if password.any isUpper then ascii "A" else []) ++
    (if password.any isNumber then ascii "0" else []) ++
    (if password.any fun c => !isLower c && !isUpper c && !isNumber c then ascii "#" else [])
  if shape = [] then ascii "none" else shape

/-! ## What a read leaves -/

/-- A byte that is put out: no control character and no editing key. -/
def Typed (c : UInt8) : Prop := 0x20 ≤ c.toNat ∧ c.toNat ≠ 0x7F

instance (c : UInt8) : Decidable (Typed c) :=
  inferInstanceAs (Decidable (0x20 ≤ c.toNat ∧ c.toNat ≠ 0x7F))

theorem Typed.ne {c d : UInt8} (hc : Typed c) (hd : ¬ Typed d) : c ≠ d := by
  rintro rfl
  exact hd hc

/-- A typed byte is put out. -/
theorem readLineFrom_typed {c : UInt8} (hc : Typed c) (out : Bytes) (early : Bool)
    (rest : List Arrival) : readLineFrom out (.byte c early :: rest) =
      if maxLineLength < (out ++ [c]).length then ⟨.tooLong, out ++ [c], rest⟩
      else readLineFrom (out ++ [c]) rest := by
  have hlow : ¬ c < 0x20 := by
    intro hlt
    have hlt : c.toNat < 0x20 := UInt8.lt_iff_toNat_lt.mp hlt
    have := hc.1
    omega
  have hedit : ¬ (c = 0x7F ∨ c = 0x08) := by
    rintro (h | h)
    · exact hc.ne (by decide) h
    · exact hc.ne (by decide) h
  rw [readLineFrom, if_neg (hc.ne (by decide)), if_neg (hc.ne (by decide)), if_neg hedit,
    if_neg hlow]

/-- What is put out has no control characters, and is at most one character too long. -/
theorem readLineFrom_out {out : Bytes} (hclean : Clean out) (hlength : out.length ≤ maxLineLength)
    (arrivals : List Arrival) : Clean (readLineFrom out arrivals).out ∧
      (readLineFrom out arrivals).out.length ≤ maxLineLength + 1 := by
  have hadd : ∀ {out : Bytes} {c : UInt8}, Clean out → ¬ (c = 0x7F ∨ c = 0x08) → ¬ c < 0x20 →
      Clean (out ++ [c]) := by
    intro out c hout hedit hlow b hb
    rcases List.mem_append.mp hb with hb | hb
    · exact hout b hb
    · obtain rfl := List.mem_singleton.mp hb
      refine ⟨Nat.le_of_not_lt fun hlt => hlow (UInt8.lt_iff_toNat_lt.mpr hlt), fun heq => ?_⟩
      exact hedit (.inl (UInt8.toNat_inj.mp heq))
  fun_induction readLineFrom out arrivals with
  | case1 | case3 | case4 | case5 | case6 => exact ⟨hclean, Nat.le_succ_of_le hlength⟩
  | case2 out rest ih => exact ih hclean hlength
  | case7 out _ _ _ _ _ _ ih =>
      apply ih
      · exact fun b hb => hclean b (List.mem_of_mem_dropLast hb)
      · rw [List.length_dropLast]
        omega
  | case8 _ _ _ _ _ _ _ _ ih => exact ih hclean hlength
  | case9 out c _ _ _ _ hedit hlow _ =>
      refine ⟨hadd hclean hedit hlow, ?_⟩
      rw [List.length_append, List.length_singleton]
      omega
  | case10 out c _ _ _ _ hedit hlow hlong ih =>
      exact ih (hadd hclean hedit hlow) (Nat.le_of_not_lt hlong)

theorem readLine_clean (arrivals : List Arrival) : Clean (readLine arrivals).out :=
  (readLineFrom_out (by simp [Clean]) (Nat.zero_le _) arrivals).1

theorem readLine_short (arrivals : List Arrival) : (readLine arrivals).out.length ≤ 513 :=
  (readLineFrom_out (by simp [Clean]) (Nat.zero_le _) arrivals).2

/-! ## One line after another -/

/-- The byte that arrives. -/
def Arrival.value? : Arrival → Option UInt8
  | .byte c _ => some c
  | _ => none

/-- The bytes of a part of a connection. -/
def bytesOf (arrivals : List Arrival) : Bytes := arrivals.filterMap Arrival.value?

/-- A line as a client sends it, ended by LF or by CRLF. Between CR and LF no byte arrives,
but time may pass. -/
inductive IsLine : List Arrival → Prop
  | lf (early : Bool) : IsLine [.byte Utf8.lfByte early]
  | crlf (early early' : Bool) {gap : List Arrival} (hgap : ∀ a ∈ gap, a.value? = none) :
      IsLine (.byte crByte early :: (gap ++ [.byte Utf8.lfByte early']))
  | cons {a : Arrival} {rest : List Arrival} (hlf : a.value? ≠ some Utf8.lfByte)
      (hcr : a.value? ≠ some crByte) (hrest : IsLine rest) : IsLine (a :: rest)

/-- A read that finds a line feed does not depend on what follows it. -/
theorem readLineFrom_append (out : Bytes) (init : List Arrival) (early : Bool)
    (ys : List Arrival) : readLineFrom out (init ++ .byte Utf8.lfByte early :: ys) =
      { readLineFrom out (init ++ [.byte Utf8.lfByte early]) with
        rest := (readLineFrom out (init ++ [.byte Utf8.lfByte early])).rest ++ ys } := by
  have hskip : ∀ xs : List Arrival, skipPaired (xs ++ .byte Utf8.lfByte early :: ys) =
      skipPaired (xs ++ [.byte Utf8.lfByte early]) ++ ys := by
    intro xs
    cases xs with
    | nil => cases early <;> rfl
    | cons x xs =>
        cases x with
        | byte c e =>
            simp only [List.cons_append, skipPaired]
            split_ifs
            · simp
            · simp
        | interrupted | timedOut | failed => simp [skipPaired]
  induction init generalizing out with
  | nil => rfl
  | cons a init ih =>
      cases a with
      | interrupted => exact ih out
      | timedOut => simp [readLineFrom]
      | failed => simp [readLineFrom]
      | byte c e =>
          simp only [List.cons_append, readLineFrom]
          split_ifs
          · simp
          · rw [hskip]
          · exact ih _
          · exact ih _
          · simp
          · exact ih _

theorem IsLine.exists_lf {arrivals : List Arrival} (h : IsLine arrivals) :
    ∃ init early, arrivals = init ++ [.byte Utf8.lfByte early] := by
  induction h with
  | lf early => exact ⟨[], early, rfl⟩
  | @crlf early early' gap _ => exact ⟨.byte crByte early :: gap, early', rfl⟩
  | @cons a rest _ _ _ ih =>
      obtain ⟨init, early, rfl⟩ := ih
      exact ⟨a :: init, early, rfl⟩

/-- An accepted line is consumed, or its CR is and its LF is left. -/
theorem IsLine.left {arrivals : List Arrival} (h : IsLine arrivals) {out : Bytes}
    (hok : (readLineFrom out arrivals).status = .ok) :
    (readLineFrom out arrivals).rest = [] ∨ ∃ gap early, (∀ a ∈ gap, a.value? = none) ∧
      (readLineFrom out arrivals).rest = gap ++ [.byte Utf8.lfByte early] := by
  induction h generalizing out with
  | lf early => exact .inl rfl
  | @crlf early early' gap hgap =>
      have hread : (readLineFrom out (.byte crByte early :: (gap ++ [.byte Utf8.lfByte early']))).rest =
          skipPaired (gap ++ [.byte Utf8.lfByte early']) := rfl
      rw [hread]
      cases gap with
      | nil =>
          cases early' with
          | true => exact .inl rfl
          | false => exact .inr ⟨[], false, hgap, rfl⟩
      | cons a gap =>
          refine .inr ⟨a :: gap, early', hgap, ?_⟩
          cases a with
          | byte c e => cases hgap _ List.mem_cons_self
          | interrupted | timedOut | failed => rfl
  | @cons a rest hlf hcr _ ih =>
      cases a with
      | interrupted => exact ih hok
      | timedOut => cases hok
      | failed => cases hok
      | byte c e =>
          have hlf : c ≠ Utf8.lfByte := fun heq => hlf (congrArg some heq)
          have hcr : c ≠ crByte := fun heq => hcr (congrArg some heq)
          simp only [readLineFrom, if_neg hlf, if_neg hcr] at hok ⊢
          split_ifs at hok ⊢
          · exact ih hok
          · exact ih hok
          · exact ih hok

/-- A line feed that was left is read as an empty line. -/
theorem readLineFrom_gap {gap : List Arrival} (hgap : ∀ a ∈ gap, a.value? = none) {out : Bytes}
    {early : Bool} (hok : (readLineFrom out (gap ++ [.byte Utf8.lfByte early])).status = .ok) :
    readLineFrom out (gap ++ [.byte Utf8.lfByte early]) = ⟨.ok, out, []⟩ := by
  induction gap with
  | nil => rfl
  | cons a gap ih =>
      cases a with
      | interrupted => exact ih (fun a ha => hgap a (List.mem_cons_of_mem _ ha)) hok
      | timedOut => cases hok
      | failed => cases hok
      | byte c e => cases hgap _ List.mem_cons_self

/-! ## Two clients that type alike -/

/-- Two arrivals of one schedule, with the same byte or with two typed bytes. -/
inductive Arrival.Alike : Arrival → Arrival → Prop
  | typed {c d : UInt8} (early : Bool) (hc : Typed c) (hd : Typed d) :
      Alike (.byte c early) (.byte d early)
  | interrupted : Alike .interrupted .interrupted
  | timedOut : Alike .timedOut .timedOut
  | failed : Alike .failed .failed

/-- What follows the characters of a line: its end, or no byte at all. -/
inductive Ended : List Arrival → Prop
  | nil : Ended []
  | ending {c : UInt8} (early : Bool) (rest : List Arrival) (hc : c = Utf8.lfByte ∨ c = crByte) :
      Ended (.byte c early :: rest)
  | cons {a : Arrival} {rest : List Arrival} (ha : a.value? = none) (hrest : Ended rest) :
      Ended (a :: rest)

/-- The end of a line adds nothing to it. -/
theorem Ended.readLineFrom {rest : List Arrival} (h : Ended rest) (out : Bytes) :
    readLineFrom out rest = { readLineFrom [] rest with out := out } := by
  induction h with
  | nil => rfl
  | @ending c early rest hc =>
      rcases hc with rfl | rfl
      · rfl
      · rfl
  | @cons a rest ha _ ih =>
      cases a with
      | interrupted => exact ih
      | timedOut => rfl
      | failed => rfl
      | byte c e => cases ha

theorem alike_length {xs ys : List Arrival} (h : List.Forall₂ Arrival.Alike xs ys) :
    (bytesOf xs).length = (bytesOf ys).length := by
  induction h with
  | nil => rfl
  | cons hab _ ih =>
      cases hab with
      | typed early hc hd => exact congrArg Nat.succ ih
      | interrupted | timedOut | failed => exact ih

/-- Reading two lines that are typed alike ends alike. -/
theorem readLineFrom_alike {xs ys rest : List Arrival} (h : List.Forall₂ Arrival.Alike xs ys)
    (hrest : Ended rest) {out out' : Bytes} (hlength : out.length = out'.length) :
    (readLineFrom out (xs ++ rest)).status = (readLineFrom out' (ys ++ rest)).status ∧
      ((readLineFrom out (xs ++ rest)).status = .ok → ∃ left,
        readLineFrom out (xs ++ rest) = ⟨.ok, out ++ bytesOf xs, left⟩ ∧
        readLineFrom out' (ys ++ rest) = ⟨.ok, out' ++ bytesOf ys, left⟩) := by
  induction h generalizing out out' with
  | nil =>
      rw [List.nil_append, hrest.readLineFrom out, hrest.readLineFrom out']
      refine ⟨rfl, fun hok => ⟨(readLineFrom [] rest).rest, ?_, ?_⟩⟩
      · simp [bytesOf, show (readLineFrom [] rest).status = .ok from hok]
      · simp [bytesOf, show (readLineFrom [] rest).status = .ok from hok]
  | @cons a b xs ys hab _ ih =>
      cases hab with
      | interrupted => exact ih hlength
      | timedOut => exact ⟨rfl, nofun⟩
      | failed => exact ⟨rfl, nofun⟩
      | @typed c d early hc hd =>
          have hlength : (out ++ [c]).length = (out' ++ [d]).length := by simp [hlength]
          rw [List.cons_append, List.cons_append, readLineFrom_typed hc, readLineFrom_typed hd,
            ← hlength]
          split_ifs
          · exact ⟨rfl, nofun⟩
          · obtain ⟨hstatus, hout⟩ := ih hlength
            refine ⟨hstatus, fun hok => ?_⟩
            obtain ⟨left, h₁, h₂⟩ := hout hok
            refine ⟨left, h₁.trans ?_, h₂.trans ?_⟩
            · simp [bytesOf, Arrival.value?]
            · simp [bytesOf, Arrival.value?]

end IcsDeception.Decoy
