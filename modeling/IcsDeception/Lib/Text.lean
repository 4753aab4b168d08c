import Mathlib.Data.List.DropRight
import Mathlib.Data.List.Sort
import Mathlib.Data.Fin.Basic
import Mathlib.Order.Fin.Basic

/-!
# Text and bytes as an interpreter holds them

A text is a list of code points. Surrogate code points are admitted, because a
lenient reader can put an unpaired one into a text; encoding is where they are
refused. The module also holds the two whitespace conventions and the line
discipline of a text file.

## Implementation notes

The order on texts is the lexicographic order of the list instance, which is the
comparison by code point.
-/

namespace IcsDeception.Text

/-- A code point, surrogates included. -/
abbrev CodePoint := Fin 0x110000

/-- A text is a list of code points. -/
abbrev Str := List CodePoint

instance lawfulBEq_str : LawfulBEq Str := List.instLawfulBEq

/-- A byte string. -/
abbrev Bytes := List UInt8

/-- A character literal as a code point. -/
def cp (c : Char) : CodePoint :=
  ⟨c.toNat, by
    have h : c.toNat.isValidChar := c.valid
    unfold Nat.isValidChar at h
    omega⟩

/-- The code point of a number; numbers past the last code point wrap and are never used. -/
def ofCode (n : Nat) : CodePoint := ⟨n % 0x110000, Nat.mod_lt _ (by decide)⟩

theorem val_ofCode {n : Nat} (h : n < 0x110000) : (ofCode n).val = n := Nat.mod_eq_of_lt h

theorem ofCode_val (c : CodePoint) : ofCode c.val = c := Fin.ext (Nat.mod_eq_of_lt c.isLt)

/-- The code points of encoded bytes. The numbers are the continuation bytes still due and
the bits read so far of the character they belong to. -/
def codePoints : Nat → Nat → Bytes → Str
  | _, _, [] => []
  | 0, _, b :: bs =>
    if b.toNat < 0x80 then ofCode b.toNat :: codePoints 0 0 bs
    else if b.toNat < 0xE0 then codePoints 1 (b.toNat % 32) bs
    else if b.toNat < 0xF0 then codePoints 2 (b.toNat % 16) bs
    else codePoints 3 (b.toNat % 8) bs
  | 1, v, b :: bs => ofCode (64 * v + b.toNat % 64) :: codePoints 0 0 bs
  | due + 2, v, b :: bs => codePoints (due + 1) (64 * v + b.toNat % 64) bs

/-- A string literal as a text. It is read off the literal's bytes by structural recursion,
because the characters of a string are only found by a recursion that does not evaluate. -/
def lit (s : String) : Str := codePoints 0 0 s.toByteArray.data.toList

theorem codePoints_encodeChar (c : Char) (bs : Bytes) :
    codePoints 0 0 (String.utf8EncodeChar c ++ bs) = cp c :: codePoints 0 0 bs := by
  have hc : c.val.toNat < 0x110000 := (cp c).isLt
  have hcp : cp c = ofCode c.val.toNat := (ofCode_val (cp c)).symm
  have byte {n : Nat} (h : n < 256) : (UInt8.ofNat n).toNat = n := UInt8.toNat_ofNat_of_lt h
  rw [hcp, String.utf8EncodeChar]
  generalize c.val.toNat = v at hc
  split_ifs with h1 h2 h3 <;> simp only [List.cons_append, List.nil_append, codePoints]
  · rw [byte (by omega), if_pos (by omega)]
  · rw [byte (by omega), byte (by omega), if_neg (by omega), if_pos (by omega)]
    congr 2
    omega
  · rw [byte (by omega), byte (by omega), byte (by omega), if_neg (by omega),
      if_neg (by omega), if_pos (by omega)]
    congr 2
    omega
  · rw [byte (by omega), byte (by omega), byte (by omega), byte (by omega),
      if_neg (by omega), if_neg (by omega), if_neg (by omega)]
    congr 2
    omega

theorem codePoints_encode (cs : List Char) :
    codePoints 0 0 (cs.flatMap String.utf8EncodeChar) = cs.map cp := by
  induction cs with
  | nil => rfl
  | cons c cs ih => rw [List.flatMap_cons, codePoints_encodeChar, ih, List.map_cons]

/-- A literal's text is its characters. -/
theorem lit_eq (s : String) : lit s = s.toList.map cp := by
  have h : s.toByteArray.data.toList = s.toList.flatMap String.utf8EncodeChar := by
    rw [← String.ofList_toList (s := s)]
    simp [List.utf8Encode, -String.ofList_toList]
  rw [lit, h, codePoints_encode]

/-- The surrogate range has no encoding. -/
def isSurrogate (c : CodePoint) : Bool := 0xD800 ≤ c.val && c.val ≤ 0xDFFF

/-- A text of scalar values only, which are the texts that have an encoding. -/
def Scalar (s : Str) : Prop := ∀ c ∈ s, isSurrogate c = false

instance (s : Str) : Decidable (Scalar s) := List.decidableBAll (fun c => isSurrogate c = false) s

theorem scalar_nil : Scalar [] := by simp [Scalar]

theorem scalar_cons {c : CodePoint} {s : Str} :
    Scalar (c :: s) ↔ isSurrogate c = false ∧ Scalar s := by
  simp [Scalar]

theorem scalar_append {s t : Str} : Scalar (s ++ t) ↔ Scalar s ∧ Scalar t := by
  simp [Scalar, or_imp, forall_and]

/-- Line feed. -/
def lf : CodePoint := cp '\n'

/-- Carriage return. -/
def cr : CodePoint := cp '\r'

/-- The characters that `strip` removes from a text. -/
def isSpace (c : CodePoint) : Bool :=
  (0x09 ≤ c.val && c.val ≤ 0x0D) || (0x1C ≤ c.val && c.val ≤ 0x20) || c.val == 0x85 ||
    c.val == 0xA0 || c.val == 0x1680 || (0x2000 ≤ c.val && c.val ≤ 0x200A) ||
    c.val == 0x2028 || c.val == 0x2029 || c.val == 0x202F || c.val == 0x205F ||
    c.val == 0x3000

/-- The characters that `strip` removes from a byte string. -/
def isAsciiSpace (b : UInt8) : Bool := (0x09 ≤ b && b ≤ 0x0D) || b == 0x20

/-- Remove the elements satisfying `p` from both ends. -/
def stripWith {α : Type*} (p : α → Bool) (s : List α) : List α := (s.dropWhile p).rdropWhile p

/-- `str.strip()`. -/
def strip (s : Str) : Str := stripWith isSpace s

/-- `bytes.strip()`. -/
def stripBytes (b : Bytes) : Bytes := stripWith isAsciiSpace b

/-- Stripping keeps a middle part whose two ends are not removable. -/
theorem stripWith_eq {α : Type*} {p : α → Bool} {l m r : List α}
    (hl : ∀ x ∈ l, p x = true) (hr : ∀ x ∈ r, p x = true)
    (hhead : ∀ x ∈ m.head?, p x = false) (hlast : ∀ x ∈ m.getLast?, p x = false)
    (hm : m ≠ []) : stripWith p (l ++ m ++ r) = m := by
  obtain ⟨a, t, rfl⟩ : ∃ a t, m = a :: t := List.exists_cons_of_ne_nil hm
  have ha : p a = false := hhead a rfl
  have hd : (l ++ a :: t ++ r).dropWhile p = a :: t ++ r := by
    rw [List.append_assoc, List.dropWhile_append_of_pos hl]
    simp [ha]
  have hr' : (a :: t ++ r).rdropWhile p = (a :: t).rdropWhile p := by
    rw [List.rdropWhile, List.rdropWhile, List.reverse_append, List.dropWhile_append_of_pos]
    intro x hx
    exact hr x (List.mem_reverse.mp hx)
  rw [stripWith, hd, hr', List.rdropWhile_eq_self_iff]
  intro hne
  rw [hlast _ (List.getLast?_eq_some_getLast hne)]
  decide

/-- A text whose ends are not whitespace is its own strip. -/
theorem strip_eq_self {m : Str} (hhead : ∀ x ∈ m.head?, isSpace x = false)
    (hlast : ∀ x ∈ m.getLast?, isSpace x = false) (hm : m ≠ []) : strip m = m := by
  have h := stripWith_eq (p := isSpace) (l := []) (r := []) (by simp) (by simp) hhead hlast hm
  simpa [strip] using h

theorem head?_strip {s : Str} : ∀ c ∈ (strip s).head?, isSpace c = false := by
  intro c hc
  unfold strip stripWith at hc
  obtain ⟨t, ht⟩ := List.rdropWhile_prefix isSpace (s.dropWhile isSpace)
  cases hr : (s.dropWhile isSpace).rdropWhile isSpace with
  | nil =>
      rw [hr] at hc
      cases hc
  | cons d r =>
      rw [hr] at hc ht
      obtain rfl := Option.some.inj hc
      have hne : s.dropWhile isSpace ≠ [] := by simp [← ht]
      have hhead := List.head_dropWhile_not isSpace hne
      simpa [← ht] using hhead

theorem getLast?_strip {s : Str} : ∀ c ∈ (strip s).getLast?, isSpace c = false := by
  intro c hc
  obtain ⟨hne, rfl⟩ := List.mem_getLast?_eq_getLast hc
  exact Bool.eq_false_iff.mpr (List.rdropWhile_last_not isSpace (s.dropWhile isSpace) hne)

/-- A stripped text has nothing left to strip. -/
theorem strip_strip (s : Str) : strip (strip s) = strip s := by
  by_cases h : strip s = []
  · rw [h]
    rfl
  · exact strip_eq_self head?_strip getLast?_strip h

/-- Newline translation after a character that was (`true`) or was not a CR. -/
def newlinesFrom : Bool → Str → Str
  | _, [] => []
  | afterCr, c :: rest =>
      if c = cr then lf :: newlinesFrom true rest
      else if c = lf ∧ afterCr = true then newlinesFrom false rest
      else c :: newlinesFrom false rest

/-- Universal newline translation: CR LF and a lone CR both become LF. -/
def universalNewlines (s : Str) : Str := newlinesFrom false s

/-- A text without CR is unchanged by newline translation. -/
theorem universalNewlines_eq_self {s : Str} (h : cr ∉ s) : universalNewlines s = s := by
  unfold universalNewlines
  induction s with
  | nil => rfl
  | cons c rest ih =>
      simp only [List.mem_cons, not_or] at h
      rw [newlinesFrom, if_neg (Ne.symm h.1), if_neg (by simp), ih h.2]

/-- The lines of a text file, each with its newline, the last one possibly without. -/
def splitLines : Str → List Str
  | [] => []
  | c :: rest =>
      if c = lf then [c] :: splitLines rest
      else
        match splitLines rest with
        | [] => [[c]]
        | line :: more => (c :: line) :: more

/-- A newline-free text followed by LF is the first line. -/
theorem splitLines_append {s t : Str} (h : lf ∉ s) :
    splitLines (s ++ lf :: t) = (s ++ [lf]) :: splitLines t := by
  induction s with
  | nil => simp [splitLines]
  | cons c rest ih =>
      simp only [List.mem_cons, not_or] at h
      rw [List.cons_append, splitLines, if_neg (Ne.symm h.1), ih h.2]
      rfl

/-- A newline-free nonempty text is its own only line. -/
theorem splitLines_single {s : Str} (h : lf ∉ s) (hne : s ≠ []) : splitLines s = [s] := by
  induction s with
  | nil => exact absurd rfl hne
  | cons c rest ih =>
      simp only [List.mem_cons, not_or] at h
      rw [splitLines, if_neg (Ne.symm h.1)]
      cases rest with
      | nil => rfl
      | cons d tail => rw [ih h.2 (by simp)]

/-- A file of complete newline-free lines is read back line by line. -/
theorem splitLines_flatMap {ls : List Str} (h : ∀ s ∈ ls, lf ∉ s) :
    splitLines (ls.flatMap fun s => s ++ [lf]) = ls.map fun s => s ++ [lf] := by
  induction ls with
  | nil => rfl
  | cons s rest ih =>
      have hs : lf ∉ s := h s (by simp)
      have hr : ∀ t ∈ rest, lf ∉ t := fun t ht => h t (by simp [ht])
      simp only [List.flatMap_cons, List.map_cons, List.append_assoc, List.cons_append,
        List.nil_append]
      rw [splitLines_append hs, ih hr]

end IcsDeception.Text
