import IcsDeception.Lib.Text
import Mathlib.Data.Nat.Digits.Lemmas

/-!
# Decimal texts

Numbers written with ASCII digits, with and without padding, and their reading.
-/

namespace IcsDeception.Decimal

open Text

/-- The decimal digit of a number below ten. -/
def digitChar (n : Nat) : CodePoint := ofCode (0x30 + n)

/-- The decimal digits of a natural number, most significant first. -/
def natText (n : Nat) : Str :=
  if n = 0 then [digitChar 0] else (Nat.digits 10 n).reverse.map digitChar

/-- The decimal text of an integer. -/
def intText (i : Int) : Str :=
  if i < 0 then cp '-' :: natText i.natAbs else natText i.natAbs

/-- An ASCII digit. -/
def isDigit (c : CodePoint) : Bool := 0x30 ≤ c.val && c.val ≤ 0x39

/-- The number denoted by a list of digits. -/
def digitsValue (s : Str) : Nat := s.foldl (fun n c => n * 10 + (c.val - 0x30)) 0

/-- Exactly `k` digits, padded with zeros and cut to the lowest ones. -/
def padded : Nat → Nat → Str
  | 0, _ => []
  | k + 1, n => padded k (n / 10) ++ [digitChar (n % 10)]

theorem isDigit_digitChar : ∀ n < 10, isDigit (digitChar n) = true := by decide

theorem digitChar_val {n : Nat} (h : n < 10) : (digitChar n).val - 0x30 = n := by
  rw [digitChar, val_ofCode (by omega)]
  omega

theorem natText_zero : natText 0 = [cp '0'] := by decide

theorem natText_pos {n : Nat} (h : n ≠ 0) :
    natText n = (Nat.digits 10 n).reverse.map digitChar := if_neg h

theorem isDigit_of_mem_natText {n : Nat} {c : CodePoint} (h : c ∈ natText n) :
    isDigit c = true := by
  by_cases hn : n = 0
  · subst hn
    rw [natText_zero, List.mem_singleton] at h
    subst h
    decide
  · rw [natText_pos hn, List.mem_map] at h
    obtain ⟨d, hd, rfl⟩ := h
    exact isDigit_digitChar d (Nat.digits_lt_base (by decide) (List.mem_reverse.mp hd))

theorem digitsValue_natText (n : Nat) : digitsValue (natText n) = n := by
  by_cases hn : n = 0
  · subst hn
    decide
  · have hlt : ∀ d ∈ Nat.digits 10 n, d < 10 := fun d hd => Nat.digits_lt_base (by decide) hd
    rw [natText_pos hn, digitsValue, List.foldl_map, List.foldl_reverse]
    conv_rhs => rw [← Nat.ofDigits_digits 10 n, Nat.ofDigits_eq_foldr]
    generalize Nat.digits 10 n = ds at hlt
    induction ds with
    | nil => rfl
    | cons d ds ih =>
        have hd := digitChar_val (hlt d (by simp))
        simp only [List.foldr_cons, hd, ih fun e he => hlt e (by simp [he]), Nat.cast_id]
        ring

theorem natText_ne_nil (n : Nat) : natText n ≠ [] := by
  by_cases hn : n = 0
  · subst hn
    decide
  · rw [natText_pos hn]
    simpa using Nat.digits_ne_nil_iff_ne_zero.mpr hn

theorem digitChar_ne_zero {d : Nat} (hd : d < 10) (h0 : d ≠ 0) : digitChar d ≠ cp '0' := by
  have key : ∀ d < 10, d ≠ 0 → digitChar d ≠ cp '0' := by decide
  exact key d hd h0

/-- The head of the digits of a positive number is not zero. -/
theorem natText_head {n : Nat} (hn : n ≠ 0) : ∃ c t, natText n = c :: t ∧ c ≠ cp '0' := by
  have hne : Nat.digits 10 n ≠ [] := Nat.digits_ne_nil_iff_ne_zero.mpr hn
  have hl := Nat.getLast_digit_ne_zero 10 hn
  refine ⟨digitChar ((Nat.digits 10 n).getLast hne), ((Nat.digits 10 n).dropLast).reverse.map digitChar,
    ?_, digitChar_ne_zero (Nat.digits_lt_base (by decide) (List.getLast_mem hne)) hl⟩
  rw [natText_pos hn]
  conv_lhs => rw [← List.dropLast_append_getLast hne]
  simp

@[simp] theorem padded_length (k n : Nat) : (padded k n).length = k := by
  induction k generalizing n with
  | zero => rfl
  | succ k ih => simp [padded, ih]

theorem isDigit_of_mem_padded {k n : Nat} {c : CodePoint} (h : c ∈ padded k n) :
    isDigit c = true := by
  induction k generalizing n with
  | zero => simp [padded] at h
  | succ k ih =>
      rw [padded, List.mem_append, List.mem_singleton] at h
      rcases h with h | rfl
      · exact ih h
      · exact isDigit_digitChar _ (Nat.mod_lt _ (by decide))

/-- Padded digits are read back, up to the number of digits. -/
theorem digitsValue_padded {k n : Nat} (h : n < 10 ^ k) : digitsValue (padded k n) = n := by
  induction k generalizing n with
  | zero =>
      simp only [pow_zero, Nat.lt_one_iff] at h
      subst h
      rfl
  | succ k ih =>
      have hlt : n / 10 < 10 ^ k := by
        rw [pow_succ] at h
        omega
      have hd := digitChar_val (Nat.mod_lt n (show 10 > 0 by decide))
      have hi := ih hlt
      simp only [digitsValue] at hi
      simp only [padded, digitsValue, List.foldl_append, List.foldl_cons, List.foldl_nil, hi, hd]
      omega

theorem foldl_digits_lt {ds : Str} (h : ∀ c ∈ ds, isDigit c = true) (n : Nat) :
    ds.foldl (fun n c => n * 10 + (c.val - 0x30)) n < (n + 1) * 10 ^ ds.length := by
  induction ds generalizing n with
  | nil => simp
  | cons c rest ih =>
      have hc : c.val ≤ 0x39 := by
        have hc := h c (by simp)
        simp only [isDigit, Bool.and_eq_true, decide_eq_true_eq] at hc
        exact hc.2
      have hr := ih (fun d hd => h d (by simp [hd])) (n * 10 + (c.val - 0x30))
      calc (c :: rest).foldl (fun n c => n * 10 + (c.val - 0x30)) n
          = rest.foldl (fun n c => n * 10 + (c.val - 0x30)) (n * 10 + (c.val - 0x30)) := rfl
        _ < (n * 10 + (c.val - 0x30) + 1) * 10 ^ rest.length := hr
        _ ≤ ((n + 1) * 10) * 10 ^ rest.length := by
            gcongr
            omega
        _ = (n + 1) * 10 ^ (c :: rest).length := by
            rw [List.length_cons, pow_succ', mul_assoc]

theorem digitsValue_lt {ds : Str} (h : ∀ c ∈ ds, isDigit c = true) :
    digitsValue ds < 10 ^ ds.length := by
  simpa [digitsValue] using foldl_digits_lt h 0

theorem natText_length_le {n k : Nat} (hk : 0 < k) (h : n < 10 ^ k) : (natText n).length ≤ k := by
  unfold natText
  split_ifs with hn
  · exact hk
  · rw [List.length_map, List.length_reverse]
    exact (Nat.digits_length_le_iff (by decide) n).mpr h

end IcsDeception.Decimal
