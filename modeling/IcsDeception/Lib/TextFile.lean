import IcsDeception.Lib.Utf8

/-!
# Reading the lines of a file

A file opened as text is decoded, its newlines are translated and the result is cut
into lines. A file opened as bytes is cut at the byte LF. The lines of the first
reading, blank ones aside, are the pieces of the decoded lines of the second between
carriage returns.
-/

namespace IcsDeception.Text

/-- The characters that end a line after newline translation. -/
def isBreak (c : CodePoint) : Bool := c == lf || c == cr

theorem isBreak_eq_false {c : CodePoint} : isBreak c = false ↔ c ≠ lf ∧ c ≠ cr := by
  simp [isBreak]

theorem forall_or_first_break (s : Str) : (∀ c ∈ s, isBreak c = false) ∨
    ∃ u b v, s = u ++ b :: v ∧ isBreak b = true ∧ ∀ c ∈ u, isBreak c = false := by
  induction s with
  | nil => exact .inl (by simp)
  | cons x s ih =>
      cases hx : isBreak x with
      | true => exact .inr ⟨[], x, s, rfl, hx, by simp⟩
      | false =>
          rcases ih with h | ⟨u, b, v, rfl, hb, hu⟩
          · exact .inl (List.forall_mem_cons.mpr ⟨hx, h⟩)
          · exact .inr ⟨x :: u, b, v, rfl, hb, List.forall_mem_cons.mpr ⟨hx, hu⟩⟩

theorem forall_or_last_break (s : Str) : (∀ c ∈ s, isBreak c = false) ∨
    ∃ u b v, s = u ++ b :: v ∧ isBreak b = true ∧ ∀ c ∈ v, isBreak c = false := by
  induction s with
  | nil => exact .inl (by simp)
  | cons x s ih =>
      rcases ih with h | ⟨u, b, v, rfl, hb, hv⟩
      · cases hx : isBreak x with
        | true => exact .inr ⟨[], x, s, rfl, hx, h⟩
        | false => exact .inl (List.forall_mem_cons.mpr ⟨hx, h⟩)
      · exact .inr ⟨x :: u, b, v, rfl, hb, hv⟩

/-- A part of a text without line breaks stands in one of its pieces, between characters
of what surrounds it. -/
theorem piece_around {w m w' : Str} (hm : ∀ c ∈ m, isBreak c = false) :
    ∃ a b, a ++ (m ++ b) ∈ (w ++ (m ++ w')).splitOnP isBreak ∧ (∀ c ∈ a, c ∈ w) ∧
      ∀ c ∈ b, c ∈ w' := by
  -- behind a start without breaks, the piece goes up to the first break of `w'`
  have hright : ∀ a : Str, (∀ c ∈ a, isBreak c = false) →
      ∃ b, a ++ (m ++ b) ∈ (a ++ (m ++ w')).splitOnP isBreak ∧ ∀ c ∈ b, c ∈ w' := by
    intro a ha
    have ham : ∀ u : Str, (∀ c ∈ u, isBreak c = false) →
        ∀ c ∈ a ++ (m ++ u), isBreak c = false := by
      intro u hu c hc
      rcases List.mem_append.mp hc with hc | hc
      · exact ha c hc
      · exact (List.mem_append.mp hc).elim (hm c) (hu c)
    rcases forall_or_first_break w' with h | ⟨u, b, v, rfl, hb, hu⟩
    · refine ⟨w', ?_, fun _ hc => hc⟩
      rw [List.splitOnP_eq_singleton (ham w' h)]
      exact List.mem_singleton_self _
    · refine ⟨u, ?_, fun c hc => List.mem_append_left _ hc⟩
      have : a ++ (m ++ (u ++ b :: v)) = (a ++ (m ++ u)) ++ b :: v := by simp
      rw [this, List.splitOnP_append_cons_of_forall_mem (ham u hu) b hb]
      exact List.mem_cons_self
  rcases forall_or_last_break w with h | ⟨u, b, v, rfl, hb, hv⟩
  · obtain ⟨b, hmem, hb⟩ := hright w h
    exact ⟨w, b, hmem, fun _ hc => hc, hb⟩
  · obtain ⟨b', hmem, hb'⟩ := hright v hv
    refine ⟨v, b', ?_, fun c hc => by simp [hc], hb'⟩
    rw [List.append_assoc, List.cons_append, List.splitOnP_append_cons _ _ hb]
    exact List.mem_append_right _ hmem

/-- The nonempty strips of a list of texts. -/
def strips (ls : List Str) : List Str := (ls.map strip).filter (· ≠ [])

theorem strips_cons (s : Str) (ls : List Str) :
    strips (s :: ls) = (if strip s ≠ [] then [strip s] else []) ++ strips ls := by
  simp only [strips, List.map_cons, List.filter_cons]
  by_cases h : strip s = [] <;> simp [h]

theorem strips_append (ls ms : List Str) : strips (ls ++ ms) = strips ls ++ strips ms := by
  simp [strips]

theorem mem_strips {ls : List Str} {m : Str} :
    m ∈ strips ls ↔ (∃ s ∈ ls, strip s = m) ∧ m ≠ [] := by
  simp [strips]

theorem strip_append_lf (s : Str) : strip (s ++ [lf]) = strip s := by
  have hlf : isSpace lf = true := by decide
  unfold strip stripWith
  by_cases h : ∀ c ∈ s, isSpace c = true
  · rw [List.dropWhile_append_of_pos h, List.dropWhile_eq_nil_iff.mpr h]
    simp [hlf]
  · have hne : s.dropWhile isSpace ≠ [] := fun he => h (List.dropWhile_eq_nil_iff.mp he)
    rw [List.dropWhile_append, if_neg (by simpa using hne), List.rdropWhile_concat_pos _ _ _ hlf]

theorem strip_nil : strip [] = [] := rfl

/-- The lines of a translated text behind a piece without line breaks. -/
theorem strips_splitLines (acc : Str) (hacc : ∀ c ∈ acc, isBreak c = false) (afterCr : Bool)
    (hcr : afterCr = true → acc = []) (s : Str) :
    strips (splitLines (acc ++ newlinesFrom afterCr s)) =
      strips ((acc ++ s).splitOnP isBreak) := by
  have hlf : lf ∉ acc := fun h => (isBreak_eq_false.mp (hacc lf h)).1 rfl
  induction s generalizing acc afterCr with
  | nil =>
      rw [newlinesFrom, List.append_nil, List.splitOnP_eq_singleton hacc]
      by_cases hne : acc = []
      · rw [hne]
        rfl
      · rw [splitLines_single hlf hne]
  | cons c rest ih =>
      have hline : isBreak c = true →
          strips (splitLines (acc ++ lf :: newlinesFrom (c == cr) rest)) =
            strips ((acc ++ c :: rest).splitOnP isBreak) := by
        intro hc
        rw [splitLines_append hlf, List.splitOnP_append_cons_of_forall_mem hacc c hc, strips_cons,
          strips_cons, strip_append_lf]
        congr 1
        exact ih [] (by simp) _ (fun _ => rfl) (by simp)
      rw [newlinesFrom]
      split_ifs with h₁ h₂
      · have := hline (by simp [isBreak, h₁])
        simpa [h₁] using this
      · obtain ⟨rfl, hafter⟩ := h₂
        rw [hcr hafter, List.nil_append, List.nil_append, List.splitOnP_cons_eq_if_modifyHead,
          if_pos (by decide), strips_cons, strip_nil]
        exact ih [] (by simp) false (by simp) (by simp)
      · by_cases hc : c = lf
        · have := hline (by simp [isBreak, hc])
          simpa [hc, show (lf == cr) = false by decide] using this
        · have hb : isBreak c = false := isBreak_eq_false.mpr ⟨hc, h₁⟩
          have hacc' : ∀ x ∈ acc ++ [c], isBreak x = false := by
            intro x hx
            rcases List.mem_append.mp hx with hx | hx
            · exact hacc x hx
            · rw [List.mem_singleton.mp hx, hb]
          have := ih (acc ++ [c]) hacc' false (by simp)
            (fun h => (isBreak_eq_false.mp (hacc' lf h)).1 rfl)
          simpa using this

/-- The lines of a text file, blank ones aside, are the pieces between line breaks. -/
theorem strips_lines (s : Str) :
    strips (splitLines (universalNewlines s)) = strips (s.splitOnP isBreak) :=
  strips_splitLines [] (by simp) false (by simp) s

end IcsDeception.Text

namespace IcsDeception.Utf8

open Text

/-- The byte LF. -/
def lfByte : UInt8 := 0x0A

/-- The lines of a file as bytes, without their line feeds. -/
def rawLines (content : Bytes) : List Bytes := content.splitOnP (· == lfByte)

theorem isCont_iff {b : UInt8} : isCont b = true ↔ 0x80 ≤ b.toNat ∧ b.toNat ≤ 0xBF := by
  simp [isCont]

theorem isCont_of_ascii {b : UInt8} (hb : b.toNat < 0x80) : isCont b = false := by
  simp only [isCont, Bool.and_eq_false_iff, decide_eq_false_iff_not]
  omega

theorem isSecond_of_ascii (lead : UInt8) {b : UInt8} (hb : b.toNat < 0x80) :
    isSecond lead b = false := by
  simp [isSecond, isCont_of_ascii hb]

theorem isSecond_bounds {lead b : UInt8} (h : isSecond lead b = true) :
    (0x80 ≤ b.toNat ∧ b.toNat ≤ 0xBF) ∧ (lead.toNat = 0xE0 → 0xA0 ≤ b.toNat) ∧
      (lead.toNat = 0xF0 → 0x90 ≤ b.toNat) ∧ (lead.toNat = 0xF4 → b.toNat ≤ 0x8F) := by
  simp only [isSecond, Bool.and_eq_true, Bool.or_eq_true, decide_eq_true_eq, bne_iff_ne] at h
  obtain ⟨⟨⟨⟨hc, h₁⟩, -⟩, h₂⟩, h₃⟩ := h
  refine ⟨isCont_iff.mp hc, fun hl => ?_, fun hl => ?_, fun hl => ?_⟩
  · exact h₁.resolve_left fun hne => hne (UInt8.toNat_inj.mp hl)
  · exact h₂.resolve_left fun hne => hne (UInt8.toNat_inj.mp hl)
  · exact h₃.resolve_left fun hne => hne (UInt8.toNat_inj.mp hl)

/-- What one step of the decoder does: it takes a piece off the front, and takes the same
piece when an ASCII byte stands behind the text. Only an ASCII byte decodes to itself. -/
structure Step (b0 : UInt8) (t0 : Bytes) (x : Option CodePoint) (rest : Bytes) : Prop where
  shorter : rest.length ≤ t0.length
  suffix : ∀ b ∈ rest, b ∈ t0
  alone : decode (b0 :: t0) = x :: decode rest
  before : ∀ b t, b.toNat < 0x80 → decode (b0 :: (t0 ++ b :: t)) = x :: decode (rest ++ b :: t)
  ascii : b0.toNat < 0x80 → x = some (ofCode b0.toNat) ∧ rest = t0
  high : ¬ b0.toNat < 0x80 → ∀ c, x = some c → 0x80 ≤ c.val

theorem step_ascii {b0 : UInt8} (h : b0.toNat < 0x80) (t0 : Bytes) :
    Step b0 t0 (some (ofCode b0.toNat)) t0 where
  shorter := le_rfl
  suffix _ hb := hb
  alone := decode_ascii h t0
  before _ _ _ := decode_ascii h _
  ascii _ := ⟨rfl, rfl⟩
  high hn := absurd h hn

/-- A sequence of several bytes that stands for a character. -/
theorem step_some {b0 : UInt8} (h₀ : ¬ b0.toNat < 0x80) {p rest : Bytes} {n : Nat}
    (hn : 0x80 ≤ n ∧ n < 0x110000)
    (h : ∀ t, decode (b0 :: (p ++ t)) = some (ofCode n) :: decode t) :
    Step b0 (p ++ rest) (some (ofCode n)) rest where
  shorter := by simp
  suffix _ hb := List.mem_append_right _ hb
  alone := h rest
  before b t _ := by
    rw [List.append_assoc]
    exact h _
  ascii hn := absurd hn h₀
  high _ c hc := by
    rw [← Option.some.inj hc, val_ofCode hn.2]
    exact hn.1

/-- A sequence that is broken off by a byte that does not continue it. -/
theorem step_none {b0 : UInt8} (h₀ : ¬ b0.toNat < 0x80) {p rest : Bytes}
    (h : ∀ t, (∀ b ∈ t.head?, b ∈ rest.head? ∨ rest = [] ∧ b.toNat < 0x80) →
      decode (b0 :: (p ++ t)) = none :: decode t) :
    Step b0 (p ++ rest) none rest where
  shorter := by simp
  suffix _ hb := List.mem_append_right _ hb
  alone := h rest fun _ hb => .inl hb
  before b t hb := by
    rw [List.append_assoc]
    apply h
    intro x hx
    cases rest with
    | nil =>
        obtain rfl := Option.some.inj hx
        exact .inr ⟨rfl, hb⟩
    | cons d rest => exact .inl hx
  ascii hn := absurd hn h₀
  high _ := nofun

theorem step_two {b0 : UInt8} (h : 0xC2 ≤ b0.toNat ∧ b0.toNat ≤ 0xDF) (t0 : Bytes) :
    ∃ x rest, Step b0 t0 x rest := by
  have h₀ : ¬ b0.toNat < 0x80 := by omega
  have hbroken : ∀ t : Bytes, (∀ b ∈ t.head?, isCont b = false) →
      decode (b0 :: t) = none :: decode t := by
    intro t ht
    rw [decode.eq_def]
    cases t with
    | nil =>
        simp only [if_neg h₀, if_pos h]
        rfl
    | cons b1 t1 => simp only [if_neg h₀, if_pos h, ht b1 rfl, Bool.false_eq_true, if_false]
  match t0 with
  | [] =>
      refine ⟨none, [], step_none (p := []) h₀ fun t ht => hbroken t fun b hb => ?_⟩
      exact isCont_of_ascii ((ht b hb).resolve_left nofun).2
  | b1 :: t1 =>
      by_cases h₁ : isCont b1 = true
      · have := isCont_iff.mp h₁
        exact ⟨_, t1, step_some (p := [b1]) h₀ (by unfold low; omega) (decode_two h h₁)⟩
      · refine ⟨none, b1 :: t1, step_none (p := []) h₀ fun t ht => hbroken t fun b hb => ?_⟩
        obtain rfl : b1 = b := Option.some.inj ((ht b hb).resolve_right nofun)
        exact Bool.eq_false_iff.mpr h₁

theorem step_three {b0 : UInt8} (h : 0xE0 ≤ b0.toNat ∧ b0.toNat ≤ 0xEF) (t0 : Bytes) :
    ∃ x rest, Step b0 t0 x rest := by
  have h₀ : ¬ b0.toNat < 0x80 := by omega
  have h₂ : ¬ (0xC2 ≤ b0.toNat ∧ b0.toNat ≤ 0xDF) := by omega
  have hbroken : ∀ t : Bytes, (∀ b ∈ t.head?, isSecond b0 b = false) →
      decode (b0 :: t) = none :: decode t := by
    intro t ht
    rw [decode.eq_def]
    cases t with
    | nil =>
        simp only [if_neg h₀, if_neg h₂, if_pos h]
        rfl
    | cons b1 t1 =>
        simp only [if_neg h₀, if_neg h₂, if_pos h, ht b1 rfl, Bool.false_eq_true, if_false]
  have hbroken₂ : ∀ b1 (t : Bytes), isSecond b0 b1 = true → (∀ b ∈ t.head?, isCont b = false) →
      decode (b0 :: b1 :: t) = none :: decode t := by
    intro b1 t h₁ ht
    rw [decode.eq_def]
    cases t with
    | nil =>
        simp only [if_neg h₀, if_neg h₂, if_pos h, if_pos h₁]
        rfl
    | cons b2 t2 =>
        simp only [if_neg h₀, if_neg h₂, if_pos h, if_pos h₁, ht b2 rfl, Bool.false_eq_true, if_false]
  match t0 with
  | [] =>
      refine ⟨none, [], step_none (p := []) h₀ fun t ht => hbroken t fun b hb => ?_⟩
      exact isSecond_of_ascii b0 ((ht b hb).resolve_left nofun).2
  | b1 :: t1 =>
      by_cases h₁ : isSecond b0 b1 = true
      · match t1 with
        | [] =>
            refine ⟨none, [], step_none (p := [b1]) h₀ fun t ht => hbroken₂ b1 t h₁ fun b hb => ?_⟩
            exact isCont_of_ascii ((ht b hb).resolve_left nofun).2
        | b2 :: t2 =>
            by_cases h₃ : isCont b2 = true
            · have := isSecond_bounds h₁
              have := isCont_iff.mp h₃
              exact ⟨_, t2, step_some (p := [b1, b2]) h₀ (by unfold low; omega)
                (decode_three h h₁ h₃)⟩
            · refine ⟨none, b2 :: t2, step_none (p := [b1]) h₀ fun t ht =>
                hbroken₂ b1 t h₁ fun b hb => ?_⟩
              obtain rfl : b2 = b := Option.some.inj ((ht b hb).resolve_right nofun)
              exact Bool.eq_false_iff.mpr h₃
      · refine ⟨none, b1 :: t1, step_none (p := []) h₀ fun t ht => hbroken t fun b hb => ?_⟩
        obtain rfl : b1 = b := Option.some.inj ((ht b hb).resolve_right nofun)
        exact Bool.eq_false_iff.mpr h₁

theorem step_four {b0 : UInt8} (h : 0xF0 ≤ b0.toNat ∧ b0.toNat ≤ 0xF4) (t0 : Bytes) :
    ∃ x rest, Step b0 t0 x rest := by
  have h₀ : ¬ b0.toNat < 0x80 := by omega
  have h₂ : ¬ (0xC2 ≤ b0.toNat ∧ b0.toNat ≤ 0xDF) := by omega
  have h₃ : ¬ (0xE0 ≤ b0.toNat ∧ b0.toNat ≤ 0xEF) := by omega
  have hbroken : ∀ t : Bytes, (∀ b ∈ t.head?, isSecond b0 b = false) →
      decode (b0 :: t) = none :: decode t := by
    intro t ht
    rw [decode.eq_def]
    cases t with
    | nil =>
        simp only [if_neg h₀, if_neg h₂, if_neg h₃, if_pos h]
        rfl
    | cons b1 t1 =>
        simp only [if_neg h₀, if_neg h₂, if_neg h₃, if_pos h, ht b1 rfl, Bool.false_eq_true, if_false]
  have hbroken₂ : ∀ b1 (t : Bytes), isSecond b0 b1 = true → (∀ b ∈ t.head?, isCont b = false) →
      decode (b0 :: b1 :: t) = none :: decode t := by
    intro b1 t h₁ ht
    rw [decode.eq_def]
    cases t with
    | nil =>
        simp only [if_neg h₀, if_neg h₂, if_neg h₃, if_pos h, if_pos h₁]
        rfl
    | cons b2 t2 =>
        simp only [if_neg h₀, if_neg h₂, if_neg h₃, if_pos h, if_pos h₁, ht b2 rfl,
          Bool.false_eq_true, if_false]
  have hbroken₃ : ∀ b1 b2 (t : Bytes), isSecond b0 b1 = true → isCont b2 = true →
      (∀ b ∈ t.head?, isCont b = false) → decode (b0 :: b1 :: b2 :: t) = none :: decode t := by
    intro b1 b2 t h₁ hb₂ ht
    rw [decode.eq_def]
    cases t with
    | nil =>
        simp only [if_neg h₀, if_neg h₂, if_neg h₃, if_pos h, if_pos h₁, if_pos hb₂]
        rfl
    | cons b3 t3 =>
        simp only [if_neg h₀, if_neg h₂, if_neg h₃, if_pos h, if_pos h₁, if_pos hb₂, ht b3 rfl,
          Bool.false_eq_true, if_false]
  match t0 with
  | [] =>
      refine ⟨none, [], step_none (p := []) h₀ fun t ht => hbroken t fun b hb => ?_⟩
      exact isSecond_of_ascii b0 ((ht b hb).resolve_left nofun).2
  | b1 :: t1 =>
      by_cases h₁ : isSecond b0 b1 = true
      · match t1 with
        | [] =>
            refine ⟨none, [], step_none (p := [b1]) h₀ fun t ht => hbroken₂ b1 t h₁ fun b hb => ?_⟩
            exact isCont_of_ascii ((ht b hb).resolve_left nofun).2
        | b2 :: t2 =>
            by_cases hb₂ : isCont b2 = true
            · match t2 with
              | [] =>
                  refine ⟨none, [], step_none (p := [b1, b2]) h₀ fun t ht =>
                    hbroken₃ b1 b2 t h₁ hb₂ fun b hb => ?_⟩
                  exact isCont_of_ascii ((ht b hb).resolve_left nofun).2
              | b3 :: t3 =>
                  by_cases hb₃ : isCont b3 = true
                  · have := isSecond_bounds h₁
                    have := isCont_iff.mp hb₂
                    have := isCont_iff.mp hb₃
                    exact ⟨_, t3, step_some (p := [b1, b2, b3]) h₀ (by unfold low; omega)
                      (decode_four h h₁ hb₂ hb₃)⟩
                  · refine ⟨none, b3 :: t3, step_none (p := [b1, b2]) h₀ fun t ht =>
                      hbroken₃ b1 b2 t h₁ hb₂ fun b hb => ?_⟩
                    obtain rfl : b3 = b := Option.some.inj ((ht b hb).resolve_right nofun)
                    exact Bool.eq_false_iff.mpr hb₃
            · refine ⟨none, b2 :: t2, step_none (p := [b1]) h₀ fun t ht =>
                hbroken₂ b1 t h₁ fun b hb => ?_⟩
              obtain rfl : b2 = b := Option.some.inj ((ht b hb).resolve_right nofun)
              exact Bool.eq_false_iff.mpr hb₂
      · refine ⟨none, b1 :: t1, step_none (p := []) h₀ fun t ht => hbroken t fun b hb => ?_⟩
        obtain rfl : b1 = b := Option.some.inj ((ht b hb).resolve_right nofun)
        exact Bool.eq_false_iff.mpr h₁

/-- The decoder takes a step on every nonempty text. -/
theorem exists_step (b0 : UInt8) (t0 : Bytes) : ∃ x rest, Step b0 t0 x rest := by
  by_cases h₁ : b0.toNat < 0x80
  · exact ⟨_, _, step_ascii h₁ t0⟩
  by_cases h₂ : 0xC2 ≤ b0.toNat ∧ b0.toNat ≤ 0xDF
  · exact step_two h₂ t0
  by_cases h₃ : 0xE0 ≤ b0.toNat ∧ b0.toNat ≤ 0xEF
  · exact step_three h₃ t0
  by_cases h₄ : 0xF0 ≤ b0.toNat ∧ b0.toNat ≤ 0xF4
  · exact step_four h₄ t0
  refine ⟨none, t0, step_none (p := []) h₁ fun t _ => ?_⟩
  rw [List.nil_append, decode.eq_def]
  simp only [if_neg h₁, if_neg h₂, if_neg h₃, if_neg h₄]

/-- An ASCII byte ends whatever sequence stands before it. -/
theorem decode_append_ascii (s : Bytes) {b : UInt8} (hb : b.toNat < 0x80) (t : Bytes) :
    decode (s ++ b :: t) = decode s ++ decode (b :: t) := by
  match s with
  | [] => rfl
  | b0 :: t0 =>
      obtain ⟨x, rest, hstep⟩ := exists_step b0 t0
      have := hstep.shorter
      rw [List.cons_append, hstep.before b t hb, hstep.alone, decode_append_ascii rest hb t]
      rfl
  termination_by s.length
  decreasing_by simp only [List.length_cons]; omega

/-- An ASCII character is decoded from its byte. -/
theorem mem_of_mem_decode {s : Bytes} {c : CodePoint} (h : some c ∈ decode s) (hc : c.val < 0x80) :
    ∃ b ∈ s, b.toNat = c.val := by
  match s with
  | [] => cases h
  | b0 :: t0 =>
      obtain ⟨x, rest, hstep⟩ := exists_step b0 t0
      have := hstep.shorter
      rw [hstep.alone, List.mem_cons] at h
      rcases h with h | h
      · by_cases h₀ : b0.toNat < 0x80
        · refine ⟨b0, by simp, ?_⟩
          have hx := h.trans (hstep.ascii h₀).1
          rw [Option.some.inj hx, val_ofCode (by omega)]
        · have := hstep.high h₀ c h.symm
          omega
      · obtain ⟨b, hb, hbc⟩ := mem_of_mem_decode h hc
        exact ⟨b, List.mem_cons_of_mem _ (hstep.suffix b hb), hbc⟩
  termination_by s.length
  decreasing_by simp only [List.length_cons]; omega

/-- A byte is decoded to its own character, or there is something that is not ASCII. -/
theorem mem_decode_of_mem {s : Bytes} {b : UInt8} (h : b ∈ s) :
    (b.toNat < 0x80 ∧ some (ofCode b.toNat) ∈ decode s) ∨
      ∃ x ∈ decode s, ∀ c, x = some c → 0x80 ≤ c.val := by
  induction s with
  | nil => cases h
  | cons b0 t0 ih =>
      obtain ⟨x, rest, hstep⟩ := exists_step b0 t0
      by_cases h₀ : b0.toNat < 0x80
      · obtain ⟨rfl, rfl⟩ := hstep.ascii h₀
        rw [hstep.alone]
        rcases List.mem_cons.mp h with rfl | h
        · exact .inl ⟨h₀, by simp⟩
        · rcases ih h with ⟨hb, hmem⟩ | ⟨y, hy, hhigh⟩
          · exact .inl ⟨hb, List.mem_cons_of_mem _ hmem⟩
          · exact .inr ⟨y, List.mem_cons_of_mem _ hy, hhigh⟩
      · rw [hstep.alone]
        exact .inr ⟨x, by simp, hstep.high h₀⟩

/-! ## Two readings of one file -/

/-- Bytes up to the first line feed, if there is one. -/
theorem cut_at_lf (content : Bytes) :
    lfByte ∉ content ∨ ∃ raw t, content = raw ++ lfByte :: t ∧ lfByte ∉ raw := by
  by_cases h : lfByte ∈ content
  · obtain ⟨raw, t, rfl, hraw⟩ := List.eq_append_cons_of_mem h
    exact .inr ⟨raw, t, rfl, hraw⟩
  · exact .inl h

/-- A line feed among the bytes of a text is one of its characters. -/
theorem lf_mem_of_encodeAll {s : Str} (h : lfByte ∈ encodeAll s) : lf ∈ s := by
  obtain ⟨c, hc, hb⟩ := List.mem_flatMap.mp h
  have hval := c.isLt
  have hbyte : ∀ n : Nat, n < 256 → lfByte = UInt8.ofNat n → n = 10 := by
    intro n hn heq
    rw [← toNat_ofNat hn, ← heq]
    rfl
  have hlf : c.val = 10 := by
    rw [encodeOne] at hb
    split_ifs at hb
    all_goals
      simp only [List.mem_cons, List.not_mem_nil, or_false] at hb
    · exact hbyte _ (by omega) hb
    · rcases hb with hb | hb
      all_goals have := hbyte _ (by omega) hb; omega
    · rcases hb with hb | hb | hb
      all_goals have := hbyte _ (by omega) hb; omega
    · rcases hb with hb | hb | hb | hb
      all_goals have := hbyte _ (by omega) hb; omega
  obtain rfl : c = lf := Fin.ext hlf
  exact hc

theorem beq_lfByte_eq_false {raw : Bytes} (h : lfByte ∉ raw) : ∀ b ∈ raw, (b == lfByte) = false := by
  intro b hb
  rw [beq_eq_false_iff_ne]
  rintro rfl
  exact h hb

theorem rawLines_append {raw : Bytes} (h : lfByte ∉ raw) (t : Bytes) :
    rawLines (raw ++ lfByte :: t) = raw :: rawLines t :=
  List.splitOnP_append_cons_of_forall_mem (beq_lfByte_eq_false h) lfByte (beq_self_eq_true _) t

theorem rawLines_single {raw : Bytes} (h : lfByte ∉ raw) : rawLines raw = [raw] :=
  List.splitOnP_eq_singleton (beq_lfByte_eq_false h)

theorem lfByte_notMem_rawLines {content raw : Bytes} (h : raw ∈ rawLines content) :
    lfByte ∉ raw := by
  rcases cut_at_lf content with hc | ⟨first, t, hcut, hfirst⟩
  · rw [rawLines_single hc, List.mem_singleton] at h
    rwa [h]
  · have hlt : t.length < content.length := by
      rw [hcut, List.length_append, List.length_cons]
      omega
    rw [hcut, rawLines_append hfirst, List.mem_cons] at h
    rcases h with rfl | h
    · exact hfirst
    · exact lfByte_notMem_rawLines h
  termination_by content.length

theorem decodeReplace_append_lf (s t : Bytes) :
    decodeReplace (s ++ lfByte :: t) = decodeReplace s ++ lf :: decodeReplace t := by
  have hlf : lfByte.toNat < 0x80 := by decide
  unfold decodeReplace
  rw [decode_append_ascii s hlf, decode_ascii hlf, List.map_append]
  rfl

/-- The pieces of a decoded file are those of its decoded lines. -/
theorem pieces_decodeReplace (content : Bytes) :
    (decodeReplace content).splitOnP isBreak =
      (rawLines content).flatMap fun raw => (decodeReplace raw).splitOnP isBreak := by
  rcases cut_at_lf content with hc | ⟨raw, t, hcut, hraw⟩
  · rw [rawLines_single hc, List.flatMap_singleton]
  · have hlt : t.length < content.length := by
      rw [hcut, List.length_append, List.length_cons]
      omega
    rw [hcut, decodeReplace_append_lf, List.splitOnP_append_cons _ _ (by decide), rawLines_append hraw,
      List.flatMap_cons, pieces_decodeReplace t]
  termination_by content.length

/-- A line of bytes decodes to one line of text, carriage returns aside. -/
theorem lf_notMem_decodeReplace {raw : Bytes} (h : lfByte ∉ raw) : lf ∉ decodeReplace raw := by
  intro hlf
  obtain ⟨x, hx, heq⟩ := List.mem_map.mp hlf
  cases x with
  | none => exact absurd heq (by decide)
  | some c =>
      obtain rfl : c = lf := heq
      obtain ⟨b, hb, hval⟩ := mem_of_mem_decode hx (by decide)
      apply h
      obtain rfl : b = lfByte := UInt8.toNat_inj.mp hval
      exact hb

theorem decode_of_decodeStrict {raw : Bytes} {t : Str} (h : decodeStrict raw = some t) :
    decode raw = t.map some := by
  unfold decodeStrict at h
  generalize decode raw = xs at h
  induction xs generalizing t with
  | nil =>
      obtain rfl := Option.some.inj h
      rfl
  | cons x xs ih =>
      rw [List.mapM_cons] at h
      cases x with
      | none => cases h
      | some c =>
          cases hxs : xs.mapM id with
          | none =>
              rw [hxs] at h
              cases h
          | some u =>
              rw [hxs] at h
              obtain rfl := Option.some.inj h
              rw [ih hxs]
              rfl

theorem decodeReplace_of_decodeStrict {raw : Bytes} {t : Str} (h : decodeStrict raw = some t) :
    decodeReplace raw = t := by
  rw [decodeReplace, decode_of_decodeStrict h, List.map_map]
  exact List.map_id t

theorem decodeStrict_of_decode {s : Bytes} {t : Str} (h : decode s = t.map some) :
    decodeStrict s = some t := by
  rw [decodeStrict, h]
  clear h
  induction t with
  | nil => rfl
  | cons c rest ih =>
      rw [List.map_cons, List.mapM_cons, ih]
      rfl
 
theorem isSurrogate_ofCode {n : Nat} (h : n < 0xD800 ∨ 0xDFFF < n ∧ n < 0x110000) :
    isSurrogate (ofCode n) = false := by
  rw [isSurrogate, val_ofCode (by omega)]
  simp only [Bool.and_eq_false_iff, decide_eq_false_iff_not]
  omega

theorem isSecond_surrogate {lead b : UInt8} (h : isSecond lead b = true) (hl : lead.toNat = 0xED) :
    b.toNat ≤ 0x9F := by
  simp only [isSecond, Bool.and_eq_true, Bool.or_eq_true, decide_eq_true_eq, bne_iff_ne] at h
  exact h.1.1.2.resolve_left fun hne => hne (UInt8.toNat_inj.mp hl)

/-- A decoded character is a scalar value. -/
theorem isSurrogate_of_mem_decode {s : Bytes} {c : CodePoint} (h : some c ∈ decode s) :
    isSurrogate c = false := by
  fun_induction decode s
  all_goals
    simp only [List.mem_cons, List.not_mem_nil, Option.some.injEq, reduceCtorEq, or_false,
      false_or] at h
  case case2 b0 t0 hb ih =>
    rcases h with rfl | h
    · exact isSurrogate_ofCode (.inl (by omega))
    · exact ih h
  case case4 b0 _ hb b1 t1 h₁ ih =>
    rcases h with rfl | h
    · have := isCont_iff.mp h₁
      exact isSurrogate_ofCode (.inl (by unfold low; omega))
    · exact ih h
  case case8 b0 _ _ hb b1 h₁ b2 t2 h₂ ih =>
    rcases h with rfl | h
    · have := isSecond_bounds h₁
      have := isSecond_surrogate h₁
      have := isCont_iff.mp h₂
      exact isSurrogate_ofCode (by unfold low; omega)
    · exact ih h
  case case14 b0 _ _ _ hb b1 h₁ b2 h₂ b3 t3 h₃ ih =>
    rcases h with rfl | h
    · have := isSecond_bounds h₁
      have := isCont_iff.mp h₂
      have := isCont_iff.mp h₃
      exact isSurrogate_ofCode (by unfold low; omega)
    · exact ih h
  all_goals rename_i ih; exact ih h

/-- A byte string has at least as many bytes as characters. -/
theorem length_decode_le (s : Bytes) : (decode s).length ≤ s.length := by
  fun_induction decode s
  all_goals
    simp only [List.length_cons, List.length_nil] at *
    omega

/-- The byte strings that are UTF-8. -/
def IsUtf8 (s : Bytes) : Prop := (decodeStrict s).isSome = true

instance (s : Bytes) : Decidable (IsUtf8 s) := inferInstanceAs (Decidable (_ = true))

theorem IsUtf8.decode_eq {s : Bytes} (h : IsUtf8 s) : decode s = (decodeReplace s).map some := by
  obtain ⟨t, ht⟩ := Option.isSome_iff_exists.mp h
  rw [decodeReplace_of_decodeStrict ht]
  exact decode_of_decodeStrict ht

theorem IsUtf8.scalar {s : Bytes} (h : IsUtf8 s) : Scalar (decodeReplace s) := by
  intro c hc
  apply isSurrogate_of_mem_decode (s := s)
  rw [h.decode_eq]
  exact List.mem_map_of_mem hc

theorem isUtf8_iff {s : Bytes} : IsUtf8 s ↔ none ∉ decode s := by
  constructor
  · intro h hn
    rw [h.decode_eq] at hn
    obtain ⟨c, -, hc⟩ := List.mem_map.mp hn
    cases hc
  · intro h
    have htext : decode s = (decodeReplace s).map some := by
      rw [decodeReplace, List.map_map]
      refine (List.map_id (decode s)).symm.trans (List.map_congr_left fun x hx => ?_)
      cases x with
      | none => exact absurd hx h
      | some c => rfl
    rw [IsUtf8, decodeStrict_of_decode htext]
    rfl

end IcsDeception.Utf8
