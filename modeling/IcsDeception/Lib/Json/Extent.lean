import IcsDeception.Lib.Json.RoundTrip
import IcsDeception.Lib.Utf8

/-!
# What written text is made of

`dump_within` bounds the characters of a written value by those of its texts and of
the style. Text written with escapes is printable ASCII; text written without them
still has no control characters. A style without indentation writes a value the same
way at every level.
-/

namespace IcsDeception.Json

open Text Decimal

mutual
/-- Every text inside the value, keys included, satisfies a property; floats and
unsupported values are excluded. -/
def AllTexts (Q : Str → Prop) : Value → Prop
  | .null => True
  | .bool _ => True
  | .int _ => True
  | .float _ => False
  | .str s => Q s
  | .list xs => AllTextsItems Q xs
  | .tuple xs => AllTextsItems Q xs
  | .dict kvs => AllTextsMembers Q kvs
  | .other _ => False
/-- Every text inside the items. -/
def AllTextsItems (Q : Str → Prop) : List Value → Prop
  | [] => True
  | v :: vs => AllTexts Q v ∧ AllTextsItems Q vs
/-- Every text inside the members. -/
def AllTextsMembers (Q : Str → Prop) : List (Key × Value) → Prop
  | [] => True
  | (.str k, v) :: rest => Q k ∧ AllTexts Q v ∧ AllTextsMembers Q rest
  | (.other _, _) :: _ => False
end

/-- The printable ASCII characters. -/
def Printable (c : CodePoint) : Prop := 0x20 ≤ c.val ∧ c.val < 0x7F

/-- A class of characters that holds printable ASCII and everything the style adds. -/
structure Style.Within (st : Style) (P : CodePoint → Prop) : Prop where
  printable : ∀ c, Printable c → P c
  item : ∀ c ∈ st.itemSeparator, P c
  key : ∀ c ∈ st.keySeparator, P c
  newline : ∀ level, ∀ c ∈ st.newline level, P c

theorem printable_of_isDigit {c : CodePoint} (h : isDigit c = true) : Printable c := by
  simp only [isDigit, Bool.and_eq_true, decide_eq_true_eq] at h
  exact ⟨by omega, by omega⟩

theorem printable_of_all {s : Str} (h : s.all (fun c => 0x20 ≤ c.val && c.val < 0x7F) = true) :
    ∀ c ∈ s, Printable c := by
  intro c hc
  have hc := List.all_eq_true.mp h c hc
  simp only [Bool.and_eq_true, decide_eq_true_eq] at hc
  exact hc

theorem printable_of_mem_intText {i : Int} {c : CodePoint} (h : c ∈ intText i) : Printable c := by
  unfold intText at h
  split_ifs at h
  · rcases List.mem_cons.mp h with rfl | h
    · exact ⟨by decide, by decide⟩
    · exact printable_of_isDigit (isDigit_of_mem_natText h)
  · exact printable_of_isDigit (isDigit_of_mem_natText h)

theorem joined_within {P : CodePoint → Prop} {sep : Str} (hsep : ∀ c ∈ sep, P c) :
    ∀ {parts : List Str}, (∀ p ∈ parts, ∀ c ∈ p, P c) → ∀ c ∈ joined sep parts, P c
  | [], _ => by simp [joined]
  | p :: ps, h => by
      intro c hc
      simp only [joined, List.mem_append, List.mem_flatMap] at hc
      rcases hc with hc | ⟨q, hq, hc | hc⟩
      · exact h p (by simp) c hc
      · exact hsep c hc
      · exact h q (by simp [hq]) c hc

theorem bracket_within {st : Style} {P : CodePoint → Prop} (hst : st.Within P) {level : Nat}
    {o c : CodePoint} (ho : P o) (hc : P c) {parts : List Str}
    (h : ∀ p ∈ parts, ∀ x ∈ p, P x) : ∀ x ∈ bracket st level o c parts, P x := by
  cases parts with
  | nil =>
      intro x hx
      simp only [bracket, List.mem_cons, List.not_mem_nil, or_false] at hx
      rcases hx with rfl | rfl
      · exact ho
      · exact hc
  | cons p ps =>
      intro x hx
      simp only [bracket, List.mem_cons, List.mem_append, List.not_mem_nil, or_false] at hx
      rcases hx with rfl | (((hx | hx) | hx) | rfl)
      · exact ho
      · exact hst.newline _ x hx
      · revert x
        refine joined_within ?_ h
        intro y hy
        rcases List.mem_append.mp hy with hy | hy
        · exact hst.item y hy
        · exact hst.newline _ y hy
      · exact hst.newline _ x hx
      · exact hc

mutual
/-- The characters of a written value are in every class that holds the style's own
characters and those of its quoted texts. -/
theorem dump_within {st : Style} {P : CodePoint → Prop} {Q : Str → Prop} (hst : st.Within P)
    (hq : ∀ s, Q s → ∀ c ∈ quote st.ascii s, P c) :
    ∀ (level : Nat) (v : Value) (t : Str), AllTexts Q v → dump st level v = .ok t →
      ∀ c ∈ t, P c
  | _, .null, t, _, h => by
      simp only [dump, Except.ok.injEq] at h
      subst h
      exact fun c hc => hst.printable c (printable_of_all (by decide) c hc)
  | _, .bool b, t, _, h => by
      simp only [dump, Except.ok.injEq] at h
      subst h
      exact fun c hc => hst.printable c (printable_of_all (by cases b <;> decide) c hc)
  | _, .int i, t, _, h => by
      simp only [dump, dumpInt] at h
      split_ifs at h
      simp only [Except.ok.injEq] at h
      subst h
      exact fun c hc => hst.printable c (printable_of_mem_intText hc)
  | _, .float _, _, ha, _ => by simp [AllTexts] at ha
  | _, .other _, _, ha, _ => by simp [AllTexts] at ha
  | _, .str s, t, ha, h => by
      simp only [dump, Except.ok.injEq] at h
      subst h
      exact hq s ha
  | level, .list xs, t, ha, h => by
      rw [dump] at h
      obtain ⟨parts, hp, h⟩ := bind_eq_ok.mp h
      simp only [pure, Except.pure, Except.ok.injEq] at h
      subst h
      exact bracket_within hst (hst.printable _ ⟨by decide, by decide⟩)
        (hst.printable _ ⟨by decide, by decide⟩) (dumpItems_within hst hq _ xs parts ha hp)
  | level, .tuple xs, t, ha, h => by
      rw [dump] at h
      obtain ⟨parts, hp, h⟩ := bind_eq_ok.mp h
      simp only [pure, Except.pure, Except.ok.injEq] at h
      subst h
      exact bracket_within hst (hst.printable _ ⟨by decide, by decide⟩)
        (hst.printable _ ⟨by decide, by decide⟩) (dumpItems_within hst hq _ xs parts ha hp)
  | level, .dict kvs, t, ha, h => by
      rw [dump] at h
      obtain ⟨parts, hp, h⟩ := bind_eq_ok.mp h
      simp only [pure, Except.pure, Except.ok.injEq] at h
      subst h
      have hparts := dumpMembers_within hst hq _ kvs parts ha hp
      refine bracket_within hst (hst.printable _ ⟨by decide, by decide⟩)
        (hst.printable _ ⟨by decide, by decide⟩) ?_
      intro m hm
      obtain ⟨q, hq', rfl⟩ := List.mem_map.mp hm
      obtain ⟨hkey, hval⟩ := hparts q ((st.order_perm parts).subset hq')
      intro c hc
      simp only [Style.member, List.mem_append] at hc
      rcases hc with (hc | hc) | hc
      · exact hq _ hkey c hc
      · exact hst.key c hc
      · exact hval c hc
/-- The characters of written items. -/
theorem dumpItems_within {st : Style} {P : CodePoint → Prop} {Q : Str → Prop} (hst : st.Within P)
    (hq : ∀ s, Q s → ∀ c ∈ quote st.ascii s, P c) :
    ∀ (level : Nat) (xs : List Value) (ts : List Str), AllTextsItems Q xs →
      dumpItems st level xs = .ok ts → ∀ t ∈ ts, ∀ c ∈ t, P c
  | _, [], ts, _, h => by
      simp only [dumpItems, Except.ok.injEq] at h
      simp [← h]
  | level, v :: vs, ts, ha, h => by
      rw [AllTextsItems] at ha
      rw [dumpItems] at h
      obtain ⟨t, ht, h⟩ := bind_eq_ok.mp h
      obtain ⟨us, hu, h⟩ := bind_eq_ok.mp h
      simp only [pure, Except.pure, Except.ok.injEq] at h
      subst h
      intro x hx
      rcases List.mem_cons.mp hx with rfl | hx
      · exact dump_within hst hq level v x ha.1 ht
      · exact dumpItems_within hst hq level vs us ha.2 hu x hx
/-- The keys and the characters of written members. -/
theorem dumpMembers_within {st : Style} {P : CodePoint → Prop} {Q : Str → Prop}
    (hst : st.Within P) (hq : ∀ s, Q s → ∀ c ∈ quote st.ascii s, P c) :
    ∀ (level : Nat) (kvs : List (Key × Value)) (ts : List (Str × Str)), AllTextsMembers Q kvs →
      dumpMembers st level kvs = .ok ts → ∀ p ∈ ts, Q p.1 ∧ ∀ c ∈ p.2, P c
  | _, [], ts, _, h => by
      simp only [dumpMembers, Except.ok.injEq] at h
      simp [← h]
  | _, (.other _, _) :: _, _, ha, _ => by simp [AllTextsMembers] at ha
  | level, (.str k, v) :: rest, ts, ha, h => by
      rw [AllTextsMembers] at ha
      rw [dumpMembers] at h
      obtain ⟨t, ht, h⟩ := bind_eq_ok.mp h
      obtain ⟨us, hu, h⟩ := bind_eq_ok.mp h
      simp only [pure, Except.pure, Except.ok.injEq] at h
      subst h
      intro p hp
      rcases List.mem_cons.mp hp with rfl | hp
      · exact ⟨ha.1, dump_within hst hq level v t ha.2.1 ht⟩
      · exact dumpMembers_within hst hq level rest us ha.2.2 hu p hp
end

/-! ## The two kinds of quoted text -/

theorem printable_hexChar : ∀ n < 16, Printable (hexChar n) := by
  unfold Printable
  decide

theorem printable_of_mem_unicodeEscape {n : Nat} {c : CodePoint} (h : c ∈ unicodeEscape n) :
    Printable c := by
  simp only [unicodeEscape, hex4, List.mem_cons, List.not_mem_nil, or_false] at h
  rcases h with rfl | rfl | rfl | rfl | rfl | rfl
  · exact ⟨by decide, by decide⟩
  · exact ⟨by decide, by decide⟩
  all_goals exact printable_hexChar _ (Nat.mod_lt _ (by decide))

theorem printable_of_shortEscape {c e : CodePoint} (h : shortEscape c = some e) : Printable e := by
  unfold shortEscape at h
  split_ifs at h <;> cases h <;> exact ⟨by decide, by decide⟩

/-- Escaped text is printable ASCII. -/
theorem printable_of_mem_quote {s : Str} {c : CodePoint} (h : c ∈ quote true s) :
    Printable c := by
  simp only [quote, escape, List.mem_cons, List.mem_append, List.mem_flatMap, List.not_mem_nil,
    or_false] at h
  rcases h with rfl | ⟨x, -, hc⟩ | rfl
  · exact ⟨by decide, by decide⟩
  · unfold escapeOne at hc
    split at hc
    · rename_i e he
      simp only [List.mem_cons, List.not_mem_nil, or_false] at hc
      rcases hc with rfl | rfl
      · exact ⟨by decide, by decide⟩
      · exact printable_of_shortEscape he
    · split_ifs at hc with h₁ h₂ h₃
      · exact printable_of_mem_unicodeEscape hc
      · exact printable_of_mem_unicodeEscape hc
      · rcases List.mem_append.mp hc with hc | hc
        · exact printable_of_mem_unicodeEscape hc
        · exact printable_of_mem_unicodeEscape hc
      · simp only [List.mem_cons, List.not_mem_nil, or_false] at hc
        subst hc
        simp only [true_and, not_le] at h₂
        exact ⟨by omega, h₂⟩
  · exact ⟨by decide, by decide⟩

/-- A character with an encoding that is not a control character. -/
def Plain (c : CodePoint) : Prop := 0x20 ≤ c.val ∧ isSurrogate c = false

theorem Printable.plain {c : CodePoint} (h : Printable c) : Plain c := by
  refine ⟨h.1, ?_⟩
  obtain ⟨-, h⟩ := h
  simp only [isSurrogate, Bool.and_eq_false_iff, decide_eq_false_iff_not]
  omega

/-- Text quoted without escapes has no control characters, and no surrogates of its own. -/
theorem plain_of_mem_quote {s : Str} (hs : Scalar s) {c : CodePoint} (h : c ∈ quote false s) :
    Plain c := by
  simp only [quote, escape, List.mem_cons, List.mem_append, List.mem_flatMap, List.not_mem_nil,
    or_false] at h
  rcases h with rfl | ⟨x, hx, hc⟩ | rfl
  · exact ⟨by decide, by decide⟩
  · unfold escapeOne at hc
    split at hc
    · rename_i e he
      simp only [List.mem_cons, List.not_mem_nil, or_false] at hc
      rcases hc with rfl | rfl
      · exact ⟨by decide, by decide⟩
      · exact (printable_of_shortEscape he).plain
    · split_ifs at hc with h₁ h₂ h₃
      · exact (printable_of_mem_unicodeEscape hc).plain
      · exact absurd h₂.1 (by decide)
      · exact absurd h₂.1 (by decide)
      · simp only [List.mem_cons, List.not_mem_nil, or_false] at hc
        subst hc
        exact ⟨by omega, hs c hx⟩
  · exact ⟨by decide, by decide⟩

theorem Style.within_compact : Style.compact.Within Plain where
  printable _ h := h.plain
  item := List.forall_mem_singleton.mpr ⟨by decide, by decide⟩
  key := List.forall_mem_singleton.mpr ⟨by decide, by decide⟩
  newline := by simp [Style.newline, Style.compact]

theorem forall_mem_pair {α : Type} {P : α → Prop} {a b : α} (ha : P a) (hb : P b) :
    ∀ c ∈ [a, b], P c := by
  simp [ha, hb]

theorem Style.within_default : Style.default.Within Printable where
  printable _ h := h
  item := forall_mem_pair ⟨by decide, by decide⟩ ⟨by decide, by decide⟩
  key := forall_mem_pair ⟨by decide, by decide⟩ ⟨by decide, by decide⟩
  newline := by simp [Style.newline, Style.default]

/-- Printable ASCII and the line feed. -/
def PrintableLine (c : CodePoint) : Prop := Printable c ∨ c = lf

theorem Style.within_indented : Style.indented.Within PrintableLine where
  printable _ h := Or.inl h
  item := List.forall_mem_singleton.mpr (Or.inl ⟨by decide, by decide⟩)
  key := forall_mem_pair (Or.inl ⟨by decide, by decide⟩) (Or.inl ⟨by decide, by decide⟩)
  newline := by
    intro level c hc
    simp only [Style.newline, Style.indented, List.mem_cons, List.mem_replicate] at hc
    rcases hc with rfl | ⟨-, rfl⟩
    · exact Or.inr rfl
    · exact Or.inl ⟨by decide, by decide⟩

/-! ## Levels -/

theorem bracket_level {st : Style} (h : st.indent = none) (l m : Nat) (o c : CodePoint)
    (parts : List Str) : bracket st l o c parts = bracket st m o c parts := by
  cases parts with
  | nil => rfl
  | cons p ps => simp [bracket, Style.newline, h]

mutual
/-- Without indentation the level does not matter. -/
theorem dump_level {st : Style} (h : st.indent = none) :
    ∀ (l m : Nat) (v : Value), dump st l v = dump st m v
  | _, _, .null => rfl
  | _, _, .bool _ => rfl
  | _, _, .int _ => rfl
  | _, _, .float _ => rfl
  | _, _, .str _ => rfl
  | _, _, .other _ => rfl
  | l, m, .list xs => by
      simp only [dump, dumpItems_level h (l + 1) (m + 1) xs, bracket_level h l m]
  | l, m, .tuple xs => by
      simp only [dump, dumpItems_level h (l + 1) (m + 1) xs, bracket_level h l m]
  | l, m, .dict kvs => by
      simp only [dump, dumpMembers_level h (l + 1) (m + 1) kvs, bracket_level h l m]
/-- Without indentation the level of items does not matter. -/
theorem dumpItems_level {st : Style} (h : st.indent = none) :
    ∀ (l m : Nat) (xs : List Value), dumpItems st l xs = dumpItems st m xs
  | _, _, [] => rfl
  | l, m, v :: vs => by
      simp only [dumpItems, dump_level h l m v, dumpItems_level h l m vs]
/-- Without indentation the level of members does not matter. -/
theorem dumpMembers_level {st : Style} (h : st.indent = none) :
    ∀ (l m : Nat) (kvs : List (Key × Value)), dumpMembers st l kvs = dumpMembers st m kvs
  | _, _, [] => rfl
  | _, _, (.other _, _) :: _ => rfl
  | l, m, (.str k, v) :: rest => by
      simp only [dumpMembers, dump_level h l m v, dumpMembers_level h l m rest]
end

end IcsDeception.Json
