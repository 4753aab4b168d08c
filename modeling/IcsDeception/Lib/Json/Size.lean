import IcsDeception.Lib.Json.Extent
import Mathlib.Algebra.Order.BigOperators.Group.List

/-!
# How long a written value is

Bounds on the encoded length of compact JSON: a character takes at most six bytes
between quotes, and a dictionary takes its members, two bytes more for each and two
brackets. In every style the length of a dictionary of named fields is the sum of the
lengths of its fields and of what stands around them.
-/

namespace IcsDeception.Json

open Text Decimal

/-- The length of the encoding of a text. -/
def byteLength (s : Str) : Nat := (Utf8.encodeAll s).length

theorem byteLength_append (s t : Str) : byteLength (s ++ t) = byteLength s + byteLength t := by
  simp [byteLength]

theorem byteLength_cons (c : CodePoint) (s : Str) :
    byteLength (c :: s) = (Utf8.encodeOne c).length + byteLength s := by
  simp [byteLength]

theorem encodeOne_length_le (c : CodePoint) : (Utf8.encodeOne c).length ≤ 4 := by
  unfold Utf8.encodeOne
  split_ifs <;> simp

theorem encodeOne_length_ascii {c : CodePoint} (h : c.val < 0x80) :
    (Utf8.encodeOne c).length = 1 := by
  unfold Utf8.encodeOne
  rw [if_pos h]
  rfl

/-- Text in ASCII takes one byte a character. -/
theorem byteLength_ascii {s : Str} (h : ∀ c ∈ s, c.val < 0x80) : byteLength s = s.length := by
  induction s with
  | nil => rfl
  | cons c s ih =>
      obtain ⟨hc, hs⟩ := List.forall_mem_cons.mp h
      rw [byteLength_cons, encodeOne_length_ascii hc, ih hs, List.length_cons]
      omega

theorem byteLength_printable {s : Str} (h : ∀ c ∈ s, Printable c) : byteLength s = s.length :=
  byteLength_ascii fun c hc => by have := (h c hc).2; omega

theorem byteLength_printableLine {s : Str} (h : ∀ c ∈ s, PrintableLine c) :
    byteLength s = s.length := by
  refine byteLength_ascii fun c hc => ?_
  rcases h c hc with hp | rfl
  · have := hp.2
    omega
  · decide

theorem byteLength_escapeOne (c : CodePoint) : byteLength (escapeOne false c) ≤ 6 := by
  unfold escapeOne
  cases hs : shortEscape c with
  | some e =>
      rw [byteLength_printable (List.forall_mem_cons.mpr ⟨by unfold Printable; decide,
        List.forall_mem_singleton.mpr (printable_of_shortEscape hs)⟩)]
      simp
  | none =>
      dsimp only
      split_ifs with h₁ h₂
      · rw [byteLength_printable fun x hx => printable_of_mem_unicodeEscape hx]
        simp [unicodeEscape, hex4]
      · exact absurd h₂.1 (by decide)
      · exact absurd h₂.1 (by decide)
      · rw [byteLength_cons]
        have := encodeOne_length_le c
        have : byteLength [] = 0 := rfl
        omega

theorem byteLength_escape (s : Str) : byteLength (escape false s) ≤ 6 * s.length := by
  induction s with
  | nil => exact le_rfl
  | cons c s ih =>
      have := byteLength_escapeOne c
      have heq : escape false (c :: s) = escapeOne false c ++ escape false s := rfl
      rw [heq, byteLength_append, List.length_cons]
      omega

/-- A quoted text takes at most six bytes a character. -/
theorem byteLength_quote (s : Str) : byteLength (quote false s) ≤ 6 * s.length + 2 := by
  have := byteLength_escape s
  have hq : (Utf8.encodeOne (cp '"')).length = 1 := by decide
  rw [quote, byteLength_cons, byteLength_append, byteLength_cons, hq]
  have : byteLength [] = 0 := rfl
  omega

/-- A text of characters of one byte that are not escaped takes two bytes more in quotes. -/
theorem byteLength_quote_eq {s : Str} (h : ∀ c ∈ s, byteLength (escapeOne false c) = 1) :
    byteLength (quote false s) = s.length + 2 := by
  have hescape : byteLength (escape false s) = s.length := by
    induction s with
    | nil => rfl
    | cons c s ih =>
        obtain ⟨hc, hs⟩ := List.forall_mem_cons.mp h
        have hcons : escape false (c :: s) = escapeOne false c ++ escape false s := rfl
        rw [hcons, byteLength_append, hc, ih hs, List.length_cons]
        omega
  have hq : (Utf8.encodeOne (cp '"')).length = 1 := by decide
  have hnil : byteLength [] = 0 := rfl
  rw [quote, byteLength_cons, byteLength_append, byteLength_cons, hescape, hq, hnil]
  omega

/-- A text takes at most four bytes a character. -/
theorem byteLength_le (s : Str) : byteLength s ≤ 4 * s.length := by
  induction s with
  | nil => exact le_rfl
  | cons c s ih =>
      have hc := encodeOne_length_le c
      rw [byteLength_cons, List.length_cons]
      omega

/-- The encoded parts of a container, with a byte more for each. -/
def partsLength (parts : List Str) : Nat := (parts.map fun p => byteLength p + 1).sum

theorem partsLength_perm {ps qs : List Str} (h : ps.Perm qs) : partsLength ps = partsLength qs :=
  (h.map _).sum_eq

theorem byteLength_flatMap_comma (parts : List Str) :
    byteLength (parts.flatMap (lit "," ++ ·)) = partsLength parts := by
  induction parts with
  | nil => rfl
  | cons p ps ih =>
      have hcomma : byteLength (lit ",") = 1 := by decide
      rw [List.flatMap_cons, byteLength_append, byteLength_append, ih, hcomma]
      simp only [partsLength, List.map_cons, List.sum_cons]
      omega

/-- A compact dictionary takes its members, a byte more for each, and another one. -/
theorem byteLength_bracket_eq (level : Nat) {parts : List Str} (h : parts ≠ []) :
    byteLength (bracket Style.compact level (cp '\x7b') (cp '\x7d') parts) =
      partsLength parts + 1 := by
  obtain ⟨p, ps, rfl⟩ := List.exists_cons_of_ne_nil h
  have h₁ : byteLength [cp '\x7d'] = 1 := by decide
  have h₂ : (Utf8.encodeOne (cp '\x7b')).length = 1 := by decide
  have hbody : bracket Style.compact level (cp '\x7b') (cp '\x7d') (p :: ps) =
      cp '\x7b' :: ((p ++ ps.flatMap (lit "," ++ ·)) ++ [cp '\x7d']) := by
    simp [bracket, Style.newline, Style.compact, joined]
  rw [hbody, byteLength_cons, byteLength_append, byteLength_append, byteLength_flatMap_comma,
    h₁, h₂]
  simp only [partsLength, List.map_cons, List.sum_cons]
  omega

theorem byteLength_bracket (level : Nat) (parts : List Str) :
    byteLength (bracket Style.compact level (cp '\x7b') (cp '\x7d') parts) ≤
      partsLength parts + 2 := by
  cases parts with
  | nil =>
      rw [bracket]
      decide
  | cons p ps =>
      rw [byteLength_bracket_eq level (List.cons_ne_nil p ps)]
      omega

/-- A compact dictionary takes its members and two brackets. -/
theorem byteLength_dict {level : Nat} {kvs : List (Key × Value)} {ts : List (Str × Str)} {t : Str}
    (hts : dumpMembers Style.compact (level + 1) kvs = .ok ts)
    (ht : dump Style.compact level (.dict kvs) = .ok t) :
    byteLength t ≤ (ts.map fun p => 6 * p.1.length + byteLength p.2 + 4).sum + 2 := by
  rw [dump, hts] at ht
  obtain rfl := Except.ok.inj ht
  refine (byteLength_bracket level _).trans (Nat.add_le_add_right ?_ 2)
  rw [partsLength_perm ((Style.compact.order_perm ts).map _), partsLength, List.map_map]
  apply List.sum_le_sum
  intro p _
  have hq := byteLength_quote p.1
  have hcolon : byteLength Style.compact.keySeparator = 1 := by decide
  simp only [Function.comp_apply, Style.member, byteLength_append, hcolon]
  have : byteLength (quote Style.compact.ascii p.1) ≤ 6 * p.1.length + 2 := hq
  omega

theorem dumpMembers_append {st : Style} {level : Nat} {xs ys : List (Key × Value)}
    {ts : List (Str × Str)} (h : dumpMembers st level (xs ++ ys) = .ok ts) :
    ∃ us vs, dumpMembers st level xs = .ok us ∧ dumpMembers st level ys = .ok vs ∧
      ts = us ++ vs := by
  induction xs generalizing ts with
  | nil => exact ⟨[], ts, rfl, h, rfl⟩
  | cons p rest ih =>
      obtain ⟨k, v⟩ := p
      cases k with
      | str k =>
          rw [List.cons_append, dumpMembers] at h
          obtain ⟨t, ht, h⟩ := bind_eq_ok.mp h
          obtain ⟨ts', hts, h⟩ := bind_eq_ok.mp h
          obtain rfl := Except.ok.inj h
          obtain ⟨us, vs, hus, hvs, rfl⟩ := ih hts
          exact ⟨(k, t) :: us, vs, by rw [dumpMembers, ht, hus]; rfl, hvs, rfl⟩
      | other shown => cases h

/-- The text of a dictionary with a last field takes what its other fields take, and the name
and the value of the last one. -/
theorem byteLength_append_last {level : Nat} {ms : List (Str × Value)} {k : Str} {v : Value}
    {ts : List (Str × Str)} {t tv : Str}
    (hms : dumpMembers Style.compact (level + 1) (ms.map fun p => (Key.str p.1, p.2)) = .ok ts)
    (ht : dump Style.compact level (Value.ofMembers (ms ++ [(k, v)])) = .ok t)
    (hv : dump Style.compact (level + 1) v = .ok tv) :
    byteLength t = partsLength (ts.map Style.compact.member) +
      (1 + byteLength (Style.compact.member (k, []))) + 1 + byteLength tv := by
  rw [Value.ofMembers, List.map_append, dump] at ht
  obtain ⟨all, hall, ht⟩ := bind_eq_ok.mp ht
  obtain ⟨us, vs, hus, hvs, rfl⟩ := dumpMembers_append hall
  obtain rfl := Except.ok.inj (hms.symm.trans hus)
  rw [List.map_singleton, dumpMembers, hv] at hvs
  obtain rfl := Except.ok.inj hvs
  obtain rfl := Except.ok.inj ht
  have hne : (Style.compact.order (ts ++ [(k, tv)])).map Style.compact.member ≠ [] := by
    intro hnil
    have := (Style.compact.order_perm (ts ++ [(k, tv)])).length_eq
    rw [List.map_eq_nil_iff.mp hnil] at this
    simp at this
  have hnil : byteLength [] = 0 := rfl
  rw [byteLength_bracket_eq level hne, partsLength_perm ((Style.compact.order_perm _).map _)]
  simp only [partsLength, List.map_append, List.map_cons, List.map_nil, List.sum_append,
    List.sum_cons, List.sum_nil, Style.member, byteLength_append, hnil]
  omega

/-- Two dictionaries that differ in the value of their last field differ in length by as much
as the two values do. -/
theorem byteLength_of_last {level : Nat} {ms : List (Str × Value)} {k : Str} {v w : Value}
    {t u tv tw : Str} (ht : dump Style.compact level (Value.ofMembers (ms ++ [(k, v)])) = .ok t)
    (hu : dump Style.compact level (Value.ofMembers (ms ++ [(k, w)])) = .ok u)
    (hv : dump Style.compact (level + 1) v = .ok tv)
    (hw : dump Style.compact (level + 1) w = .ok tw) :
    byteLength t + byteLength tw = byteLength u + byteLength tv := by
  have hms : ∃ ts, dumpMembers Style.compact (level + 1)
      (ms.map fun p => (Key.str p.1, p.2)) = .ok ts := by
    rw [Value.ofMembers, List.map_append, dump] at ht
    obtain ⟨all, hall, -⟩ := bind_eq_ok.mp ht
    obtain ⟨us, vs, hus, -, -⟩ := dumpMembers_append hall
    exact ⟨us, hus⟩
  obtain ⟨ts, hts⟩ := hms
  have hleft := byteLength_append_last hts ht hv
  have hright := byteLength_append_last hts hu hw
  omega

/-! ## The exact length of named fields -/

theorem joined_length (sep : Str) (p : Str) (ps : List Str) :
    (joined sep (p :: ps)).length + sep.length =
      ((p :: ps).map fun q => sep.length + q.length).sum := by
  have hrest : (ps.flatMap (sep ++ ·)).length = (ps.map fun q => sep.length + q.length).sum := by
    simp [List.length_flatMap]
  rw [joined, List.length_append, hrest, List.map_cons, List.sum_cons]
  omega

/-- A container takes its parts, with a separator and a line break for each. -/
theorem bracket_length (st : Style) (level : Nat) (opening closing : CodePoint) {parts : List Str}
    (h : parts ≠ []) :
    (bracket st level opening closing parts).length + st.itemSeparator.length =
      (parts.map fun q =>
        (st.itemSeparator ++ st.newline (level + 1)).length + q.length).sum +
        (st.newline level).length + 2 := by
  obtain ⟨p, ps, rfl⟩ := List.exists_cons_of_ne_nil h
  have hjoined := joined_length (st.itemSeparator ++ st.newline (level + 1)) p ps
  rw [← hjoined]
  simp only [bracket, List.length_cons, List.length_append, List.length_nil]
  omega

theorem dumpMembers_length {st : Style} {level : Nat} {width : Value → Nat}
    {ms : List (Str × Value)} {ts : List (Str × Str)}
    (hw : ∀ p ∈ ms, ∀ t, dump st level p.2 = .ok t → t.length = width p.2)
    (h : dumpMembers st level (ms.map fun p => (Key.str p.1, p.2)) = .ok ts) :
    (ts.map fun t => (t.1, t.2.length)) = ms.map fun p => (p.1, width p.2) := by
  induction ms generalizing ts with
  | nil =>
      obtain rfl := Except.ok.inj h
      rfl
  | cons p rest ih =>
      obtain ⟨hp, hrest⟩ := List.forall_mem_cons.mp hw
      rw [List.map_cons, dumpMembers] at h
      obtain ⟨t, ht, h⟩ := bind_eq_ok.mp h
      obtain ⟨us, hus, h⟩ := bind_eq_ok.mp h
      obtain rfl := Except.ok.inj h
      rw [List.map_cons, List.map_cons, ih hrest hus, hp t ht]

/-- A dictionary of named fields takes the characters of its names and values, and what the
style puts around them. -/
theorem dump_ofMembers_length {st : Style} {level : Nat} {width : Value → Nat}
    {ms : List (Str × Value)} {text : Str} (hne : ms ≠ [])
    (hw : ∀ p ∈ ms, ∀ t, dump st (level + 1) p.2 = .ok t → t.length = width p.2)
    (h : dump st level (Value.ofMembers ms) = .ok text) :
    text.length + st.itemSeparator.length =
      (ms.map fun p => (st.itemSeparator ++ st.newline (level + 1)).length +
        ((quote st.ascii p.1).length + st.keySeparator.length + width p.2)).sum +
        (st.newline level).length + 2 := by
  rw [Value.ofMembers, dump] at h
  obtain ⟨ts, hts, h⟩ := bind_eq_ok.mp h
  obtain rfl := Except.ok.inj h
  have hwidths := dumpMembers_length hw hts
  have hnil : ts ≠ [] := by
    rintro rfl
    exact hne (by simpa using hwidths.symm)
  have hparts : (st.order ts).map st.member ≠ [] := by
    intro hempty
    have := (st.order_perm ts).length_eq
    rw [List.map_eq_nil_iff.mp hempty] at this
    exact hnil (List.length_eq_zero_iff.mp this.symm)
  rw [bracket_length st level _ _ hparts, List.map_map, ((st.order_perm ts).map _).sum_eq]
  congr 2
  have hmember : (ts.map fun t => (st.itemSeparator ++ st.newline (level + 1)).length +
      (st.member t).length) = (ts.map fun t => (t.1, t.2.length)).map fun t =>
        (st.itemSeparator ++ st.newline (level + 1)).length +
          ((quote st.ascii t.1).length + st.keySeparator.length + t.2) := by
    simp [Style.member, Nat.add_assoc]
  rw [Function.comp_def, hmember, hwidths, List.map_map]
  rfl

end IcsDeception.Json
