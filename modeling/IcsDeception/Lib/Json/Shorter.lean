import IcsDeception.Lib.Json.Reread

/-!
# A value read back takes no more room

Written without blanks and without escapes, the value that is read back from an escaped text
is not longer than that text. Of members that are read under one key only the last counts.
-/

namespace IcsDeception.Json

open Text Decimal

/-! ## Members that are read under one key -/

/-- What holds of every pair whose key no later pair has. -/
def Lasting (P : Str × Value → Prop) : List (Str × Value) → Prop
  | [] => True
  | p :: rest => (p.1 ∉ rest.map Prod.fst → P p) ∧ Lasting P rest

theorem lasting_append_singleton {P : Str × Value → Prop} (ps : List (Str × Value))
    (q : Str × Value) :
    Lasting P (ps ++ [q]) ↔ P q ∧ Lasting (fun p => p.1 ≠ q.1 → P p) ps := by
  induction ps with
  | nil => simp [Lasting]
  | cons p rest ih =>
      simp only [List.cons_append, Lasting, ih, List.map_append, List.map_cons, List.map_nil,
        List.mem_append, List.mem_singleton, not_or, and_imp]
      exact and_left_comm

theorem forall_setMember_iff {P : Str × Value → Prop} {ms : List (Str × Value)} {key : Str}
    {v : Value} (hn : (ms.map Prod.fst).Nodup) :
    (∀ p ∈ setMember ms key v, P p) ↔ P (key, v) ∧ ∀ p ∈ ms, p.1 ≠ key → P p := by
  induction ms with
  | nil => simp [setMember]
  | cons q rest ih =>
      obtain ⟨k, w⟩ := q
      rw [List.map_cons, List.nodup_cons] at hn
      rw [setMember, List.forall_mem_cons]
      split_ifs with hk
      · subst hk
        rw [List.forall_mem_cons]
        constructor
        · exact fun h => ⟨h.1, fun hne => absurd rfl hne, fun p hp _ => h.2 p hp⟩
        · rintro ⟨hv, -, hrest⟩
          refine ⟨hv, fun p hp => hrest p hp ?_⟩
          intro hkey
          exact hn.1 (List.mem_map.mpr ⟨p, hp, hkey⟩)
      · rw [List.forall_mem_cons, ih hn.2, and_left_comm]
        have hfirst : P (k, w) ↔ (k ≠ key → P (k, w)) := ⟨fun h _ => h, fun h => h hk⟩
        rw [← hfirst]

theorem dictOfPairs_append_singleton (ps : List (Str × Value)) (q : Str × Value) :
    dictOfPairs (ps ++ [q]) = setMember (dictOfPairs ps) q.1 q.2 := by
  rw [dictOfPairs, List.foldl_append, dictOfPairs]
  rfl

/-- The members of a dictionary are the pairs whose keys do not come again. -/
theorem forall_dictOfPairs_iff {P : Str × Value → Prop} (ps : List (Str × Value)) :
    (∀ p ∈ dictOfPairs ps, P p) ↔ Lasting P ps := by
  induction ps using List.reverseRecOn generalizing P with
  | nil => simp [dictOfPairs, Lasting]
  | append_singleton ps q ih =>
      rw [dictOfPairs_append_singleton, forall_setMember_iff (nodup_dictOfPairs ps), ih,
        lasting_append_singleton]

theorem sum_setMember_le (f : Str × Value → Nat) (ms : List (Str × Value)) (key : Str)
    (v : Value) : ((setMember ms key v).map f).sum ≤ (ms.map f).sum + f (key, v) := by
  induction ms with
  | nil => simp [setMember]
  | cons q rest ih =>
      obtain ⟨k, w⟩ := q
      rw [setMember]
      split_ifs with hk
      · subst hk
        simp only [List.map_cons, List.sum_cons]
        omega
      · simp only [List.map_cons, List.sum_cons]
        omega

theorem sum_dictOfPairs_le (f : Str × Value → Nat) (ps : List (Str × Value)) :
    ((dictOfPairs ps).map f).sum ≤ (ps.map f).sum := by
  induction ps using List.reverseRecOn with
  | nil => rfl
  | append_singleton ps q ih =>
      rw [dictOfPairs_append_singleton, List.map_append, List.sum_append, List.map_singleton,
        List.sum_singleton]
      exact (sum_setMember_le f _ _ _).trans (Nat.add_le_add_right ih _)

/-! ## Texts without escapes -/

theorem escapeOne_plain {c : CodePoint} (h : shortEscape c = none) :
    escapeOne false c = if c.val < 0x20 then unicodeEscape c.val else [c] := by
  simp [escapeOne, h]

theorem unicodeEscape_length (n : Nat) : (unicodeEscape n).length = 6 := rfl

theorem escapeOne_length_le_six (c : CodePoint) : (escapeOne false c).length ≤ 6 := by
  cases h : shortEscape c with
  | some e => simp [escapeOne, h]
  | none =>
      rw [escapeOne_plain h]
      split_ifs
      · exact (unicodeEscape_length _).le
      · simp

theorem escapeOne_length_le (c : CodePoint) :
    (escapeOne false c).length ≤ (escapeOne true c).length := by
  cases h : shortEscape c with
  | some e => simp [escapeOne, h]
  | none =>
      rw [escapeOne_plain h]
      simp only [escapeOne, h]
      split_ifs
      all_goals simp [unicodeEscape_length]

theorem escapeOne_high {c : CodePoint} (h : isHigh c = true) : (escapeOne true c).length = 6 := by
  have hv : 0xD800 ≤ c.val ∧ c.val ≤ 0xDBFF := by simpa [isHigh] using h
  have hshort : shortEscape c = none := by
    have hne : ∀ x : CodePoint, x.val < 0xD800 → c ≠ x := by
      rintro x hx rfl
      omega
    simp only [shortEscape, hne _ (show (cp '"').val < 0xD800 by decide),
      hne _ (show (cp '\\').val < 0xD800 by decide), hne _ (show (cp '\x08').val < 0xD800 by decide),
      hne _ (show (cp '\t').val < 0xD800 by decide), hne _ (show (cp '\n').val < 0xD800 by decide),
      hne _ (show (cp '\x0c').val < 0xD800 by decide), hne _ (show (cp '\r').val < 0xD800 by decide),
      if_false]
  rw [escapeOne, hshort]
  dsimp only
  rw [if_neg (by omega), if_pos ⟨rfl, by omega⟩, if_pos (by omega)]
  rfl

/-- A text read back is not longer without escapes than it was with them. -/
theorem escape_joinSurrogates_length (s : Str) :
    (escape false (joinSurrogates s)).length ≤ (escape true s).length := by
  have hcons : ∀ (ascii : Bool) (c : CodePoint) (t : Str), (escape ascii (c :: t)).length =
      (escapeOne ascii c).length + (escape ascii t).length := by
    intro ascii c t
    rw [escape, List.flatMap_cons, List.length_append]
    rfl
  fun_induction joinSurrogates s with
  | case1 => exact le_rfl
  | case2 c =>
      rw [hcons, hcons]
      exact Nat.add_le_add_right (escapeOne_length_le c) _
  | case3 c d rest hpair ih =>
      have hjoined := escapeOne_length_le_six (joinPair c d)
      have hhigh := escapeOne_high hpair.1
      rw [hcons, hcons, hcons]
      omega
  | case4 c d rest hpair ih =>
      have hone := escapeOne_length_le c
      rw [hcons, hcons true c]
      omega

theorem quote_joinSurrogates_length (s : Str) :
    (quote false (joinSurrogates s)).length ≤ (quote true s).length := by
  have h := escape_joinSurrogates_length s
  simp only [quote, List.length_cons, List.length_append]
  omega

theorem length_le_quote (ascii : Bool) (s : Str) : s.length ≤ (quote ascii s).length := by
  have hone : ∀ c, 1 ≤ (escapeOne ascii c).length := by
    intro c
    unfold escapeOne
    cases shortEscape c with
    | some e => simp
    | none =>
        dsimp only
        split_ifs <;> simp [unicodeEscape_length]
  have hescape : s.length ≤ (escape ascii s).length := by
    induction s with
    | nil => exact le_rfl
    | cons c s ih =>
        have hc := hone c
        have hcons : escape ascii (c :: s) = escapeOne ascii c ++ escape ascii s := rfl
        rw [hcons, List.length_append, List.length_cons]
        omega
  simp only [quote, List.length_cons, List.length_append]
  omega

/-! ## Containers without blanks -/

/-- A style without blanks, of one line. -/
structure Style.Tight (st : Style) : Prop where
  item : st.itemSeparator.length = 1
  key : st.keySeparator.length = 1
  indent : st.indent = none

theorem Style.tight_compact : Style.compact.Tight := ⟨by decide, by decide, rfl⟩

/-- A tight container takes a character more than each of its parts, and another one. -/
theorem Style.Tight.container {st : Style} (h : st.Tight) (level : Nat) (ns : List Nat) :
    containerLength st level ns = max 1 (ns.map (· + 1)).sum + 1 := by
  have hnewline : ∀ level, st.newline level = [] := by
    intro level
    rw [Style.newline, h.indent]
  have hpart : (fun m => (st.itemSeparator ++ st.newline (level + 1)).length + m) = (· + 1) := by
    funext m
    rw [List.length_append, h.item, hnewline, List.length_nil]
    omega
  cases ns with
  | nil => rfl
  | cons n ns =>
      rw [containerLength, hpart, h.item, hnewline, List.length_nil, List.map_cons, List.sum_cons]
      omega

theorem Style.Tight.part_le {st : Style} (h : st.Tight) (level : Nat) (o c : CodePoint)
    {parts : List Str} {p : Str} (hp : p ∈ parts) :
    p.length ≤ (bracket st level o c parts).length := by
  have hmem : p.length + 1 ∈ (parts.map List.length).map (· + 1) :=
    List.mem_map_of_mem (List.mem_map_of_mem hp)
  have hsum := List.le_sum_of_mem hmem
  rw [containerLength_parts, h.container]
  omega

theorem memberLengths_ofMembers (st : Style) (level : Nat) (ms : List (Str × Value)) :
    memberLengths st level (ms.map fun p => (Key.str p.1, p.2)) =
      ms.map fun p => (quote st.ascii p.1).length + st.keySeparator.length +
        textLength st level p.2 := by
  induction ms with
  | nil => rfl
  | cons p rest ih =>
      obtain ⟨k, v⟩ := p
      rw [List.map_cons, memberLengths, ih, List.map_cons]

mutual
/-- A value read back is not longer in compact form. -/
theorem textLength_reread_le {st : Style} (hst : st.Tight) (hascii : st.ascii = true) :
    ∀ (l l' : Nat) (v : Value),
    textLength Style.compact l (reread st v) ≤ textLength st l' v
  | _, _, .null => le_rfl
  | _, _, .bool _ => le_rfl
  | _, _, .int _ => le_rfl
  | _, _, .float _ => le_rfl
  | _, _, .other _ => le_rfl
  | _, _, .str s => by
      rw [reread, textLength, textLength, Style.readBack, if_pos hascii, hascii]
      exact quote_joinSurrogates_length s
  | l, l', .list xs => by
      have h := itemLengths_reread_le hst hascii (l + 1) (l' + 1) xs
      rw [reread, textLength, textLength, Style.tight_compact.container, hst.container]
      omega
  | l, l', .tuple xs => by
      have h := itemLengths_reread_le hst hascii (l + 1) (l' + 1) xs
      rw [reread, textLength, textLength, Style.tight_compact.container, hst.container]
      omega
  | l, l', .dict kvs => by
      have h := memberLengths_reread_le hst hascii (l + 1) (l' + 1) kvs
      have hdict := sum_dictOfPairs_le
        (fun p => (quote false p.1).length + 1 + textLength Style.compact (l + 1) p.2 + 1)
        ((st.order (rereadMembers st kvs)).map fun p => (st.readBack p.1, p.2))
      rw [List.map_map, (((st.order_perm (rereadMembers st kvs)).map _).sum_eq)] at hdict
      rw [reread, Value.ofMembers, textLength, textLength, Style.tight_compact.container,
        hst.container, memberLengths_ofMembers, List.map_map]
      have hle := hdict.trans h
      apply Nat.add_le_add_right
      exact max_le_max le_rfl hle
/-- The same for items. -/
theorem itemLengths_reread_le {st : Style} (hst : st.Tight) (hascii : st.ascii = true) :
    ∀ (l l' : Nat) (xs : List Value),
    ((itemLengths Style.compact l (rereadItems st xs)).map (· + 1)).sum ≤
      ((itemLengths st l' xs).map (· + 1)).sum
  | _, _, [] => le_rfl
  | l, l', x :: xs => by
      have hx := textLength_reread_le hst hascii l l' x
      have hxs := itemLengths_reread_le hst hascii l l' xs
      rw [rereadItems, itemLengths, itemLengths, List.map_cons, List.map_cons, List.sum_cons,
        List.sum_cons]
      omega
/-- The same for members, under the keys that are read. -/
theorem memberLengths_reread_le {st : Style} (hst : st.Tight) (hascii : st.ascii = true) :
    ∀ (l l' : Nat) (kvs : List (Key × Value)),
    ((rereadMembers st kvs).map ((fun p : Str × Value => (quote false p.1).length + 1 +
        textLength Style.compact l p.2 + 1) ∘ fun p => (st.readBack p.1, p.2))).sum ≤
      ((memberLengths st l' kvs).map (· + 1)).sum
  | _, _, [] => le_rfl
  | l, l', (.other _, _) :: rest => memberLengths_reread_le hst hascii l l' rest
  | l, l', (.str k, v) :: rest => by
      have hk := quote_joinSurrogates_length k
      have hv := textLength_reread_le hst hascii l l' v
      have hrest := memberLengths_reread_le hst hascii l l' rest
      have hback : st.readBack k = joinSurrogates k := by rw [Style.readBack, if_pos hascii]
      rw [rereadMembers, memberLengths, List.map_cons, List.map_cons, List.sum_cons, List.sum_cons,
        Function.comp_apply, hback, hascii, hst.key]
      dsimp only
      omega
end

end IcsDeception.Json
