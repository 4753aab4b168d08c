import IcsDeception.Lib.Json.Consumed
import IcsDeception.Lib.Json.Members

/-!
# What a written value is read as

A value that a style has written is read as some value, also when it holds floats, or keys
that the reader joins. The limit of the reader may refuse the text, but it does not change
what is read. Of a text, a list or named fields it is known what comes back: the text, as
many items, and every field under its name.

## Implementation notes

`Writable` asks that the writer succeeds and that the value comes back as its normal form.
Here the writer has succeeded, and only the floats are asked to be spelled as floats.
-/

namespace IcsDeception.Json

open Text Decimal

/-! ## The limit on nesting -/

theorem opened_eq_ok_of {α : Type} {close : CodePoint} {s : Str}
    {r r' : Except LoadsError (List α × Str)} {x : List α × Str} (hr : ∀ y, r = .ok y → r' = .ok y)
    (h : opened close s r = .ok x) : opened close s r' = .ok x := by
  unfold opened at h ⊢
  split_ifs at h ⊢
  · exact h
  · exact hr x h

/-- One more level of nesting changes no scan that succeeds. -/
theorem scan_deeper (h : Hooks) (fuel : Nat) :
    (∀ depth s x, scanOnce h fuel depth s = .ok x → scanOnce h fuel (depth + 1) s = .ok x) ∧
    (∀ depth s x, scanMembers h fuel depth s = .ok x →
      scanMembers h fuel (depth + 1) s = .ok x) ∧
    (∀ depth s x, scanItems h fuel depth s = .ok x → scanItems h fuel (depth + 1) s = .ok x) := by
  induction fuel with
  | zero => exact ⟨nofun, nofun, nofun⟩
  | succ fuel ih =>
      obtain ⟨ihv, ihm, ihi⟩ := ih
      refine ⟨?_, ?_, ?_⟩
      · intro depth s x hs
        cases s with
        | nil => cases hs
        | cons c cs =>
            rw [scanOnce] at hs ⊢
            simp only [Nat.succ_ne_zero, if_false, Nat.add_sub_cancel]
            split_ifs at hs ⊢ with h₁ h₂ hd h₃ hd
            · exact hs
            · obtain ⟨p, hp, hs⟩ := bind_eq_ok.mp hs
              have hdepth : depth - 1 + 1 = depth := by omega
              exact bind_eq_ok.mpr ⟨p, opened_eq_ok_of (fun y hy => hdepth ▸ ihm _ _ y hy) hp, hs⟩
            · obtain ⟨p, hp, hs⟩ := bind_eq_ok.mp hs
              have hdepth : depth - 1 + 1 = depth := by omega
              exact bind_eq_ok.mpr ⟨p, opened_eq_ok_of (fun y hy => hdepth ▸ ihi _ _ y hy) hp, hs⟩
            · exact hs
      · intro depth s x hs
        cases s with
        | nil => cases hs
        | cons c cs =>
            rw [scanMembers] at hs ⊢
            split_ifs at hs ⊢
            obtain ⟨⟨key, r⟩, hkey, hs⟩ := bind_eq_ok.mp hs
            refine bind_eq_ok.mpr ⟨_, hkey, ?_⟩
            simp only at hs ⊢
            split_ifs at hs ⊢
            obtain ⟨⟨v, r'⟩, hv, hs⟩ := bind_eq_ok.mp hs
            refine bind_eq_ok.mpr ⟨_, ihv _ _ _ hv, ?_⟩
            simp only at hs ⊢
            split_ifs at hs ⊢
            · exact hs
            · obtain ⟨p, hp, hs⟩ := bind_eq_ok.mp hs
              exact bind_eq_ok.mpr ⟨p, ihm _ _ p hp, hs⟩
      · intro depth s x hs
        rw [scanItems] at hs ⊢
        obtain ⟨⟨v, r⟩, hv, hs⟩ := bind_eq_ok.mp hs
        refine bind_eq_ok.mpr ⟨_, ihv _ _ _ hv, ?_⟩
        simp only at hs ⊢
        split_ifs at hs ⊢
        · exact hs
        · obtain ⟨p, hp, hs⟩ := bind_eq_ok.mp hs
          exact bind_eq_ok.mpr ⟨p, ihi _ _ p hp, hs⟩

/-- A larger limit changes nothing that is read. -/
theorem loadsWith_deeper {h : Hooks} {limit limit' : Nat} (hl : limit ≤ limit') {s : Str} {v : Value}
    (hok : loadsWith h limit s = .ok v) : loadsWith h limit' s = .ok v := by
  induction limit', hl using Nat.le_induction with
  | base => exact hok
  | succ n _ ih =>
      unfold loadsWith at ih ⊢
      split_ifs at ih ⊢
      obtain ⟨p, hp, hs⟩ := bind_eq_ok.mp ih
      exact bind_eq_ok.mpr ⟨p, (scan_deeper h _).1 _ _ p hp, hs⟩

/-- Whatever the limit, a readable text is read as its value or refused. -/
theorem Reads.eq_of_loadsWith {h : Hooks} {need limit : Nat} {text w : Str} {u v : Value}
    (hr : Reads h need text v) (hw : ∀ c ∈ w, isWs c = true)
    (hload : Json.loadsWith h limit (text ++ w) = .ok u) : u = v := by
  have hread := hr.loadsWith (le_max_right limit need) hw
  have hdeep := loadsWith_deeper (le_max_left limit need) hload
  exact Except.ok.inj (hdeep.symm.trans hread)

/-! ## Values with floats -/

/-- The spelling of a float: printable, and read as the float. -/
structure FloatText (l : Str) : Prop where
  reads : Reads Hooks.default 0 l (.float l)
  printable : ∀ c ∈ l, Printable c

mutual
/-- Every float inside the value is spelled as one. -/
def Legible : Value → Prop
  | .float l => FloatText l
  | .list xs => LegibleItems xs
  | .tuple xs => LegibleItems xs
  | .dict kvs => LegibleMembers kvs
  | _ => True
/-- Every float inside the items. -/
def LegibleItems : List Value → Prop
  | [] => True
  | v :: vs => Legible v ∧ LegibleItems vs
/-- Every float inside the values of the members. -/
def LegibleMembers : List (Key × Value) → Prop
  | [] => True
  | (_, v) :: rest => Legible v ∧ LegibleMembers rest
end

/-- The value is written at a level, and its text is read as another. -/
def ReadsAs (st : Style) (level : Nat) (v w : Value) : Prop :=
  ∃ t, dump st level v = .ok t ∧ Reads Hooks.default v.nest t w ∧ ∀ c ∈ t, PrintableLine c

theorem ReadsAs.unique {st : Style} {level : Nat} {v w w' : Value} (h : ReadsAs st level v w)
    (h' : ReadsAs st level v w') : w = w' := by
  obtain ⟨t, ht, hr, -⟩ := h
  obtain ⟨t', ht', hr', -⟩ := h'
  obtain rfl := Except.ok.inj (ht.symm.trans ht')
  exact hr.unique hr'

theorem readsAs_str {st : Style} (hst : st.Printed) (level : Nat) (s : Str) :
    ReadsAs st level (.str s) (.str (st.readBack s)) := by
  refine ⟨quote st.ascii s, rfl, reads_str _ st s, ?_⟩
  intro c hc
  rw [hst.ascii] at hc
  exact .inl (printable_of_mem_quote hc)

/-- Items that are read one by one are read as a list. -/
theorem readsAs_items {st : Style} (hst : st.Printed) {level : Nat} {xs ws : List Value}
    {ts : List Str} (hts : dumpItems st (level + 1) xs = .ok ts)
    (h : List.Forall₂ (ReadsAs st (level + 1)) xs ws) :
    Reads Hooks.default (Value.nestItems xs + 1) (bracket st level (cp '[') (cp ']') ts) (.list ws) ∧
      ∀ c ∈ bracket st level (cp '[') (cp ']') ts, PrintableLine c := by
  have hparts : ∃ ps : List (Str × Value), ts = ps.map Prod.fst ∧ ws = ps.map Prod.snd ∧
      ∀ q ∈ ps, Reads Hooks.default (Value.nestItems xs) q.1 q.2 ∧ ∀ c ∈ q.1, PrintableLine c := by
    clear hst
    induction h generalizing ts with
    | nil =>
        obtain rfl := Except.ok.inj hts
        exact ⟨[], rfl, rfl, by simp⟩
    | @cons x w xs ws hx _ ih =>
        rw [dumpItems] at hts
        obtain ⟨t, ht, hts⟩ := bind_eq_ok.mp hts
        obtain ⟨us, hus, hts⟩ := bind_eq_ok.mp hts
        obtain rfl := Except.ok.inj hts
        obtain ⟨ps, rfl, rfl, hps⟩ := ih hus
        obtain ⟨t', ht', hr, hp⟩ := hx
        obtain rfl := Except.ok.inj (ht.symm.trans ht')
        refine ⟨(t, w) :: ps, rfl, rfl, ?_⟩
        rw [Value.nestItems]
        intro q hq
        rcases List.mem_cons.mp hq with rfl | hq
        · exact ⟨hr.mono (le_max_left _ _), hp⟩
        · exact ⟨(hps q hq).1.mono (le_max_right _ _), (hps q hq).2⟩
  obtain ⟨ps, rfl, rfl, hps⟩ := hparts
  refine ⟨reads_list hst.valid level ps fun q hq => (hps q hq).1, ?_⟩
  refine bracket_within hst.within (hst.within.printable _ ⟨by decide, by decide⟩)
    (hst.within.printable _ ⟨by decide, by decide⟩) ?_
  intro t ht
  obtain ⟨q, hq, rfl⟩ := List.mem_map.mp ht
  exact (hps q hq).2

/-- Members that are read one by one are read as what the hook makes of them. -/
theorem readsAs_members {st : Style} (hst : st.Printed) {level : Nat} {kvs : List (Key × Value)}
    {ps : List (Str × Str × Value)}
    (hps : ∀ q ∈ ps, Reads Hooks.default (Value.nestMembers kvs) q.2.1 q.2.2 ∧
      ∀ c ∈ q.2.1, PrintableLine c) :
    Reads Hooks.default (Value.nestMembers kvs + 1)
        (bracket st level (cp '\x7b') (cp '\x7d')
          ((st.order (ps.map fun q => (q.1, q.2.1))).map st.member))
        (Value.ofMembers (dictOfPairs ((st.order ps).map fun q => (st.readBack q.1, q.2.2)))) ∧
      ∀ c ∈ bracket st level (cp '\x7b') (cp '\x7d')
        ((st.order (ps.map fun q => (q.1, q.2.1))).map st.member), PrintableLine c := by
  have hordered : ∀ q ∈ st.order ps, Reads Hooks.default (Value.nestMembers kvs) q.2.1 q.2.2 ∧
      ∀ c ∈ q.2.1, PrintableLine c := fun q hq => hps q ((st.order_perm ps).mem_iff.mp hq)
  have hmap : (st.order (ps.map fun q => (q.1, q.2.1))).map st.member =
      (st.order ps).map fun q => st.member (q.1, q.2.1) := by
    rw [st.order_map Prod.fst, List.map_map]
    rfl
  rw [hmap]
  refine ⟨reads_object hst.valid level _ (fun q hq => (hordered q hq).1) rfl, ?_⟩
  refine bracket_within hst.within (hst.within.printable _ ⟨by decide, by decide⟩)
    (hst.within.printable _ ⟨by decide, by decide⟩) ?_
  intro t ht
  obtain ⟨q, hq, rfl⟩ := List.mem_map.mp ht
  intro c hc
  simp only [Style.member, List.mem_append] at hc
  rcases hc with (hc | hc) | hc
  · rw [hst.ascii] at hc
    exact .inl (printable_of_mem_quote hc)
  · exact hst.within.key c hc
  · exact (hordered q hq).2 c hc

mutual
/-- A legible value that was written is read as some value. -/
theorem exists_readsAs {st : Style} (hst : st.Printed) : ∀ (level : Nat) (v : Value) (t : Str),
    Legible v → dump st level v = .ok t → ∃ w, ReadsAs st level v w
  | _, .null, _, _, _ =>
      ⟨.null, _, rfl, reads_null _, fun c hc => .inl (printable_of_all (by decide) c hc)⟩
  | _, .bool b, _, _, _ =>
      ⟨.bool b, _, rfl, reads_bool _ b,
        fun c hc => .inl (printable_of_all (by cases b <;> decide) c hc)⟩
  | _, .int i, t, _, h => by
      rw [dump, dumpInt] at h
      split_ifs at h with hd
      refine ⟨.int i, intText i, ?_, reads_int _ i (Nat.not_lt.mp hd), ?_⟩
      · rw [dump, dumpInt, if_neg hd]
      · exact fun c hc => .inl (printable_of_mem_intText hc)
  | _, .float l, _, hl, _ => by
      rw [Legible] at hl
      exact ⟨.float l, l, rfl, hl.reads, fun c hc => .inl (hl.printable c hc)⟩
  | _, .other _, _, _, h => by cases h
  | level, .str s, _, _, _ => ⟨_, readsAs_str hst level s⟩
  | level, .list xs, t, hl, h => by
      rw [Legible] at hl
      rw [dump] at h
      obtain ⟨ts, hts, -⟩ := bind_eq_ok.mp h
      obtain ⟨ws, hws⟩ := exists_readsAs_items hst (level + 1) xs ts hl hts
      obtain ⟨hr, hp⟩ := readsAs_items hst hts hws
      exact ⟨.list ws, _, by rw [dump, hts]; rfl, hr, hp⟩
  | level, .tuple xs, t, hl, h => by
      rw [Legible] at hl
      rw [dump] at h
      obtain ⟨ts, hts, -⟩ := bind_eq_ok.mp h
      obtain ⟨ws, hws⟩ := exists_readsAs_items hst (level + 1) xs ts hl hts
      obtain ⟨hr, hp⟩ := readsAs_items hst hts hws
      exact ⟨.list ws, _, by rw [dump, hts]; rfl, hr, hp⟩
  | level, .dict kvs, t, hl, h => by
      rw [Legible] at hl
      rw [dump] at h
      obtain ⟨ts, hts, -⟩ := bind_eq_ok.mp h
      obtain ⟨ps, rfl, hps⟩ := exists_readsAs_members hst (level + 1) kvs ts hl hts
      obtain ⟨hr, hp⟩ := @readsAs_members _ hst level kvs ps hps
      exact ⟨_, _, by rw [dump, hts]; rfl, hr, hp⟩
/-- Written items are read one by one. -/
theorem exists_readsAs_items {st : Style} (hst : st.Printed) : ∀ (level : Nat) (xs : List Value)
    (ts : List Str), LegibleItems xs → dumpItems st level xs = .ok ts →
      ∃ ws, List.Forall₂ (ReadsAs st level) xs ws
  | _, [], _, _, _ => ⟨[], .nil⟩
  | level, x :: xs, _, hl, h => by
      rw [LegibleItems] at hl
      rw [dumpItems] at h
      obtain ⟨t, ht, h⟩ := bind_eq_ok.mp h
      obtain ⟨ts, hts, -⟩ := bind_eq_ok.mp h
      obtain ⟨w, hw⟩ := exists_readsAs hst level x t hl.1 ht
      obtain ⟨ws, hws⟩ := exists_readsAs_items hst level xs ts hl.2 hts
      exact ⟨w :: ws, .cons hw hws⟩
/-- Written members are read one by one. -/
theorem exists_readsAs_members {st : Style} (hst : st.Printed) : ∀ (level : Nat)
    (kvs : List (Key × Value)) (ts : List (Str × Str)), LegibleMembers kvs →
      dumpMembers st level kvs = .ok ts → ∃ ps : List (Str × Str × Value),
        ts = ps.map (fun q => (q.1, q.2.1)) ∧
        ∀ q ∈ ps, Reads Hooks.default (Value.nestMembers kvs) q.2.1 q.2.2 ∧
          ∀ c ∈ q.2.1, PrintableLine c
  | _, [], _, _, h => by
      obtain rfl := Except.ok.inj h
      exact ⟨[], rfl, by simp⟩
  | _, (.other _, _) :: _, _, _, h => by cases h
  | level, (.str k, v) :: rest, _, hl, h => by
      rw [LegibleMembers] at hl
      rw [dumpMembers] at h
      obtain ⟨t, ht, h⟩ := bind_eq_ok.mp h
      obtain ⟨ts, hts, h⟩ := bind_eq_ok.mp h
      obtain rfl := Except.ok.inj h
      obtain ⟨w, t', ht', hr, hp⟩ := exists_readsAs hst level v t hl.1 ht
      obtain rfl := Except.ok.inj (ht.symm.trans ht')
      obtain ⟨ps, rfl, hps⟩ := exists_readsAs_members hst level rest ts hl.2 hts
      refine ⟨(k, t, w) :: ps, rfl, ?_⟩
      rw [Value.nestMembers]
      intro q hq
      rcases List.mem_cons.mp hq with rfl | hq
      · exact ⟨hr.mono (le_max_left _ _), hp⟩
      · exact ⟨(hps q hq).1.mono (le_max_right _ _), (hps q hq).2⟩
end

/-! ## Lists and fields -/

/-- A list is read as a list of what its items are read as. -/
theorem ReadsAs.list {st : Style} (hst : st.Printed) {level : Nat} {xs : List Value} {w : Value}
    (hl : LegibleItems xs) (h : ReadsAs st level (.list xs) w) :
    ∃ ws, w = .list ws ∧ List.Forall₂ (ReadsAs st (level + 1)) xs ws := by
  obtain ⟨t, ht, hr, hp⟩ := h
  have hdump := ht
  rw [dump] at hdump
  obtain ⟨ts, hts, hdump⟩ := bind_eq_ok.mp hdump
  obtain ⟨ws, hws⟩ := exists_readsAs_items hst (level + 1) xs ts hl hts
  obtain rfl := Except.ok.inj hdump
  exact ⟨ws, hr.unique (readsAs_items hst hts hws).1, hws⟩

/-- Named fields that were written are read one by one, under their names. -/
theorem exists_readsAs_fields {st : Style} (hst : st.Printed) {level : Nat}
    {ms : List (Str × Value)} {ts : List (Str × Str)} (hl : ∀ p ∈ ms, Legible p.2)
    (h : dumpMembers st level (ms.map fun p => (Key.str p.1, p.2)) = .ok ts) :
    ∃ ps : List (Str × Str × Value), ts = ps.map (fun q => (q.1, q.2.1)) ∧
      (∀ q ∈ ps, Reads Hooks.default (Value.nestMembers (ms.map fun p => (Key.str p.1, p.2)))
        q.2.1 q.2.2 ∧ ∀ c ∈ q.2.1, PrintableLine c) ∧
      ps.map Prod.fst = ms.map Prod.fst ∧
      ∀ p ∈ ms, ∃ q ∈ ps, q.1 = p.1 ∧ ReadsAs st level p.2 q.2.2 := by
  induction ms generalizing ts with
  | nil =>
      obtain rfl := Except.ok.inj h
      exact ⟨[], rfl, by simp, rfl, by simp⟩
  | cons p rest ih =>
      rw [List.map_cons, dumpMembers] at h
      obtain ⟨t, ht, h⟩ := bind_eq_ok.mp h
      obtain ⟨us, hus, h⟩ := bind_eq_ok.mp h
      obtain rfl := Except.ok.inj h
      obtain ⟨hp, hrest⟩ := List.forall_mem_cons.mp hl
      obtain ⟨ps, rfl, hreads, hkeys, hfields⟩ := ih hrest hus
      obtain ⟨w, hw⟩ := exists_readsAs hst level p.2 t hp ht
      obtain ⟨t', ht', hr, hprint⟩ := id hw
      obtain rfl := Except.ok.inj (ht.symm.trans ht')
      refine ⟨(p.1, t, w) :: ps, rfl, ?_, by rw [List.map_cons, hkeys, List.map_cons], ?_⟩
      · rw [List.map_cons, Value.nestMembers]
        intro q hq
        rcases List.mem_cons.mp hq with rfl | hq
        · exact ⟨hr.mono (le_max_left _ _), hprint⟩
        · exact ⟨(hreads q hq).1.mono (le_max_right _ _), (hreads q hq).2⟩
      · refine List.forall_mem_cons.mpr ⟨⟨_, List.mem_cons_self, rfl, hw⟩, ?_⟩
        intro p' hp'
        obtain ⟨q, hq, hname, hread⟩ := hfields p' hp'
        exact ⟨q, List.mem_cons_of_mem _ hq, hname, hread⟩

/-- Named fields are read as fields of the same names, each as its value is read. -/
theorem ReadsAs.fields {st : Style} (hst : st.Printed) {level : Nat} {ms : List (Str × Value)}
    {w : Value} (hn : (ms.map Prod.fst).Nodup) (hs : ∀ p ∈ ms, Scalar p.1)
    (hl : ∀ p ∈ ms, Legible p.2) (h : ReadsAs st level (Value.ofMembers ms) w) :
    ∃ kvs, w = .dict kvs ∧ ∀ p ∈ ms, ∃ x, kvs.lookup (.str p.1) = some x ∧
      ReadsAs st (level + 1) p.2 x := by
  obtain ⟨t, ht, hr, -⟩ := h
  rw [Value.ofMembers, dump] at ht
  obtain ⟨ts, hts, ht⟩ := bind_eq_ok.mp ht
  obtain rfl := Except.ok.inj ht
  obtain ⟨ps, rfl, hreads, hkeys, hfields⟩ := exists_readsAs_fields hst hl hts
  have hw := hr.unique (readsAs_members hst hreads).1
  have hback : ∀ q ∈ ps, st.readBack q.1 = q.1 := by
    intro q hq
    have hmem : q.1 ∈ ms.map Prod.fst := hkeys ▸ List.mem_map_of_mem hq
    obtain ⟨p, hp, hname⟩ := List.mem_map.mp hmem
    exact Style.readBack_eq_self fun _ => hname ▸ hs p hp
  have hperm := st.order_perm ps
  have hpairs : (st.order ps).map (fun q => (st.readBack q.1, q.2.2)) =
      (st.order ps).map fun q => (q.1, q.2.2) :=
    List.map_congr_left fun q hq => by rw [hback q (hperm.mem_iff.mp hq)]
  have hnodup : (((st.order ps).map fun q => (q.1, q.2.2)).map Prod.fst).Nodup := by
    rw [List.map_map]
    exact (hperm.map Prod.fst).nodup_iff.mpr (hkeys ▸ hn)
  rw [hpairs, dictOfPairs_of_nodup hnodup] at hw
  refine ⟨_, hw, ?_⟩
  intro p hp
  obtain ⟨q, hq, hname, hread⟩ := hfields p hp
  refine ⟨q.2.2, ?_, hread⟩
  rw [← hname]
  apply lookup_of_mem
  · have hmap := hnodup.map (f := Key.str) fun _ _ heq => Key.str.inj heq
    rw [List.map_map] at hmap ⊢
    exact hmap
  · have hmem : (q.1, q.2.2) ∈ (st.order ps).map fun q => (q.1, q.2.2) :=
      List.mem_map_of_mem (f := fun q : Str × Str × Value => (q.1, q.2.2)) (hperm.mem_iff.mpr hq)
    exact List.mem_map_of_mem (f := fun p : Str × Value => (Key.str p.1, p.2)) hmem

/-! ## What a reader returns -/

theorem printable_scanFraction (s : Str) : ∀ c ∈ (scanFraction s).1, Printable c := by
  unfold scanFraction
  split
  · next p d cs =>
      split_ifs with h
      · refine List.forall_mem_cons.mpr ⟨h.1 ▸ ⟨by decide, by decide⟩, ?_⟩
        refine List.forall_mem_cons.mpr ⟨printable_of_isDigit h.2, ?_⟩
        exact fun c hc => printable_of_isDigit (takeWhile_digits cs c hc)
      · simp
  · simp

theorem printable_scanExponent (s : Str) : ∀ c ∈ (scanExponent s).1, Printable c := by
  have hdigits : ∀ t : Str, ∀ c ∈ t.takeWhile isDigit, Printable c :=
    fun t c hc => printable_of_isDigit (takeWhile_digits t c hc)
  rw [scanExponent.eq_def]
  split
  · next e cs =>
      split_ifs with he
      · have hp : Printable e := by
          rcases he with rfl | rfl <;> exact ⟨by decide, by decide⟩
        split
        · next g d rest =>
            split_ifs with hs hg
            · have hsign : Printable g := by
                rcases hs.1 with rfl | rfl <;> exact ⟨by decide, by decide⟩
              simp only [List.forall_mem_cons]
              exact ⟨hp, hsign, printable_of_isDigit hs.2, hdigits rest⟩
            · simp only [List.forall_mem_cons]
              exact ⟨hp, printable_of_isDigit hg, hdigits (d :: rest)⟩
            · simp
        · next g =>
            split_ifs with hg
            · simp only [List.forall_mem_cons]
              exact ⟨hp, printable_of_isDigit hg, by simp⟩
            · simp
        · simp
      · simp
  · simp

theorem numberOf_float {neg : Bool} {ds frac ex rest rest' l : Str}
    (h : numberOf neg ds frac ex rest = .ok (.float l, rest')) :
    l = sign neg ++ ds ++ frac ++ ex ∧ rest' = rest := by
  unfold numberOf at h
  by_cases hz : frac = [] ∧ ex = []
  · rw [if_pos hz] at h
    split_ifs at h
    all_goals
      obtain ⟨hv, -⟩ := Prod.mk.inj (Except.ok.inj h)
      cases hv
  · rw [if_neg hz] at h
    obtain ⟨hv, hr⟩ := Prod.mk.inj (Except.ok.inj h)
    exact ⟨(Value.float.inj hv).symm, hr.symm⟩

/-- A float that was scanned is spelled by what was taken. -/
theorem floatText_of_scanNumber {s l rest : Str} (h : scanNumber s = .ok (.float l, rest)) :
    FloatText l := by
  obtain ⟨neg, b, rfl, hb⟩ := exists_sign s
  have hnum := h
  rw [scanNumber_eq hb] at hnum
  cases hi : scanIntPart b with
  | none =>
      rw [hi] at hnum
      cases hnum
  | some q =>
      obtain ⟨ds, t⟩ := q
      simp only [hi] at hnum
      obtain ⟨hds, hdigit⟩ := scanIntPart_digits hi
      obtain ⟨rfl, -⟩ := scanIntPart_takes hi
      obtain ⟨hfrac, -⟩ := scanFraction_takes t
      obtain ⟨hexp, -⟩ := scanExponent_takes (scanFraction t).2
      have hl := numberOf_float hnum
      have hshape : sign neg ++ (ds ++ t) = l ++ rest := by
        rw [hl.1, hl.2]
        conv_lhs => rw [hfrac, hexp]
        simp
      obtain ⟨p, hp, htakes, hahead⟩ := scanNumber_takes h
      obtain rfl : l = p := List.append_cancel_right (hshape.symm.trans hp)
      have hsign : ∀ c ∈ sign neg, Printable c := by
        cases neg with
        | true => exact printable_of_all (by decide)
        | false => exact fun c hc => by cases hc
      refine ⟨?_, ?_⟩
      · have hne : l ≠ [] := by
          rw [hl.1]
          simp [hds]
        obtain ⟨c, u, rfl⟩ := List.exists_cons_of_ne_nil hne
        have hc := hahead [] c rfl
        have hnot : ∀ x : CodePoint, isDigit x = false → x ≠ cp '-' → c ≠ x := by
          rintro x hx hm rfl
          rcases hc with hc | ⟨hc, -⟩
          · rw [hc] at hx
            cases hx
          · exact hm hc
        refine ⟨⟨c, u, rfl, ?_, hnot _ (by decide) (by decide), hnot _ (by decide) (by decide)⟩, ?_⟩
        · cases hw : isWs c with
          | false => rfl
          | true =>
              rcases isWs_iff.mp hw with hw | hw | hw | hw <;>
                exact absurd hw (hnot _ (by decide) (by decide))
        · intro fuel depth r hf _ hr
          obtain ⟨fuel, rfl⟩ : ∃ k, fuel = k + 1 := ⟨fuel - 1, by omega⟩
          rw [List.cons_append, scanOnce, if_neg (hnot _ (by decide) (by decide)),
            if_neg (hnot _ (by decide) (by decide)), if_neg (hnot _ (by decide) (by decide)),
            ← List.cons_append, scanScalar_eq_scanNumber (hahead r)]
          exact htakes r hr
      · rw [hl.1]
        intro c hc
        simp only [List.mem_append] at hc
        rcases hc with ((hc | hc) | hc) | hc
        · exact hsign c hc
        · exact printable_of_isDigit (hdigit c hc)
        · exact printable_scanFraction t c hc
        · exact printable_scanExponent _ c hc

theorem floatText_constant {name : Str} (h : name ∈ constantNames) : FloatText name := by
  simp only [constantNames, List.mem_cons, List.not_mem_nil, or_false] at h
  rcases h with rfl | rfl | rfl
  all_goals
    refine ⟨⟨⟨_, _, rfl, by decide, by decide, by decide⟩, ?_⟩, printable_of_all (by decide)⟩
    intro fuel depth r hf _ _
    obtain ⟨fuel, rfl⟩ : ∃ k, fuel = k + 1 := ⟨fuel - 1, by omega⟩
    rfl

theorem legibleItems_iff {xs : List Value} : LegibleItems xs ↔ ∀ v ∈ xs, Legible v := by
  induction xs with
  | nil => simp [LegibleItems]
  | cons v vs ih => simp [LegibleItems, ih]

theorem legibleMembers_iff {kvs : List (Key × Value)} :
    LegibleMembers kvs ↔ ∀ p ∈ kvs, Legible p.2 := by
  induction kvs with
  | nil => simp [LegibleMembers]
  | cons p rest ih => simp [LegibleMembers, ih]

/-- What the plain reader returns is legible. -/
theorem Hooks.keepsRead_legible : Hooks.default.KeepsRead Legible where
  null := trivial
  bool _ := trivial
  int _ _ := trivial
  float _ _ _ h := floatText_of_scanNumber h
  str _ := trivial
  list _ h := legibleItems_iff.mpr h
  constant name hn v h := by
    cases h
    exact floatText_constant hn
  objectPairs pairs v hp h := by
    cases h
    refine legibleMembers_iff.mpr fun p hm => ?_
    obtain ⟨q, hq, rfl⟩ := List.mem_map.mp hm
    obtain ⟨x, hx, he⟩ := mem_dictOfPairs hq
    exact he ▸ hp x hx

end IcsDeception.Json
