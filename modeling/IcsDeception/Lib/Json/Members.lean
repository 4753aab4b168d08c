import IcsDeception.Lib.Json.Equality
import IcsDeception.Lib.Json.Extent

/-!
# Dictionaries written to a file and read back

A dictionary of named fields is read back with every field under its name, whatever the
order in which the style writes them.
-/

namespace IcsDeception.Json

open Text Decimal

theorem writableMembers_ofMembers {st : Style} {ms : List (Str × Value)}
    (h : ∀ p ∈ ms, Scalar p.1 ∧ Writable st p.2) :
    WritableMembers st (ms.map fun p => (Key.str p.1, p.2)) := by
  induction ms with
  | nil => trivial
  | cons p rest ih =>
      obtain ⟨hp, hrest⟩ := List.forall_mem_cons.mp h
      exact ⟨fun _ => hp.1, hp.2, ih hrest⟩

/-- Named fields with writable values are a writable dictionary. -/
theorem writable_ofMembers {st : Style} {ms : List (Str × Value)} (hn : (ms.map Prod.fst).Nodup)
    (h : ∀ p ∈ ms, Scalar p.1 ∧ Writable st p.2) : Writable st (Value.ofMembers ms) := by
  refine ⟨?_, writableMembers_ofMembers h⟩
  have hkeys : ((ms.map Prod.fst).map Key.str).Nodup := hn.map fun _ _ heq => Key.str.inj heq
  rw [List.map_map] at hkeys ⊢
  exact hkeys

/-- Named fields are written with the texts of their values. -/
theorem dumpMembers_ofMembers {α : Type} {st : Style} {level : Nat} {xs : List α}
    {f : α → Str × Value} {text : α → Str} (h : ∀ x ∈ xs, dump st level (f x).2 = .ok (text x)) :
    dumpMembers st level ((xs.map f).map fun p => (Key.str p.1, p.2)) =
      .ok (xs.map fun x => ((f x).1, text x)) := by
  induction xs with
  | nil => rfl
  | cons x xs ih =>
      obtain ⟨hx, hxs⟩ := List.forall_mem_cons.mp h
      rw [List.map_cons, List.map_cons, dumpMembers, hx, ih hxs]
      rfl

theorem normMembers_fields {st : Style} {ms : List (Str × Value)} (h : ∀ p ∈ ms, Scalar p.1) :
    normMembers st (ms.map fun p => (Key.str p.1, p.2)) = ms.map fun p => (p.1, norm st p.2) := by
  induction ms with
  | nil => rfl
  | cons p rest ih =>
      obtain ⟨hp, hrest⟩ := List.forall_mem_cons.mp h
      simp only [List.map_cons, normMembers, ih hrest, Style.readBack_eq_self fun _ => hp]

/-- Every field is read back under its name. -/
theorem norm_fields {st : Style} {ms : List (Str × Value)} (hn : (ms.map Prod.fst).Nodup)
    (h : ∀ p ∈ ms, Scalar p.1) : ∃ kvs, norm st (Value.ofMembers ms) = .dict kvs ∧
      ∀ p ∈ ms, kvs.lookup (.str p.1) = some (norm st p.2) := by
  refine ⟨_, rfl, fun p hp => ?_⟩
  rw [normMembers_fields h]
  have hperm := st.order_perm (ms.map fun p => (p.1, norm st p.2))
  refine lookup_of_mem ?_ (List.mem_map_of_mem (f := fun q : Str × Value => (Key.str q.1, q.2))
    (hperm.symm.subset (List.mem_map_of_mem (f := fun q : Str × Value => (q.1, norm st q.2)) hp)))
  have hkeys : ((st.order (ms.map fun p => (p.1, norm st p.2))).map Prod.fst).Nodup := by
    rw [(hperm.map Prod.fst).nodup_iff, List.map_map]
    exact hn
  have hmap := hkeys.map (f := Key.str) fun _ _ heq => Key.str.inj heq
  rw [List.map_map] at hmap ⊢
  exact hmap

mutual
theorem allTexts_of_writable {st : Style} : ∀ v : Value, Writable st v →
    AllTexts (fun _ => True) v
  | .null, _ => trivial
  | .bool _, _ => trivial
  | .int _, _ => trivial
  | .float _, h => h.elim
  | .other _, h => h.elim
  | .str _, _ => trivial
  | .list xs, h => allTextsItems_of_writable xs h
  | .tuple xs, h => allTextsItems_of_writable xs h
  | .dict kvs, h => allTextsMembers_of_writable kvs h.2
theorem allTextsItems_of_writable {st : Style} : ∀ xs : List Value, WritableItems st xs →
    AllTextsItems (fun _ => True) xs
  | [], _ => trivial
  | v :: vs, h => ⟨allTexts_of_writable v h.1, allTextsItems_of_writable vs h.2⟩
theorem allTextsMembers_of_writable {st : Style} : ∀ kvs : List (Key × Value),
    WritableMembers st kvs → AllTextsMembers (fun _ => True) kvs
  | [], _ => trivial
  | (.other _, _) :: _, h => h.elim
  | (.str _, v) :: rest, h =>
      ⟨trivial, allTexts_of_writable v h.2.1, allTextsMembers_of_writable rest h.2.2⟩
end

/-- A style that writes only printable characters and line feeds. -/
structure Style.Printed (st : Style) : Prop where
  valid : st.Valid
  ascii : st.ascii = true
  within : st.Within PrintableLine

theorem Style.printed_indented : Style.indented.Printed :=
  ⟨Style.valid_indented, rfl, Style.within_indented⟩

theorem Style.printed_default : Style.default.Printed where
  valid := Style.valid_default
  ascii := rfl
  within :=
    { printable := fun _ h => .inl h
      item := fun c hc => .inl (Style.within_default.item c hc)
      key := fun c hc => .inl (Style.within_default.key c hc)
      newline := fun level c hc => .inl (Style.within_default.newline level c hc) }

/-- What such a style writes has no character but printable ones and line feeds. -/
theorem Style.Printed.dump {st : Style} (hst : st.Printed) {v : Value} (hv : Writable st v)
    {level : Nat} {t : Str} (ht : Json.dump st level v = .ok t) : ∀ c ∈ t, PrintableLine c := by
  refine dump_within hst.within (Q := fun _ => True) (fun s _ c hc => ?_) level v t
    (allTexts_of_writable v hv) ht
  rw [hst.ascii] at hc
  exact .inl (printable_of_mem_quote hc)

theorem printableLine_scalar {t : Str} (h : ∀ c ∈ t, PrintableLine c) : Scalar t := by
  intro c hc
  rcases h c hc with hp | rfl
  · exact hp.plain.2
  · decide

theorem printableLine_cr {t : Str} (h : ∀ c ∈ t, PrintableLine c) : cr ∉ t := by
  intro hc
  rcases h cr hc with hp | hp
  · exact absurd hp.1 (by decide)
  · exact absurd hp (by decide)

end IcsDeception.Json
