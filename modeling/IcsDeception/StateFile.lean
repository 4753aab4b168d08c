import IcsDeception.StateStore
import IcsDeception.Lib.Json.Written

/-!
# What the state file is read back as

The bytes that a write of a state leaves, and the state that a reader of the same node
finds in them: the same position and hash, or nothing, because the reader refuses a
position or a hash that the writer has put down without a check.
-/

namespace IcsDeception

open Text Json Calendar

namespace NodeState

/-- A file that a printing style wrote, with line feeds behind it, is read as the normal form
of the value. -/
theorem readJson_dump {py : Interp} {st : Style} (hst : st.Printed) {v : Value} (hv : Json.Writable st v)
    (hn : v.nest ≤ py.jsonLimit) {t w : Str} (ht : dump st 0 v = .ok t) (hw : ∀ c ∈ w, c = lf) :
    readJson py (Utf8.encodeAll (t ++ w)) = .ok (.value (norm st v)) := by
  have hprinted : ∀ c ∈ t ++ w, PrintableLine c := by
    intro c hc
    rcases List.mem_append.mp hc with hc | hc
    · exact hst.dump hv ht c hc
    · exact .inr (hw c hc)
  obtain ⟨u, hu, hreads⟩ := dump_reads Hooks.plain_default hst.valid 0 v hv
  obtain rfl := Except.ok.inj (ht.symm.trans hu)
  have hload : loads py.jsonLimit (t ++ w) = .ok (norm st v) :=
    hreads.loadsWith hn fun c hc => by rw [hw c hc]; decide
  unfold readJson
  rw [Utf8.decodeStrict_encodeAll (printableLine_scalar hprinted)]
  dsimp only
  rw [universalNewlines_eq_self (printableLine_cr hprinted), hload]

theorem toDict_keys (st : NodeState) (updatedAt : Str) :
    (st.toDict updatedAt).map Prod.fst =
      [lit "node_id", lit "key_id", lit "last_sequence", lit "last_event_hash",
        lit "format_version", lit "updated_at"] := rfl

set_option maxRecDepth 4000 in
theorem toDict_scalar (st : NodeState) (updatedAt : Str) : ∀ p ∈ st.toDict updatedAt, Scalar p.1 := by
  have hkeys : ∀ k ∈ (st.toDict updatedAt).map Prod.fst, Scalar k := by
    rw [toDict_keys]
    decide
  exact fun p hp => hkeys p.1 (List.mem_map_of_mem hp)

theorem toDict_nodup (st : NodeState) (updatedAt : Str) :
    ((st.toDict updatedAt).map Prod.fst).Nodup := by
  rw [toDict_keys]
  decide

theorem fileBytes_eq_ok {py : Interp} {st : NodeState} {time : Instant} {b : Bytes}
    (hb : fileBytes py st time = .ok b) :
    ∃ t, dump Style.indented 0 (Value.ofMembers (st.toDict (time.text py.padYears ++ [cp 'Z']))) =
      .ok t ∧ b = Utf8.encodeAll (t ++ [lf]) := by
  unfold fileBytes at hb
  dsimp only at hb
  split_ifs at hb
  split at hb
  · next t ht => exact ⟨t, ht, (Except.ok.inj hb).symm⟩
  · cases hb
  · cases hb

/-- The fields that a reader finds in a file with a text for the key. -/
theorem readJson_fileBytes {py : Interp} {st : NodeState} {k : Str} (hk : st.keyId = .str k)
    {time : Instant} {b : Bytes} (hb : fileBytes py st time = .ok b) :
    ∃ kvs, readJson py b = .ok (.value (.dict kvs)) ∧
      ∀ p ∈ st.toDict (time.text py.padYears ++ [cp 'Z']),
        kvs.lookup (.str p.1) = some (norm Style.indented p.2) := by
  have hnest : (Value.ofMembers (st.toDict (time.text py.padYears ++ [cp 'Z']))).nest = 1 := by
    rw [nest_toDict, hk]
    rfl
  obtain ⟨t, ht, rfl⟩ := fileBytes_eq_ok hb
  have hdigits := ((dump_toDict st _).mp ⟨t, ht⟩).2
  have hwritable : Json.Writable Style.indented
      (Value.ofMembers (st.toDict (time.text py.padYears ++ [cp 'Z']))) := by
    refine writable_ofMembers (toDict_nodup st _) fun p hp => ⟨toDict_scalar st _ p hp, ?_⟩
    have hoptional : Json.Writable Style.indented (optionalText st.lastEventHash) := by
      cases st.lastEventHash <;> trivial
    revert p
    simp only [toDict, List.forall_mem_cons, hk]
    exact ⟨trivial, trivial, hdigits, hoptional, trivial, trivial, by simp⟩
  obtain ⟨kvs, hkvs, hlookup⟩ := @norm_fields Style.indented _ (toDict_nodup st _)
    (toDict_scalar st (time.text py.padYears ++ [cp 'Z']))
  refine ⟨kvs, ?_, hlookup⟩
  rw [readJson_dump Style.printed_indented hwritable (by have := py.jsonLimit_le; omega) ht
    (by simp), hkvs]

/-- Whatever stands for the key, a file that is read at all holds every field that was
written. -/
theorem fields_of_readJson {py : Interp} {st : NodeState} (hk : Legible st.keyId) {time : Instant}
    {b : Bytes} (hb : fileBytes py st time = .ok b) {v : Value}
    (hread : readJson py b = .ok (.value v)) :
    ∃ kvs, v = .dict kvs ∧ ∀ p ∈ st.toDict (time.text py.padYears ++ [cp 'Z']),
      ∃ x, kvs.lookup (.str p.1) = some x ∧ ReadsAs Style.indented 1 p.2 x := by
  have hlegible : ∀ p ∈ st.toDict (time.text py.padYears ++ [cp 'Z']), Legible p.2 := by
    have hoptional : Legible (optionalText st.lastEventHash) := by
      cases st.lastEventHash <;> trivial
    simp only [toDict, List.forall_mem_cons]
    exact ⟨trivial, hk, trivial, hoptional, trivial, trivial, by simp⟩
  obtain ⟨t, ht, rfl⟩ := fileBytes_eq_ok hb
  have hall : Legible (Value.ofMembers (st.toDict (time.text py.padYears ++ [cp 'Z']))) := by
    refine legibleMembers_iff.mpr fun q hq => ?_
    obtain ⟨p, hp, rfl⟩ := List.mem_map.mp hq
    exact hlegible p hp
  obtain ⟨w, hw⟩ := exists_readsAs Style.printed_indented 0 _ t hall ht
  obtain ⟨t', ht', hreads, hprint⟩ := id hw
  obtain rfl := Except.ok.inj (ht.symm.trans ht')
  have hlines : ∀ c ∈ t ++ [lf], PrintableLine c := by
    intro c hc
    rcases List.mem_append.mp hc with hc | hc
    · exact hprint c hc
    · exact .inr (List.mem_singleton.mp hc)
  obtain rfl : v = w := by
    unfold readJson at hread
    rw [Utf8.decodeStrict_encodeAll (printableLine_scalar hlines)] at hread
    dsimp only at hread
    rw [universalNewlines_eq_self (printableLine_cr hlines)] at hread
    cases hload : loads py.jsonLimit (t ++ [lf]) with
    | ok u =>
        rw [hload] at hread
        obtain rfl := Reading.value.inj (Except.ok.inj hread)
        refine hreads.eq_of_loadsWith (fun c hc => ?_) hload
        rw [List.mem_singleton.mp hc]
        decide
    | error e =>
        rw [hload] at hread
        cases e <;> cases hread
  exact hw.fields Style.printed_indented (toDict_nodup st _) (toDict_scalar st _) hlegible

theorem fromDict_eq_ok {nodeId : Str} {data : List (Key × Value)} {st : NodeState}
    (h : fromDict nodeId (.dict data) = .ok st) :
    position (Models.field data "last_sequence") = .ok st.lastSequence := by
  rw [fromDict] at h
  obtain ⟨-, -, h⟩ := bind_eq_ok.mp h
  obtain ⟨node, -, h⟩ := bind_eq_ok.mp h
  obtain ⟨-, -, h⟩ := bind_eq_ok.mp h
  obtain ⟨key, -, h⟩ := bind_eq_ok.mp h
  obtain ⟨seq, hseq, h⟩ := bind_eq_ok.mp h
  obtain ⟨hash, -, h⟩ := bind_eq_ok.mp h
  obtain ⟨-, -, h⟩ := bind_eq_ok.mp h
  obtain ⟨-, -, h⟩ := bind_eq_ok.mp h
  obtain ⟨version, -, h⟩ := bind_eq_ok.mp h
  obtain ⟨-, -, h⟩ := bind_eq_ok.mp h
  obtain rfl := Except.ok.inj h
  exact hseq

/-- A reader that accepts a file finds the sequence that was written. -/
theorem lastSequence_of_ofFile {py : Interp} {st st' : NodeState} (hk : Legible st.keyId)
    {time : Instant} {b : Bytes} (hb : fileBytes py st time = .ok b) {nodeId : Str}
    (h : ofFile py nodeId b = .ok st') : st'.lastSequence = st.lastSequence := by
  obtain ⟨reading, hread, h⟩ := bind_eq_ok.mp h
  cases reading with
  | unreadable => cases h
  | value v =>
      obtain ⟨kvs, rfl, hfields⟩ := fields_of_readJson hk hb hread
      obtain ⟨x, hx, hreads⟩ :=
        hfields (lit "last_sequence", .int st.lastSequence) (by simp [toDict])
      have hdigits : (Decimal.natText st.lastSequence.natAbs).length ≤ maxDigits := by
        obtain ⟨t, ht, -⟩ := fileBytes_eq_ok hb
        exact ((dump_toDict st _).mp ⟨t, ht⟩).2
      obtain rfl : x = .int st.lastSequence := by
        obtain ⟨t, ht, hr, -⟩ := hreads
        rw [dump, dumpInt, if_neg (Nat.not_lt.mpr hdigits)] at ht
        obtain rfl := Except.ok.inj ht
        exact hr.unique (reads_int _ _ hdigits)
      have hpos := fromDict_eq_ok h
      rw [show Models.field kvs "last_sequence" = .int st.lastSequence by
        rw [Models.field, hx]; rfl, position] at hpos
      split_ifs at hpos
      exact (Except.ok.inj hpos).symm

end NodeState

end IcsDeception
