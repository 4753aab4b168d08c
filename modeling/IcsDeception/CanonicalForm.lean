import IcsDeception.Canonicalizer
import IcsDeception.Lib.Json.Faithful

/-!
# Canonical bytes stand for one JSON value

Two values have the same canonical bytes exactly when they are the same JSON value,
and the bytes are read back as that value.
-/

namespace IcsDeception

open Text Json Calendar

namespace Canonicalizer

mutual
/-- A value with a canonical form is not nested deeper than the check allows. -/
theorem Encodable.nest_le : ∀ (d : Nat) (v : Value), Encodable d v → d + v.nest ≤ maxDepth + 1
  | d, .null, h => Nat.le_succ_of_le h
  | d, .bool _, h => Nat.le_succ_of_le h
  | d, .int _, h => Nat.le_succ_of_le h.1
  | _, .float _, h => h.elim
  | _, .other _, h => h.elim
  | d, .str _, h => Nat.le_succ_of_le h.1
  | d, .list xs, h => by
      have := EncodableItems.nest_le (d + 1) xs (Nat.succ_le_succ h.1) h.2
      rw [Value.nest]
      omega
  | d, .tuple xs, h => by
      have := EncodableItems.nest_le (d + 1) xs (Nat.succ_le_succ h.1) h.2
      rw [Value.nest]
      omega
  | d, .dict kvs, h => by
      have := EncodableMembers.nest_le (d + 1) kvs (Nat.succ_le_succ h.1) h.2
      rw [Value.nest]
      omega
/-- The same for members. -/
theorem EncodableMembers.nest_le : ∀ (d : Nat) (kvs : List (Key × Value)), d ≤ maxDepth + 1 →
    EncodableMembers d kvs → d + Value.nestMembers kvs ≤ maxDepth + 1
  | _, [], hd, _ => hd
  | _, (.other _, _) :: _, _, h => h.elim
  | d, (.str _, v) :: rest, hd, h => by
      have h₁ := Encodable.nest_le d v h.2.1
      have h₂ := EncodableMembers.nest_le d rest hd h.2.2
      rw [Value.nestMembers]
      omega
/-- The same for items. -/
theorem EncodableItems.nest_le : ∀ (d : Nat) (xs : List Value), d ≤ maxDepth + 1 →
    EncodableItems d xs → d + Value.nestItems xs ≤ maxDepth + 1
  | _, [], hd, _ => hd
  | d, v :: rest, hd, h => by
      have h₁ := Encodable.nest_le d v h.1
      have h₂ := EncodableItems.nest_le d rest hd h.2
      rw [Value.nestItems]
      omega
end

theorem Encodable.nest_le_jsonLimit {v : Value} (h : Encodable 0 v) (py : Interp) :
    v.nest ≤ py.jsonLimit := by
  have h₁ := Encodable.nest_le 0 v h
  have h₂ := py.jsonLimit_le
  simp only [maxDepth] at h₁
  omega

mutual
/-- A value has a canonical form at every depth where it is not nested too deep. -/
theorem Encodable.at_depth : ∀ (d d' : Nat) (v : Value), Encodable d v → d' + v.nest ≤ maxDepth →
    Encodable d' v
  | _, d', .null, _, hn => (Nat.le_add_right d' _).trans hn
  | _, d', .bool _, _, hn => (Nat.le_add_right d' _).trans hn
  | _, d', .int _, h, hn => ⟨(Nat.le_add_right d' _).trans hn, h.2⟩
  | _, _, .float _, h, _ => h.elim
  | _, _, .other _, h, _ => h.elim
  | _, d', .str _, h, hn => ⟨(Nat.le_add_right d' _).trans hn, h.2⟩
  | d, d', .list xs, h, hn => by
      rw [Value.nest] at hn
      exact ⟨by omega, EncodableItems.at_depth (d + 1) (d' + 1) xs h.2 (by omega)⟩
  | d, d', .tuple xs, h, hn => by
      rw [Value.nest] at hn
      exact ⟨by omega, EncodableItems.at_depth (d + 1) (d' + 1) xs h.2 (by omega)⟩
  | d, d', .dict kvs, h, hn => by
      rw [Value.nest] at hn
      exact ⟨by omega, EncodableMembers.at_depth (d + 1) (d' + 1) kvs h.2 (by omega)⟩
/-- The same for members. -/
theorem EncodableMembers.at_depth : ∀ (d d' : Nat) (kvs : List (Key × Value)),
    EncodableMembers d kvs → d' + Value.nestMembers kvs ≤ maxDepth → EncodableMembers d' kvs
  | _, _, [], _, _ => trivial
  | _, _, (.other _, _) :: _, h, _ => h.elim
  | d, d', (.str _, v) :: rest, h, hn => by
      rw [Value.nestMembers] at hn
      exact ⟨h.1, Encodable.at_depth d d' v h.2.1 (by omega),
        EncodableMembers.at_depth d d' rest h.2.2 (by omega)⟩
/-- The same for items. -/
theorem EncodableItems.at_depth : ∀ (d d' : Nat) (xs : List Value), EncodableItems d xs →
    d' + Value.nestItems xs ≤ maxDepth → EncodableItems d' xs
  | _, _, [], _, _ => trivial
  | d, d', v :: rest, h, hn => by
      rw [Value.nestItems] at hn
      exact ⟨Encodable.at_depth d d' v h.1 (by omega),
        EncodableItems.at_depth d d' rest h.2 (by omega)⟩
end

theorem encodableMembers_ofMembers {d : Nat} {ms : List (Str × Value)} :
    EncodableMembers d (ms.map fun p => (Key.str p.1, p.2)) ↔
      ∀ p ∈ ms, TextOk p.1 ∧ Encodable d p.2 := by
  induction ms with
  | nil => simp [EncodableMembers]
  | cons p rest ih => simp [EncodableMembers, ih, and_assoc]

mutual
/-- What is read back has a canonical form again. -/
theorem Encodable.norm : ∀ (d : Nat) (v : Value), Encodable d v →
    Encodable d (Json.norm Style.compact v)
  | _, .null, h => h
  | _, .bool _, h => h
  | _, .int _, h => h
  | _, .float _, h => h.elim
  | _, .other _, h => h.elim
  | _, .str _, h => h
  | d, .list xs, h => ⟨h.1, EncodableItems.norm (d + 1) xs h.2⟩
  | d, .tuple xs, h => ⟨h.1, EncodableItems.norm (d + 1) xs h.2⟩
  | d, .dict kvs, h => by
      refine ⟨h.1, encodableMembers_ofMembers.mpr fun q hq => ?_⟩
      exact EncodableMembers.norm (d + 1) kvs h.2 q ((Style.compact.order_perm _).subset hq)
/-- The same for members. -/
theorem EncodableMembers.norm : ∀ (d : Nat) (kvs : List (Key × Value)), EncodableMembers d kvs →
    ∀ q ∈ normMembers Style.compact kvs, TextOk q.1 ∧ Encodable d q.2
  | _, [], _, _, hq => by cases hq
  | _, (.other _, _) :: _, h, _, _ => h.elim
  | d, (.str _, v) :: rest, h, q, hq => by
      rcases List.mem_cons.mp hq with rfl | hq
      · exact ⟨h.1, Encodable.norm d v h.2.1⟩
      · exact EncodableMembers.norm d rest h.2.2 q hq
/-- The same for items. -/
theorem EncodableItems.norm : ∀ (d : Nat) (xs : List Value), EncodableItems d xs →
    EncodableItems d (normItems Style.compact xs)
  | _, [], _ => trivial
  | d, v :: rest, h => ⟨Encodable.norm d v h.1, EncodableItems.norm d rest h.2⟩
end

/-- The canonical text of a value is read back as its normal form, with any hooks that keep
plain members. -/
theorem loadsWith_canonical (py : Interp) {hooks : Hooks} (hh : hooks.Plain) {v : Value} {t : Str}
    (henc : Encodable 0 v) (hd : v.Distinct) (ht : Json.dump Style.compact 0 v = .ok t) :
    loadsWith hooks py.jsonLimit t = .ok (norm Style.compact v) := by
  obtain ⟨u, hu, hreads⟩ := dump_reads hh Style.valid_compact 0 v (henc.writable 0 v hd)
  obtain rfl := Except.ok.inj (ht.symm.trans hu)
  have := hreads.loadsWith (w := []) (henc.nest_le_jsonLimit py) (by simp)
  rwa [List.append_nil] at this

/-- Canonical bytes are equal exactly for the same JSON value, and are read back as that
value. -/
theorem canonicalBytes_faithful (py : Interp) {a b : Value} {x y : Bytes} (ha : a.Distinct)
    (hb : b.Distinct) (hx : canonicalBytes a = .ok x) (hy : canonicalBytes b = .ok y) :
    (x = y ↔ Same a b) ∧
      ∃ text v, Utf8.decodeStrict x = some text ∧ loads py.jsonLimit text = .ok v ∧ Same a v := by
  obtain ⟨hea, s, hs, hxs⟩ := canonicalBytes_eq_ok.mp hx
  obtain ⟨heb, t, ht, hyt⟩ := canonicalBytes_eq_ok.mp hy
  refine ⟨⟨fun heq => ?_, fun hsame => ?_⟩, s, norm Style.compact a, ?_, ?_, ?_⟩
  · have hn := norm_eq_of_canonicalBytes hx (heq ▸ hy) ha hb
    exact same_of_norm_eq rfl a b (hea.writable 0 a ha) (heb.writable 0 b hb) hn
  · rw [hxs, hyt, dump_eq_of_same rfl 0 a b s t hsame ha hb hs ht]
  · rw [hxs]
    exact Utf8.decodeStrict_encodeAll (scalar_of_plain (hea.plain hs))
  · exact loadsWith_canonical py Hooks.plain_default hea ha hs
  · exact same_norm rfl a (hea.writable 0 a ha)

/-- A dictionary with a tuple. -/
def sampleDict : Value :=
  .dict [(.str (lit "b"), .int 1), (.str (lit "a"), .tuple [.bool true])]

/-- The same dictionary in another order, with a list. -/
def sampleDictReordered : Value :=
  .dict [(.str (lit "a"), .list [.bool true]), (.str (lit "b"), .int 1)]

/-- The sample dictionaries have one canonical form, so they are the same JSON value. -/
theorem canonicalBytes_faithful_sample :
    ∃ x, canonicalBytes sampleDict = .ok x ∧ canonicalBytes sampleDictReordered = .ok x ∧
      Same sampleDict sampleDictReordered := by
  have hx : canonicalBytes sampleDict =
      .ok (Utf8.encodeAll (lit "\x7b\"a\":[true],\"b\":1\x7d")) := by decide +kernel
  have hy : canonicalBytes sampleDictReordered =
      .ok (Utf8.encodeAll (lit "\x7b\"a\":[true],\"b\":1\x7d")) := by decide +kernel
  have hd : sampleDict.Distinct := by
    refine ⟨by decide +kernel, trivial, ⟨trivial, trivial⟩, trivial⟩
  have hd' : sampleDictReordered.Distinct := by
    refine ⟨by decide +kernel, ⟨trivial, trivial⟩, trivial, trivial⟩
  exact ⟨_, hx, hy, (canonicalBytes_faithful .reference hd hd' hx hy).1.mp rfl⟩

/-! ## Canonical timestamps -/

theorem yearText_head (pad : Bool) (y : Nat) :
    ∃ c t, yearText pad y = c :: t ∧ Decimal.isDigit c = true := by
  unfold yearText
  split_ifs
  · obtain ⟨c, t, h⟩ := List.exists_cons_of_ne_nil (Decimal.natText_ne_nil y)
    exact ⟨c, t, h, Decimal.isDigit_of_mem_natText (n := y) (h ▸ List.mem_cons_self)⟩
  · obtain ⟨c, t, h⟩ := List.exists_cons_of_length_eq_add_one (Decimal.padded_length 4 y)
    exact ⟨c, t, h, Decimal.isDigit_of_mem_padded (k := 4) (n := y) (h ▸ List.mem_cons_self)⟩

theorem isSpace_of_isDigit {c : CodePoint} (h : Decimal.isDigit c = true) : isSpace c = false := by
  simp only [Decimal.isDigit, Bool.and_eq_true, decide_eq_true_eq] at h
  simp only [isSpace, Bool.or_eq_false_iff, Bool.and_eq_false_iff, decide_eq_false_iff_not,
    beq_eq_false_iff_ne]
  omega

theorem text_head (pad : Bool) (i : Instant) :
    ∃ c t, i.text pad = c :: t ∧ Decimal.isDigit c = true := by
  obtain ⟨c, t, hc, hd⟩ := yearText_head pad (dateOf (i.micros / dayMicros)).1
  unfold Instant.text spelling
  rw [hc]
  exact ⟨c, _, List.cons_append, hd⟩

theorem strip_text (pad : Bool) (i : Instant) :
    strip (i.text pad ++ [cp 'Z']) = i.text pad ++ [cp 'Z'] := by
  obtain ⟨c, t, hc, hd⟩ := text_head pad i
  rw [hc]
  refine strip_eq_self ?_ ?_ (by simp)
  · intro x hx
    obtain rfl : c = x := by simpa using hx
    exact isSpace_of_isDigit hd
  · intro x hx
    rw [List.getLast?_concat] at hx
    obtain rfl := Option.some.inj hx
    decide

/-- The canonical text of an instant is parsed as it stands, with the offset spelled out. -/
theorem isoCandidate_text (pad : Bool) (i : Instant) :
    isoCandidate (strip (i.text pad ++ [cp 'Z'])) = i.text pad ++ lit "+00:00" := by
  rw [strip_text, isoCandidate, if_pos (.inl List.getLast?_concat), List.dropLast_concat]

theorem normalizeTimestamp_of {py : Interp} {s : Str} {r : Reading} {i : Instant} (hs : s ≠ [])
    (hr : py.fromisoformat (isoCandidate (strip s)) = some r) (hu : r.toUtc = .ok i) :
    normalizeTimestamp py (.str s) = .ok (i.text py.padYears ++ [cp 'Z']) := by
  rw [normalizeTimestamp, if_neg hs, hr]
  simp only [hu]

/-- The canonical text of an instant from year 1000 on is normalised to itself. -/
theorem normalizeTimestamp_text (py : Interp) {i : Instant} (hy : 1000 ≤ i.year) :
    normalizeTimestamp py (.str (i.text py.padYears ++ [cp 'Z'])) =
      .ok (i.text py.padYears ++ [cp 'Z']) := by
  refine normalizeTimestamp_of (by simp) ?_ (toUtc_zero i)
  rw [isoCandidate_text]
  exact py.fromisoformat_text i hy

theorem normalizeTimestamp_eq_ok {py : Interp} {s t : Str}
    (h : normalizeTimestamp py (.str s) = .ok t) :
    ∃ r i, py.fromisoformat (isoCandidate (strip s)) = some r ∧ r.toUtc = .ok i ∧
      t = i.text py.padYears ++ [cp 'Z'] := by
  rw [normalizeTimestamp] at h
  split_ifs at h
  cases hr : py.fromisoformat (isoCandidate (strip s)) with
  | none =>
      rw [hr] at h
      cases h
  | some r =>
      rw [hr] at h
      cases hu : r.toUtc with
      | error e =>
          simp only [hu] at h
          cases e <;> cases h
      | ok i =>
          simp only [hu] at h
          exact ⟨r, i, rfl, hu, (Except.ok.inj h).symm⟩

end Canonicalizer

end IcsDeception
