import IcsDeception.Lib.Json.RoundTrip

/-!
# Objects put together by hand

A writer that concatenates its texts itself may escape more than the library does. What
counts is how the string between the quotes is scanned. The members of an object that is put
together from such strings are read back in order, repeated keys included.
-/

namespace IcsDeception.Json

open Text

/-- The hooks that keep every pair of an object, in order. -/
def Hooks.pairs : Hooks where
  objectPairs pairs := .ok (.list (pairs.map fun p => .list [.str p.1, p.2]))
  constant name := .ok (.float name)

/-- A text that is scanned as a string up to the quote behind it. -/
def Spells (raw s : Str) : Prop := ∀ r, scanString (raw ++ cp '"' :: r) = .ok (s, r)

theorem spells_nil : Spells [] [] := fun r => scanString_quote r

/-- A character that is no leading surrogate, in front of a string. -/
theorem Spells.cons (ascii : Bool) {c : CodePoint} (hc : isHigh c = false) {raw s : Str}
    (h : Spells raw s) : Spells (escapeOne ascii c ++ raw) (c :: s) := by
  intro r
  have hlow : lowAhead c (raw ++ cp '"' :: r) = none := by
    rw [lowAhead, hc]
    rfl
  rw [List.append_assoc, scanString_escapeOne ascii hlow, h r]
  rfl

/-- A text without leading surrogates, as the library escapes it. -/
theorem spells_escape (ascii : Bool) {s : Str} (h : ∀ c ∈ s, isHigh c = false) :
    Spells (escape ascii s) s := by
  induction s with
  | nil => exact spells_nil
  | cons c rest ih =>
      obtain ⟨hc, hrest⟩ := List.forall_mem_cons.mp h
      exact (ih hrest).cons ascii hc

theorem Spells.reads {raw s : Str} (hs : Spells raw s) (h : Hooks) :
    Reads h 0 (cp '"' :: (raw ++ [cp '"'])) (.str s) where
  head := ⟨_, _, rfl, by decide, by decide, by decide⟩
  scan := by
    intro fuel depth r hf _ _
    obtain ⟨fuel, rfl⟩ : ∃ k, fuel = k + 1 := ⟨fuel - 1, by omega⟩
    simp only [List.cons_append, List.append_assoc, List.nil_append, scanOnce, if_true, hs r]
    rfl

/-- A member of an object: its texts, and what they are read as. -/
structure Spelled (h : Hooks) (need : Nat) where
  rawKey : Str
  text : Str
  key : Str
  value : Value
  spells : Spells rawKey key
  reads : Reads h need text value

namespace Spelled

variable {h : Hooks} {need : Nat}

/-- The text of a member. -/
def written (p : Spelled h need) : Str := cp '"' :: (p.rawKey ++ cp '"' :: cp ':' :: p.text)

/-- What a member is read as. -/
def pair (p : Spelled h need) : Str × Value := (p.key, p.value)

/-- The scan of one member up to what follows its value. -/
theorem scan_written (p : Spelled h need) {fuel depth : Nat} {r : Str}
    (hf : 2 * p.written.length ≤ fuel) (hd : need ≤ depth) (hr : Stops r) :
    scanMembers h (fuel + 1) depth (p.written ++ r) =
      if (skipWs r).head? = some (cp '}') then .ok ([p.pair], (skipWs r).tail)
      else if (skipWs r).head? = some (cp ',') then do
        let (ms, rest) ← scanMembers h fuel depth (skipWs (skipWs r).tail)
        return (p.pair :: ms, rest)
      else .error .decode := by
  have hshape : p.written ++ r = cp '"' :: (p.rawKey ++ cp '"' :: (cp ':' :: (p.text ++ r))) := by
    simp only [written, List.cons_append, List.append_assoc]
  have hlength : p.text.length + 3 ≤ p.written.length := by
    simp only [written, List.length_cons, List.length_append]
    omega
  have hskip : skipWs (p.text ++ r) = p.text ++ r :=
    p.reads.skip (w := []) fun c hc => absurd hc List.not_mem_nil
  rw [hshape, scanMembers, if_pos rfl, p.spells]
  simp only [bind, Except.bind, skipWs_cons (show isWs (cp ':') = false by decide),
    List.head?_cons, if_true, List.tail_cons, hskip,
    p.reads.scan fuel depth r (by omega) hd hr]
  rfl

/-- The members between braces are scanned in order. -/
theorem scanMembers_joined {depth : Nat} (hd : need ≤ depth) (ps : List (Spelled h need))
    (p : Spelled h need) (fuel : Nat)
    (hf : 2 * (joined [cp ','] ((p :: ps).map written)).length + 1 ≤ fuel) (r : Str) :
    scanMembers h fuel depth (joined [cp ','] ((p :: ps).map written) ++ cp '}' :: r) =
      .ok ((p :: ps).map pair, r) := by
  induction ps generalizing p fuel with
  | nil =>
      obtain ⟨fuel, rfl⟩ : ∃ k, fuel = k + 1 := ⟨fuel - 1, by omega⟩
      have hone : joined [cp ','] [p.written] = p.written := List.append_nil _
      simp only [List.map_cons, List.map_nil, hone] at hf ⊢
      rw [p.scan_written (by omega) hd (stops_cons (by decide)),
        skipWs_cons (show isWs (cp '}') = false by decide), List.head?_cons, if_pos rfl]
      rfl
  | cons q qs ih =>
      obtain ⟨fuel, rfl⟩ : ∃ k, fuel = k + 1 := ⟨fuel - 1, by omega⟩
      simp only [List.map_cons, joined_cons_cons, List.length_append, List.length_cons,
        List.length_nil] at hf ih ⊢
      have hskip : skipWs (joined [cp ','] (q.written :: qs.map written) ++ cp '}' :: r) =
          joined [cp ','] (q.written :: qs.map written) ++ cp '}' :: r := by
        simp only [joined, written, List.cons_append]
        exact skipWs_cons (by decide) _
      rw [List.append_assoc, List.append_assoc, List.singleton_append,
        p.scan_written (by omega) hd (stops_cons (by decide)),
        skipWs_cons (show isWs (cp ',') = false by decide), List.head?_cons,
        if_neg (by decide), if_pos rfl, List.tail_cons, hskip, ih q fuel (by omega)]
      rfl

/-- An object is read as what the hook makes of its members. -/
theorem reads_object (ps : List (Spelled h need)) {v : Value}
    (hpairs : h.objectPairs (ps.map pair) = .ok v) :
    Reads h (need + 1) (cp '{' :: (joined [cp ','] (ps.map written) ++ [cp '}'])) v where
  head := ⟨_, _, rfl, by decide, by decide, by decide⟩
  scan := by
    intro fuel depth r hf hd _
    obtain ⟨fuel, rfl⟩ : ∃ k, fuel = k + 1 := ⟨fuel - 1, by omega⟩
    have hdeep : depth ≠ 0 := by omega
    simp only [List.length_cons, List.length_append, List.length_nil] at hf
    rw [List.cons_append, List.append_assoc, List.singleton_append, scanOnce,
      if_neg (by decide), if_pos rfl, if_neg hdeep]
    cases ps with
    | nil =>
        have hskip : skipWs (joined [cp ','] (List.map written ([] : List (Spelled h need))) ++
            cp '}' :: r) = cp '}' :: r := skipWs_cons (by decide) _
        rw [opened, hskip, List.head?_cons, if_pos rfl]
        simp only [List.map_nil] at hpairs
        simp only [bind, Except.bind, hpairs]
        rfl
    | cons p ps =>
        have hskip : skipWs (joined [cp ','] ((p :: ps).map written) ++ cp '}' :: r) =
            joined [cp ','] ((p :: ps).map written) ++ cp '}' :: r := by
          simp only [List.map_cons, joined, written, List.cons_append]
          exact skipWs_cons (by decide) _
        have hopen : (joined [cp ','] ((p :: ps).map written) ++ cp '}' :: r).head? ≠
            some (cp '}') := by
          simp only [List.map_cons, joined, written, List.cons_append, List.head?_cons]
          decide
        rw [opened, hskip, if_neg hopen,
          scanMembers_joined (by omega) ps p fuel (by omega) r]
        simp only [bind, Except.bind, hpairs]
        rfl

end Spelled

end IcsDeception.Json
