import Mathlib.Data.List.Infix

/-!
# Streaming decompressors

An object that takes its input in pieces and returns at most a given number of output
symbols at each call. What it has not read of a piece it hands back as the unconsumed tail,
and it may hold back output until it is flushed.

`Inflater.Streams` says what ties such an object to a decompression in one shot, over the
runs of its calls: no call fails on input that the decompression accepts, and the outputs of
a run with the flush make up the decompression of what was fed.
-/

namespace IcsDeception

/-- A streaming decompressor. A call that fails gives nothing. -/
structure Inflater (α β : Type) where
  State : Type
  start : State
  decompress : State → List α → Nat → Option (List β × State)
  unconsumedTail : State → List α
  flush : State → Option (List β)

namespace Inflater

variable {α β : Type}

/-- The runs of calls: the state, the input consumed and the output returned so far. -/
inductive Ran (d : Inflater α β) : d.State → List α → List β → Prop
  | start : Ran d d.start [] []
  | decompress {s s' : d.State} {used eaten pending : List α} {out data : List β} {max : Nat} :
      Ran d s used out → pending ≠ [] → 0 < max →
      d.decompress s pending max = some (data, s') →
      pending = eaten ++ d.unconsumedTail s' → Ran d s' (used ++ eaten) (out ++ data)

/-- What a call makes of the pending input. -/
structure Step (d : Inflater α β) (s : d.State) (pending : List α) (max : Nat) (data : List β)
    (s' : d.State) (eaten : List α) : Prop where
  returns : d.decompress s pending max = some (data, s')
  bounded : data.length ≤ max
  splits : pending = eaten ++ d.unconsumedTail s'
  /-- A call that leaves input has read some or returned some. -/
  progress : d.unconsumedTail s' ≠ [] → 0 < eaten.length + data.length

/-- The object decompresses what it is fed, as the decompression in one shot does. -/
structure Streams (d : Inflater α β) (oneShot : List α → Option (List β)) : Prop where
  /-- What begins an accepted input is accepted. -/
  initial : ∀ a b, (oneShot (a ++ b)).isSome = true → (oneShot a).isSome = true
  start_tail : d.unconsumedTail d.start = []
  decompress : ∀ {s used out pending max}, d.Ran s used out → pending ≠ [] → 0 < max →
    (oneShot (used ++ pending)).isSome = true →
    ∃ data s' eaten, d.Step s pending max data s' eaten
  flush : ∀ {s used out whole}, d.Ran s used out →
    oneShot (used ++ d.unconsumedTail s) = some whole →
    ∃ rest, d.flush s = some rest ∧ out ++ rest = whole

theorem Ran.step {d : Inflater α β} {s s' : d.State} {used eaten pending : List α}
    {out data : List β} {max : Nat} (h : d.Ran s used out) (hne : pending ≠ []) (hmax : 0 < max)
    (hstep : d.Step s pending max data s' eaten) : d.Ran s' (used ++ eaten) (out ++ data) :=
  .decompress h hne hmax hstep.returns hstep.splits

/-- What a run has returned begins the decompression of everything that is still to be fed. -/
theorem Streams.output_isPrefix {d : Inflater α β} {oneShot : List α → Option (List β)}
    (h : d.Streams oneShot) {s : d.State} {used pending : List α} {out whole : List β}
    (hrun : d.Ran s used out) (hwhole : oneShot (used ++ pending) = some whole)
    (htail : pending = [] → d.unconsumedTail s = []) : out <+: whole := by
  by_cases hne : pending = []
  · have hflushed : oneShot (used ++ d.unconsumedTail s) = some whole := by
      rw [htail hne, ← hne, hwhole]
    obtain ⟨rest, -, hrest⟩ := h.flush hrun hflushed
    exact ⟨rest, hrest⟩
  · -- one more call reaches a state that holds everything, and a flush there completes it
    obtain ⟨data, s', eaten, hstep⟩ := h.decompress hrun hne Nat.one_pos (by rw [hwhole]; rfl)
    have hflushed : oneShot (used ++ eaten ++ d.unconsumedTail s') = some whole := by
      rw [List.append_assoc, ← hstep.splits, hwhole]
    obtain ⟨rest, -, hrest⟩ := h.flush (hrun.step hne Nat.one_pos hstep) hflushed
    exact ⟨data ++ rest, by rw [← List.append_assoc, hrest]⟩

/-- The measure of a loop over the unconsumed tail: input that is pending, and output that is
still to come. -/
def remaining (whole : List β) (pending : List α) (out : List β) : Nat :=
  pending.length + (whole.length - out.length)

/-- A call that leaves input decreases the measure. -/
theorem Step.remaining_lt {d : Inflater α β} {s s' : d.State} {pending eaten : List α}
    {data out whole : List β} {max : Nat} (h : d.Step s pending max data s' eaten)
    (htail : d.unconsumedTail s' ≠ []) (hout : out ++ data <+: whole) :
    remaining whole (d.unconsumedTail s') (out ++ data) < remaining whole pending out := by
  have hprogress := h.progress htail
  have hsplit := congrArg List.length h.splits
  have hle := hout.length_le
  rw [List.length_append] at hsplit hle
  rw [remaining, remaining, List.length_append]
  omega

/-! ## An object for every decompression -/

/-- The object that reads everything at once and returns as much as it may, for a
decompression that is given on every beginning of its input. -/
def ofOneShot (oneShot : List α → Option (List β)) : Inflater α β where
  State := List α × List β
  start := ([], [])
  decompress s pending max :=
    (oneShot (s.1 ++ pending)).map fun whole =>
      let data := (whole.drop s.2.length).take max
      (data, (s.1 ++ pending, s.2 ++ data))
  unconsumedTail _ := []
  flush s := (oneShot s.1).map fun whole => whole.drop s.2.length

/-- The state of the object is its history, and what it has returned begins the output. -/
theorem ofOneShot_ran {oneShot : List α → Option (List β)}
    (hmono : ∀ a b part whole, oneShot a = some part → oneShot (a ++ b) = some whole →
      part <+: whole)
    (hinit : ∀ a b, (oneShot (a ++ b)).isSome = true → (oneShot a).isSome = true)
    {s : (ofOneShot oneShot).State} {used : List α} {out : List β}
    (h : (ofOneShot oneShot).Ran s used out) :
    s = ((used, out) : List α × List β) ∧ ∀ whole, oneShot used = some whole → out <+: whole := by
  induction h with
  | start => exact ⟨rfl, fun whole _ => List.nil_prefix⟩
  | @decompress s s' used eaten pending out data max _ _ _ hcall hsplit ih =>
      obtain ⟨rfl, hfront⟩ := ih
      obtain ⟨whole, hwhole, hresult⟩ := Option.map_eq_some_iff.mp hcall
      obtain ⟨rfl, rfl⟩ := Prod.mk.inj hresult
      obtain rfl : pending = eaten := hsplit.trans (List.append_nil eaten)
      refine ⟨rfl, fun whole' hwhole' => ?_⟩
      obtain rfl := Option.some.inj (hwhole.symm.trans hwhole')
      obtain ⟨part, hpart⟩ := Option.isSome_iff_exists.mp
        (hinit used pending (by rw [hwhole]; rfl))
      obtain ⟨rest, rfl⟩ := (hfront part hpart).trans (hmono used pending part whole hpart hwhole)
      rw [List.drop_left]
      exact (List.prefix_append_right_inj out).mpr (List.take_prefix max rest)

theorem ofOneShot_streams {oneShot : List α → Option (List β)}
    (hmono : ∀ a b part whole, oneShot a = some part → oneShot (a ++ b) = some whole →
      part <+: whole)
    (hinit : ∀ a b, (oneShot (a ++ b)).isSome = true → (oneShot a).isSome = true) :
    (ofOneShot oneShot).Streams oneShot where
  initial := hinit
  start_tail := rfl
  decompress := by
    intro s used out pending max hrun _ _ hsome
    obtain ⟨rfl, -⟩ := ofOneShot_ran hmono hinit hrun
    obtain ⟨whole, hwhole⟩ := Option.isSome_iff_exists.mp hsome
    have hcall : (ofOneShot oneShot).decompress ((used, out) : List α × List β) pending max =
        some ((whole.drop out.length).take max,
          ((used ++ pending, out ++ (whole.drop out.length).take max) : List α × List β)) := by
      show (oneShot (used ++ pending)).map _ = _
      rw [hwhole]
      rfl
    exact ⟨_, _, pending, {
      returns := hcall
      bounded := List.length_take_le ..
      splits := (List.append_nil pending).symm
      progress := fun h => (h rfl).elim }⟩
  flush := by
    intro s used out whole hrun hwhole
    obtain ⟨rfl, hfront⟩ := ofOneShot_ran hmono hinit hrun
    have hused : oneShot used = some whole := by
      rw [← hwhole]
      exact congrArg oneShot (List.append_nil used).symm
    obtain ⟨rest, rfl⟩ := hfront whole hused
    refine ⟨rest, ?_, rfl⟩
    show (oneShot used).map _ = _
    rw [hused, Option.map_some, List.drop_left]

end Inflater

end IcsDeception
