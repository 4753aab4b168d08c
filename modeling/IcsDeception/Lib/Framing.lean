import Mathlib.Data.List.Basic

/-!
# Frames cut off a stream

A stream arrives in pieces, and a reader cuts complete frames off the front of what it
has buffered. When the decision about the front of a buffer does not change with what
arrives behind it, the frames do not depend on how the stream was cut into pieces.

## Implementation notes

A frame is shorter than the buffer it is cut off, so a round for each element of the
buffer, and one more, is enough to take every frame.
-/

namespace IcsDeception

/-- What stands at the front of a buffer. -/
inductive Cut (α φ ε : Type*)
  /-- The front is not complete. -/
  | more
  /-- The front is refused, whatever follows. -/
  | refused (e : ε)
  | frame (f : φ) (rest : List α)

/-- A cut with its frames and refusals renamed. -/
def Cut.map {α φ ψ ε δ : Type*} (f : φ → ψ) (g : ε → δ) : Cut α φ ε → Cut α ψ δ
  | .more => .more
  | .refused e => .refused (g e)
  | .frame x rest => .frame (f x) rest

/-- A way of cutting frames that what arrives later does not change. -/
structure Framing (α φ ε : Type*) where
  cut : List α → Cut α φ ε
  shorter : ∀ {b : List α} {f : φ} {rest : List α}, cut b = .frame f rest → rest.length < b.length
  frame_append : ∀ {b : List α} {f : φ} {rest : List α}, cut b = .frame f rest →
    ∀ c, cut (b ++ c) = .frame f (rest ++ c)
  refused_append : ∀ {b : List α} {e : ε}, cut b = .refused e → ∀ c, cut (b ++ c) = .refused e

namespace Framing

variable {α φ ε : Type*} (F : Framing α φ ε)

/-- The frames at the front of a buffer in at most so many rounds, and what is left: the
front of a frame, or the refusal. -/
def drain : Nat → List α → List φ × Except ε (List α)
  | 0, b => ([], .ok b)
  | n + 1, b =>
      match F.cut b with
      | .more => ([], .ok b)
      | .refused e => ([], .error e)
      | .frame f rest => (f :: (drain n rest).1, (drain n rest).2)

/-- All frames at the front of a buffer, and what is left. -/
def frames (b : List α) : List φ × Except ε (List α) := F.drain (b.length + 1) b

variable {F}

theorem drain_eq_drain {n m : Nat} {b : List α} (hn : b.length < n) (hm : b.length < m) :
    F.drain n b = F.drain m b := by
  induction n generalizing b m with
  | zero => exact absurd hn (Nat.not_lt_zero _)
  | succ n ih =>
      obtain ⟨m, rfl⟩ : ∃ k, m = k + 1 := ⟨m - 1, by omega⟩
      rw [drain, drain]
      cases hc : F.cut b with
      | more => rfl
      | refused e => rfl
      | frame f rest =>
          have hlt := F.shorter hc
          simp only [ih (b := rest) (m := m) (by omega) (by omega)]

/-- More rounds than needed change nothing. -/
theorem drain_enough {n : Nat} {b : List α} (h : b.length < n) : F.drain n b = F.frames b :=
  drain_eq_drain h (Nat.lt_succ_self _)

theorem frames_more {b : List α} (h : F.cut b = .more) : F.frames b = ([], .ok b) := by
  rw [frames, drain, h]

theorem frames_refused {b : List α} {e : ε} (h : F.cut b = .refused e) :
    F.frames b = ([], .error e) := by
  rw [frames, drain, h]

theorem frames_frame {b rest : List α} {f : φ} (h : F.cut b = .frame f rest) :
    F.frames b = (f :: (F.frames rest).1, (F.frames rest).2) := by
  simp only [frames, drain, h, drain_enough (F.shorter h)]

/-- The rule of induction over the frames of a buffer. -/
theorem frames_induction {P : List α → Prop} (more : ∀ b, F.cut b = .more → P b)
    (refused : ∀ b e, F.cut b = .refused e → P b)
    (frame : ∀ b f rest, F.cut b = .frame f rest → P rest → P b) (b : List α) : P b := by
  induction hn : b.length using Nat.strongRecOn generalizing b with
  | ind n ih =>
      cases hc : F.cut b with
      | more => exact more b hc
      | refused e => exact refused b e hc
      | frame f rest => exact frame b f rest hc (ih rest.length (hn ▸ F.shorter hc) rest rfl)

/-- What is left is not yet a frame. -/
theorem cut_left {b rest : List α} (h : (F.frames b).2 = .ok rest) : F.cut rest = .more := by
  induction b using F.frames_induction with
  | more b hc =>
      rw [frames_more hc] at h
      rw [← Except.ok.inj h, hc]
  | refused b e hc =>
      rw [frames_refused hc] at h
      cases h
  | frame b f r hc ih =>
      rw [frames_frame hc] at h
      exact ih h

/-- After a refusal nothing that arrives matters. -/
theorem frames_append_refused {b : List α} {e : ε} (h : (F.frames b).2 = .error e) (c : List α) :
    F.frames (b ++ c) = F.frames b := by
  induction b using F.frames_induction with
  | more b hc =>
      rw [frames_more hc] at h
      cases h
  | refused b e' hc => rw [frames_refused hc, frames_refused (F.refused_append hc c)]
  | frame b f rest hc ih =>
      rw [frames_frame hc] at h
      rw [frames_frame hc, frames_frame (F.frame_append hc c), ih h]

/-- What arrives is cut together with what was left. -/
theorem frames_append {b rest : List α} (h : (F.frames b).2 = .ok rest) (c : List α) :
    F.frames (b ++ c) =
      ((F.frames b).1 ++ (F.frames (rest ++ c)).1, (F.frames (rest ++ c)).2) := by
  induction b using F.frames_induction with
  | more b hc =>
      rw [frames_more hc] at h ⊢
      rw [← Except.ok.inj h]
      rfl
  | refused b e hc =>
      rw [frames_refused hc] at h
      cases h
  | frame b f r hc ih =>
      rw [frames_frame hc] at h
      rw [frames_frame hc, frames_frame (F.frame_append hc c), ih h]
      rfl

section Map

variable {ψ δ : Type*} (f : φ → ψ) (g : ε → δ)

variable (F) in
/-- A framing with its frames and refusals renamed. -/
def map : Framing α ψ δ where
  cut b := (F.cut b).map f g
  shorter := by
    intro b y rest h
    cases hc : F.cut b with
    | more =>
        rw [hc] at h
        cases h
    | refused e =>
        rw [hc] at h
        cases h
    | frame x r =>
        rw [hc] at h
        cases h
        exact F.shorter hc
  frame_append := by
    intro b y rest h c
    cases hc : F.cut b with
    | more =>
        rw [hc] at h
        cases h
    | refused e =>
        rw [hc] at h
        cases h
    | frame x r =>
        rw [hc] at h
        cases h
        rw [F.frame_append hc c]
        rfl
  refused_append := by
    intro b e h c
    cases hc : F.cut b with
    | more =>
        rw [hc] at h
        cases h
    | refused e' =>
        rw [hc] at h
        cases h
        rw [F.refused_append hc c]
        rfl
    | frame x r =>
        rw [hc] at h
        cases h

theorem map_cut (b : List α) : (F.map f g).cut b = (F.cut b).map f g := rfl

/-- Renaming does not change how a buffer is cut. -/
theorem frames_map (b : List α) :
    (F.map f g).frames b = ((F.frames b).1.map f, (F.frames b).2.mapError g) := by
  induction b using F.frames_induction with
  | more b hc =>
      have hmap : (F.map f g).cut b = .more := by rw [map_cut, hc, Cut.map]
      rw [frames_more hc, frames_more hmap]
      rfl
  | refused b e hc =>
      have hmap : (F.map f g).cut b = .refused (g e) := by rw [map_cut, hc, Cut.map]
      rw [frames_refused hc, frames_refused hmap]
      rfl
  | frame b x rest hc ih =>
      have hmap : (F.map f g).cut b = .frame (f x) rest := by rw [map_cut, hc, Cut.map]
      rw [frames_frame hc, frames_frame hmap, ih]
      rfl

end Map

end Framing

section Serving

variable {σ φ ο : Type*} (step : σ → φ → List ο × σ)

/-- The outputs for a list of frames, and the state after the last. -/
def serve : σ → List φ → List ο × σ
  | s, [] => ([], s)
  | s, f :: fs => ((step s f).1 ++ (serve (step s f).2 fs).1, (serve (step s f).2 fs).2)

theorem serve_append (s : σ) (fs gs : List φ) :
    serve step s (fs ++ gs) =
      ((serve step s fs).1 ++ (serve step (serve step s fs).2 gs).1,
        (serve step (serve step s fs).2 gs).2) := by
  induction fs generalizing s with
  | nil => rfl
  | cons f fs ih =>
      rw [List.cons_append, serve, ih, serve]
      simp only [List.append_assoc]

end Serving

end IcsDeception
