import IcsDeception.Lib.Text

/-!
# Counter-mode expansion

The blocks of an expansion, each made from the one before, the context and a counter byte,
and the stream that they form.
-/

namespace IcsDeception.Expand

open Text

variable (mac : Bytes → Bytes) (info : Bytes)

/-- The block `T(i)`; `T(0)` is empty. -/
def block : Nat → Bytes
  | 0 => []
  | i + 1 => mac (block i ++ info ++ [UInt8.ofNat (i + 1)])

/-- `T(1) || … || T(n)`. -/
def stream : Nat → Bytes
  | 0 => []
  | n + 1 => stream n ++ block mac info (n + 1)

variable {mac} {info}

theorem block_length {size : Nat} (h : ∀ m, (mac m).length = size) (i : Nat) :
    (block mac info (i + 1)).length = size := h _

theorem stream_length {size : Nat} (h : ∀ m, (mac m).length = size) (n : Nat) :
    (stream mac info n).length = size * n := by
  induction n with
  | zero => rfl
  | succ n ih => rw [stream, List.length_append, ih, block_length h, Nat.mul_succ]

/-- A longer stream goes on where a shorter one ends. -/
theorem stream_prefix {n m : Nat} (h : n ≤ m) : stream mac info n <+: stream mac info m := by
  induction m, h using Nat.le_induction with
  | base => exact List.prefix_refl _
  | succ m _ ih => exact ih.trans (List.prefix_append _ _)

/-- Where both streams are long enough they begin alike. -/
theorem take_stream_eq {n m length : Nat} (hn : length ≤ (stream mac info n).length)
    (hm : length ≤ (stream mac info m).length) :
    (stream mac info n).take length = (stream mac info m).take length := by
  have hle : ∀ {n m : Nat}, n ≤ m → length ≤ (stream mac info n).length →
      (stream mac info n).take length = (stream mac info m).take length := by
    intro n m h hlength
    obtain ⟨rest, hrest⟩ : stream mac info n <+: stream mac info m := stream_prefix h
    rw [← hrest, List.take_append_of_le_length hlength]
  rcases Nat.le_total n m with h | h
  · exact hle h hn
  · exact (hle h hm).symm

end IcsDeception.Expand
