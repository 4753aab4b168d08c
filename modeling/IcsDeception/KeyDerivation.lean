import IcsDeception.Archive
import IcsDeception.Lib.Expand

/-!
# The key derivation of the archives

The loop of the key derivation makes the blocks of an expansion one after the other and stops
as soon as there are enough of them. The guard on the length is what keeps the counter a byte.
-/

namespace IcsDeception

open Text

namespace Archive

variable {hmac : Bytes → Bytes → Bytes} {prk info : Bytes} {length : Nat}

/-- The values of `okm`, `block` and `counter` with which the loop condition is evaluated. -/
inductive HkdfReaches (hmac : Bytes → Bytes → Bytes) (prk info : Bytes) (length : Nat) :
    Bytes → Bytes → Nat → Prop
  | start : HkdfReaches hmac prk info length [] [] 1
  | round {okm block : Bytes} {counter : Nat} : HkdfReaches hmac prk info length okm block counter →
      okm.length < length →
      HkdfReaches hmac prk info length
        (okm ++ hmac prk (block ++ info ++ [UInt8.ofNat counter]))
        (hmac prk (block ++ info ++ [UInt8.ofNat counter])) (counter + 1)

/-- How many blocks the loop makes. -/
def hkdfRounds (length : Nat) : Nat := (length + 31) / 32

/-- After some rounds the output is the stream so far, the block is its last one and the counter
is ahead by one. -/
theorem HkdfReaches.stream {okm block : Bytes} {counter : Nat}
    (h : HkdfReaches hmac prk info length okm block counter) :
    ∃ k, okm = Expand.stream (hmac prk) info k ∧ block = Expand.block (hmac prk) info k ∧
      counter = k + 1 := by
  induction h with
  | start => exact ⟨0, rfl, rfl, rfl⟩
  | round _ _ ih =>
      obtain ⟨k, rfl, rfl, rfl⟩ := ih
      exact ⟨k + 1, rfl, rfl, rfl⟩

/-- Under the guard every counter that is written is a byte. -/
theorem HkdfReaches.counter_le (hlen : ∀ key m, (hmac key m).length = 32)
    (hguard : length ≤ 255 * 32) {okm block : Bytes} {counter : Nat}
    (h : HkdfReaches hmac prk info length okm block counter) (hmore : okm.length < length) :
    counter ≤ 255 := by
  obtain ⟨k, rfl, -, rfl⟩ := h.stream
  rw [Expand.stream_length (hlen prk)] at hmore
  omega

/-- The loop goes on to the first block with which there is enough output. -/
theorem hkdfLoop_eq_stream (hlen : ∀ key m, (hmac key m).length = 32)
    (hguard : length ≤ 255 * 32) (fuel k : Nat) (hk : k ≤ hkdfRounds length)
    (hfuel : hkdfRounds length ≤ k + fuel) :
    hkdfLoop hmac prk info length fuel (Expand.stream (hmac prk) info k)
      (Expand.block (hmac prk) info k) (k + 1) =
        .ok (Expand.stream (hmac prk) info (hkdfRounds length)) := by
  induction fuel generalizing k with
  | zero =>
      obtain rfl : k = hkdfRounds length := Nat.le_antisymm hk hfuel
      rfl
  | succ fuel ih =>
      rw [hkdfLoop, Expand.stream_length (hlen prk)]
      by_cases hmore : 32 * k < length
      · have hnext : k + 1 ≤ hkdfRounds length := by
          rw [hkdfRounds]
          omega
        rw [if_pos hmore, if_neg (by omega)]
        exact ih (k + 1) hnext (by omega)
      · have hdone : k = hkdfRounds length := by
          rw [hkdfRounds] at hk ⊢
          omega
        rw [if_neg hmore, ← hdone]

/-- The loop ends: from its start, rounds beyond those that it makes change nothing, and then
the output is long enough. -/
theorem hkdfLoop_ends (hlen : ∀ key m, (hmac key m).length = 32) (hguard : length ≤ 255 * 32) :
    (∀ fuel, hkdfRounds length ≤ fuel → hkdfLoop hmac prk info length fuel [] [] 1 =
      .ok (Expand.stream (hmac prk) info (hkdfRounds length))) ∧
    length ≤ (Expand.stream (hmac prk) info (hkdfRounds length)).length := by
  refine ⟨fun fuel hfuel => ?_, ?_⟩
  · exact hkdfLoop_eq_stream hlen hguard fuel 0 (Nat.zero_le _) (by omega)
  · rw [Expand.stream_length (hlen prk), hkdfRounds]
    omega

theorem hkdfSha256_eq (hlen : ∀ key m, (hmac key m).length = 32) (hguard : length ≤ 255 * 32)
    (sharedSecret salt info : Bytes) :
    hkdfSha256 hmac sharedSecret salt info length =
      .ok ((Expand.stream (hmac (hmac salt sharedSecret)) info 255).take length) := by
  obtain ⟨hloop, henough⟩ :=
    @hkdfLoop_ends hmac (hmac salt sharedSecret) info length hlen hguard
  have hfuel : hkdfRounds length ≤ length := by
    rw [hkdfRounds]
    omega
  have hall : length ≤ (Expand.stream (hmac (hmac salt sharedSecret)) info 255).length := by
    rw [Expand.stream_length (hlen _)]
    omega
  rw [hkdfSha256, archiveCheck, if_pos (decide_eq_true hguard)]
  simp only [bind, Except.bind, hloop length hfuel, pure, Except.pure]
  rw [Expand.take_stream_eq henough hall]

/-- Up to 255 blocks the derivation returns the beginning of the stream of blocks, as long as
asked for; the loop ends, every counter that it writes is a byte, and a shorter output is the
beginning of a longer one. -/
theorem hkdfSha256_is_stream (hmac : Bytes → Bytes → Bytes)
    (hlen : ∀ key m, (hmac key m).length = 32) (sharedSecret salt info : Bytes) (length : Nat)
    (hguard : length ≤ 255 * 32) :
    (∃ out, hkdfSha256 hmac sharedSecret salt info length = .ok out ∧ out.length = length ∧
      out <+: Expand.stream (hmac (hmac salt sharedSecret)) info 255 ∧
      ∀ shorter ≤ length,
        hkdfSha256 hmac sharedSecret salt info shorter = .ok (out.take shorter)) ∧
    (∀ fuel, hkdfRounds length ≤ fuel → ∃ okm,
      hkdfLoop hmac (hmac salt sharedSecret) info length fuel [] [] 1 = .ok okm ∧
        length ≤ okm.length) ∧
    ∀ okm block counter,
      HkdfReaches hmac (hmac salt sharedSecret) info length okm block counter →
        okm.length < length → counter ≤ 255 := by
  obtain ⟨hloop, henough⟩ :=
    @hkdfLoop_ends hmac (hmac salt sharedSecret) info length hlen hguard
  refine ⟨⟨_, hkdfSha256_eq hlen hguard sharedSecret salt info, ?_, List.take_prefix _ _, ?_⟩,
    fun fuel hfuel => ⟨_, hloop fuel hfuel, henough⟩,
    fun okm block counter h => h.counter_le hlen hguard⟩
  · rw [List.length_take, Expand.stream_length (hlen _)]
    omega
  · intro shorter hshorter
    rw [hkdfSha256_eq hlen (hshorter.trans hguard) sharedSecret salt info, List.take_take,
      Nat.min_eq_left hshorter]

/-- The longest output that the guard lets through takes all 255 blocks. -/
theorem hkdfSha256_is_stream_longest :
    (∀ key m, ((fun _ _ => List.replicate 32 0 : Bytes → Bytes → Bytes) key m).length = 32) ∧
    (8160 ≤ 255 * 32) ∧
    ∃ out, hkdfSha256 (fun _ _ => List.replicate 32 0) [1] [2] [3] 8160 = .ok out ∧
      out.length = 8160 := by
  refine ⟨fun _ _ => rfl, by decide, ?_⟩
  obtain ⟨⟨out, hout, hlength, -⟩, -⟩ := hkdfSha256_is_stream (fun _ _ => List.replicate 32 0)
    (fun _ _ => List.length_replicate) [1] [2] [3] 8160 (by decide)
  exact ⟨out, hout, hlength⟩

end Archive

end IcsDeception
