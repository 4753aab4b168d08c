import IcsDeception.Lib.Json.Encode

/-!
# SHA3-256

The sponge over Keccak-f[1600], with lanes as natural numbers below 2^64. The only
fact that is used about it is the form of its digest; the definition is there so that
whole streams can be evaluated.
-/

namespace IcsDeception.Sha3

open Text Json

/-- The size of a block, in bytes. -/
def rate : Nat := 136

/-- Rotation of a lane to the left. -/
def rotl (x n : Nat) : Nat := ((x <<< n) ||| (x >>> (64 - n))) % 2 ^ 64

/-- A lane of the state. -/
def lane (a : List Nat) (i : Nat) : Nat := a.getD i 0

/-- The parity of a column. -/
def parity (a : List Nat) (x : Nat) : Nat :=
  lane a x ^^^ lane a (x + 5) ^^^ lane a (x + 10) ^^^ lane a (x + 15) ^^^ lane a (x + 20)

/-- The step θ. -/
def theta (a : List Nat) : List Nat :=
  let c := (List.range 5).map (parity a)
  let d := (List.range 5).map fun x => lane c ((x + 4) % 5) ^^^ rotl (lane c ((x + 1) % 5)) 1
  (List.range 25).map fun i => lane a i ^^^ lane d (i % 5)

/-- The lane that the steps ρ and π put at a position, and its rotation. -/
def rhoPiTable : List (Nat × Nat) :=
  [(0, 0), (6, 44), (12, 43), (18, 21), (24, 14), (3, 28), (9, 20), (10, 3), (16, 45), (22, 61),
   (1, 1), (7, 6), (13, 25), (19, 8), (20, 18), (4, 27), (5, 36), (11, 10), (17, 15), (23, 56),
   (2, 62), (8, 55), (14, 39), (15, 41), (21, 2)]

/-- The steps ρ and π. -/
def rhoPi (a : List Nat) : List Nat := rhoPiTable.map fun p => rotl (lane a p.1) p.2

/-- The step χ. -/
def chi (b : List Nat) : List Nat :=
  (List.range 25).map fun i =>
    lane b i ^^^ ((2 ^ 64 - 1 - lane b (i / 5 * 5 + (i + 1) % 5)) &&& lane b (i / 5 * 5 + (i + 2) % 5))

/-- The round constants. -/
def roundConstants : List Nat :=
  [0x0000000000000001, 0x0000000000008082, 0x800000000000808A, 0x8000000080008000,
   0x000000000000808B, 0x0000000080000001, 0x8000000080008081, 0x8000000000008009,
   0x000000000000008A, 0x0000000000000088, 0x0000000080008009, 0x000000008000000A,
   0x000000008000808B, 0x800000000000008B, 0x8000000000008089, 0x8000000000008003,
   0x8000000000008002, 0x8000000000000080, 0x000000000000800A, 0x800000008000000A,
   0x8000000080008081, 0x8000000000008080, 0x0000000080000001, 0x8000000080008008]

/-- The step ι. -/
def iota (rc : Nat) (a : List Nat) : List Nat :=
  match a with
  | [] => []
  | x :: rest => (x ^^^ rc) :: rest

/-- Keccak-f[1600]. -/
def permute (a : List Nat) : List Nat :=
  roundConstants.foldl (fun a rc => iota rc (chi (rhoPi (theta a)))) a

/-- The number of a little-endian byte string. -/
def littleEndian (b : Bytes) : Nat := b.foldr (fun x acc => x.toNat + 256 * acc) 0

/-- The message with the domain bits and the padding. -/
def padMessage (m : Bytes) : Bytes :=
  let q := rate - m.length % rate
  m ++ if q = 1 then [0x86] else 0x06 :: (List.replicate (q - 2) 0x00 ++ [0x80])

/-- A block as lanes. -/
def blockLanes (block : Bytes) : List Nat :=
  (List.range 25).map fun i => littleEndian ((block.drop (8 * i)).take 8)

/-- Absorb the blocks of a padded message. -/
def absorb : Nat → Bytes → List Nat → List Nat
  | 0, _, a => a
  | n + 1, m, a =>
      absorb n (m.drop rate) (permute (List.zipWith (· ^^^ ·) a (blockLanes (m.take rate))))

/-- The state after a whole message. -/
def sponge (m : Bytes) : List Nat :=
  absorb ((padMessage m).length / rate) (padMessage m) (List.replicate 25 0)

/-- The two hexadecimal digits of a byte of the digest. -/
def digestPair (a : List Nat) (i : Nat) : Str :=
  [hexChar (lane a (i / 8) >>> (8 * (i % 8)) / 16 % 16), hexChar (lane a (i / 8) >>> (8 * (i % 8)) % 16)]

/-- `hashlib.sha3_256(m).hexdigest()`. -/
def hexdigest (m : Bytes) : Str := (List.range 32).flatMap (digestPair (sponge m))

theorem hexdigest_length (m : Bytes) : (hexdigest m).length = 64 := by
  simp [hexdigest, List.length_flatMap, digestPair]

theorem mem_hexdigest {m : Bytes} {c : CodePoint} (h : c ∈ hexdigest m) :
    ∃ n < 16, c = hexChar n := by
  obtain ⟨i, -, hc⟩ := List.mem_flatMap.mp h
  simp only [digestPair, List.mem_cons, List.not_mem_nil, or_false] at hc
  rcases hc with rfl | rfl
  · exact ⟨_, Nat.mod_lt _ (by decide), rfl⟩
  · exact ⟨_, Nat.mod_lt _ (by decide), rfl⟩

end IcsDeception.Sha3
