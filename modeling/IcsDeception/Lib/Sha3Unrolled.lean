import IcsDeception.Lib.Sha3

/-!
# SHA3-256, lane by lane

The permutation with its round written out over the twenty-five lanes. It is the
permutation of the sponge, and it evaluates several times faster, since every lane is
computed once and no lane is looked up in a list.
-/

namespace IcsDeception.Sha3

open Text Json

/-- A rotation to the left by `n`, where `m` is what is left of the lane. -/
def turn (n m x : Nat) : Nat :=
  Nat.mod (Nat.lor (Nat.shiftLeft x n) (Nat.shiftRight x m)) 18446744073709551616

/-- One lane of χ. -/
def pick (x y z : Nat) : Nat := Nat.xor x (Nat.land (Nat.sub 18446744073709551615 y) z)

/-- The steps χ and ι. -/
def chiLanes
    (rc b0 b1 b2 b3 b4 b5 b6 b7 b8 b9 b10 b11 b12 b13 b14 b15 b16 b17 b18 b19 b20 b21 b22 b23
    b24 : Nat) :
    List Nat :=
  [Nat.xor (pick b0 b1 b2) rc, pick b1 b2 b3, pick b2 b3 b4, pick b3 b4 b0, pick b4 b0 b1,
   pick b5 b6 b7, pick b6 b7 b8, pick b7 b8 b9, pick b8 b9 b5, pick b9 b5 b6, pick b10 b11 b12,
   pick b11 b12 b13, pick b12 b13 b14, pick b13 b14 b10, pick b14 b10 b11, pick b15 b16 b17,
   pick b16 b17 b18, pick b17 b18 b19, pick b18 b19 b15, pick b19 b15 b16, pick b20 b21 b22,
   pick b21 b22 b23, pick b22 b23 b24, pick b23 b24 b20, pick b24 b20 b21]

/-- The end of θ, with the mask of each column, and the steps after it. -/
def rhoPiLanes
    (rc a0 a1 a2 a3 a4 a5 a6 a7 a8 a9 a10 a11 a12 a13 a14 a15 a16 a17 a18 a19 a20 a21 a22 a23
    a24 d0 d1 d2 d3 d4 : Nat) :
    List Nat :=
  chiLanes rc
    (turn 0 64 (Nat.xor a0 d0)) (turn 44 20 (Nat.xor a6 d1)) (turn 43 21 (Nat.xor a12 d2))
    (turn 21 43 (Nat.xor a18 d3)) (turn 14 50 (Nat.xor a24 d4)) (turn 28 36 (Nat.xor a3 d3))
    (turn 20 44 (Nat.xor a9 d4)) (turn 3 61 (Nat.xor a10 d0)) (turn 45 19 (Nat.xor a16 d1))
    (turn 61 3 (Nat.xor a22 d2)) (turn 1 63 (Nat.xor a1 d1)) (turn 6 58 (Nat.xor a7 d2))
    (turn 25 39 (Nat.xor a13 d3)) (turn 8 56 (Nat.xor a19 d4)) (turn 18 46 (Nat.xor a20 d0))
    (turn 27 37 (Nat.xor a4 d4)) (turn 36 28 (Nat.xor a5 d0)) (turn 10 54 (Nat.xor a11 d1))
    (turn 15 49 (Nat.xor a17 d2)) (turn 56 8 (Nat.xor a23 d3)) (turn 62 2 (Nat.xor a2 d2))
    (turn 55 9 (Nat.xor a8 d3)) (turn 39 25 (Nat.xor a14 d4)) (turn 41 23 (Nat.xor a15 d0))
    (turn 2 62 (Nat.xor a21 d1))

/-- The masks of θ from the parities of the columns, and the steps after them. -/
def thetaLanes
    (rc a0 a1 a2 a3 a4 a5 a6 a7 a8 a9 a10 a11 a12 a13 a14 a15 a16 a17 a18 a19 a20 a21 a22 a23
    a24 c0 c1 c2 c3 c4 : Nat) :
    List Nat :=
  rhoPiLanes rc
    a0 a1 a2 a3 a4 a5 a6 a7 a8 a9 a10 a11 a12 a13 a14 a15 a16 a17 a18 a19 a20 a21 a22 a23 a24
    (Nat.xor c4 (turn 1 63 c1)) (Nat.xor c0 (turn 1 63 c2)) (Nat.xor c1 (turn 1 63 c3))
    (Nat.xor c2 (turn 1 63 c4)) (Nat.xor c3 (turn 1 63 c0))

/-- A round. -/
def round (rc : Nat) : List Nat → List Nat
  | [a0, a1, a2, a3, a4, a5, a6, a7, a8, a9, a10, a11, a12, a13, a14, a15, a16, a17, a18, a19,
     a20, a21, a22, a23, a24] =>
      thetaLanes rc
        a0 a1 a2 a3 a4 a5 a6 a7 a8 a9 a10 a11 a12 a13 a14 a15 a16 a17 a18 a19 a20 a21 a22 a23
        a24
        (Nat.xor (Nat.xor (Nat.xor (Nat.xor a0 a5) a10) a15) a20)
        (Nat.xor (Nat.xor (Nat.xor (Nat.xor a1 a6) a11) a16) a21)
        (Nat.xor (Nat.xor (Nat.xor (Nat.xor a2 a7) a12) a17) a22)
        (Nat.xor (Nat.xor (Nat.xor (Nat.xor a3 a8) a13) a18) a23)
        (Nat.xor (Nat.xor (Nat.xor (Nat.xor a4 a9) a14) a19) a24)
  | a => iota rc (chi (rhoPi (theta a)))

theorem round_eq (rc : Nat) (a : List Nat) : round rc a = iota rc (chi (rhoPi (theta a))) := by
  unfold round
  split
  · rfl
  · rfl

/-- Keccak-f[1600], with unrolled rounds. -/
def permuteUnrolled (a : List Nat) : List Nat := roundConstants.foldl (fun a rc => round rc a) a

theorem permuteUnrolled_eq : permuteUnrolled = permute := by
  funext a
  unfold permuteUnrolled permute
  congr
  funext a rc
  exact round_eq rc a

/-- The number of a little-endian byte string. -/
def word : Bytes → Nat
  | [] => 0
  | b :: bs => Nat.add b.toNat (Nat.mul 256 (word bs))

theorem word_eq (b : Bytes) : word b = littleEndian b := by
  induction b with
  | nil => rfl
  | cons x bs ih => exact congrArg (fun n => Nat.add x.toNat (Nat.mul 256 n)) ih

/-- The first `n` lanes of a byte string, each read where the one before it ends. -/
def lanesFrom : Nat → Bytes → List Nat
  | 0, _ => []
  | n + 1, b => word (b.take 8) :: lanesFrom n (b.drop 8)

theorem lanesFrom_eq (n : Nat) (b : Bytes) :
    lanesFrom n b = (List.range n).map fun i => littleEndian ((b.drop (8 * i)).take 8) := by
  induction n generalizing b with
  | zero => rfl
  | succ n ih =>
    rw [lanesFrom, ih, List.range_succ_eq_map, List.map_cons, List.map_map, word_eq,
      Nat.mul_zero, List.drop_zero]
    congr 1
    refine List.map_congr_left fun i _ => ?_
    rw [List.drop_drop, Function.comp_apply, Nat.mul_succ, Nat.add_comm]

/-- Absorb the blocks of a padded message, with unrolled rounds. -/
def absorbUnrolled : Nat → Bytes → List Nat → List Nat
  | 0, _, a => a
  | n + 1, m, a =>
      absorbUnrolled n (m.drop rate)
        (permuteUnrolled (List.zipWith (· ^^^ ·) a (lanesFrom 25 (m.take rate))))

theorem absorbUnrolled_eq (n : Nat) (m : Bytes) (a : List Nat) :
    absorbUnrolled n m a = absorb n m a := by
  induction n generalizing m a with
  | zero => rfl
  | succ n ih => rw [absorbUnrolled, absorb, permuteUnrolled_eq, ih, lanesFrom_eq, blockLanes]

/-- The state after a whole message, with unrolled rounds. -/
def spongeUnrolled (m : Bytes) : List Nat :=
  absorbUnrolled ((padMessage m).length / rate) (padMessage m) (List.replicate 25 0)

/-- The digest, with unrolled rounds. -/
def hexdigestUnrolled (m : Bytes) : Str := (List.range 32).flatMap (digestPair (spongeUnrolled m))

theorem hexdigest_eq_unrolled : hexdigest = hexdigestUnrolled := by
  funext m
  unfold hexdigest hexdigestUnrolled sponge spongeUnrolled
  rw [absorbUnrolled_eq]

end IcsDeception.Sha3
