import MaliciousPsu.Aok.Known
import MaliciousPsu.Keys
import MaliciousPsu.Ladder
import MaliciousPsu.Mapping

/-!
# The one-sided protocols

The parties of `onesided.rs`.  Both sides hash their items to the curve and blind the other's
points, by a clamped integer once and by a scalar once; the receiver looks the sender's points up
among its own, shuffled, and gets the items that it did not find by oblivious transfer.  The
semi-honest protocol does this on abscissas, the other on Edwards points.

* `toEdwards_hashToCurve`: every hash is the abscissa of a point of the curve.
* `mulScalar_mulClamped`: the two blindings commute and lose the component in `E[8]`.
* `toMontgomery_eq_iff`: in the subgroup of order `ℓ` an abscissa is a point up to its sign.
-/

namespace MaliciousPsu

open FieldElement

/-! ### Hashing to the curve -/

/-- `hash_to_field`. -/
def hashToField (O : Oracles) (input : List UInt8) : FieldElement := fromBytes (O.blake2s input)

/-- `hash_to_curve`. -/
def hashToCurve (O : Oracles) (input : List UInt8) : MontgomeryPoint :=
  fieldToMont (hashToField O input)

/-- `hash_to_curve(item).to_edwards(0u8).unwrap()`. -/
def itemToEdwards (O : Oracles) (item : Block) : Run EdwardsPoint :=
  unwrap (toEdwards (hashToCurve O (Block.bytes item)) 0)

/-- The point with abscissa `hash_to_curve(item)`. -/
def curvePoint (O : Oracles) (item : Block) : EdwardsPoint :=
  (toEdwards (hashToCurve O (Block.bytes item)) 0).getD 0

/-- **A hash is the abscissa of a point of the curve.** -/
theorem toEdwards_hashToCurve (O : Oracles) (input : List UInt8) :
    ∃ P, toEdwards (hashToCurve O input) 0 = some P ∧ toMontgomery P = hashToCurve O input := by
  obtain ⟨P, hP, hu⟩ := toEdwards_asBytes (map_ne_neg_one (hashToField O input))
    Elligator.isSquare_mont_map
  rw [hashToCurve, fieldToMont_eq]
  exact ⟨P, hP, by rw [toMontgomery_eq, hu]⟩

theorem itemToEdwards_eq (O : Oracles) (item : Block) :
    itemToEdwards O item = .ok (curvePoint O item) := by
  obtain ⟨P, hP, -⟩ := toEdwards_hashToCurve O (Block.bytes item)
  rw [itemToEdwards, curvePoint, hP, unwrap_some, Option.getD_some]

theorem toMontgomery_curvePoint (O : Oracles) (item : Block) :
    toMontgomery (curvePoint O item) = hashToCurve O (Block.bytes item) := by
  obtain ⟨P, hP, hu⟩ := toEdwards_hashToCurve O (Block.bytes item)
  rw [curvePoint, hP, Option.getD_some, hu]

/-! ### The parties -/

/-- The fields of `PartySender` and of `PartySender1M`. -/
structure Sender where
  input : List UInt8
  n : ℕ
  sk8 : Bytes32
  sk : Scalar
  pi : List ℕ

/-- The fields of `PartyReceiver` and of `PartyReceiver1M`. -/
structure Receiver where
  input : List UInt8
  n : ℕ
  sk8 : Bytes32
  sk : Scalar

/-- `new`, on the random bytes and the permutation it drew. -/
def Sender.new {recvSize : ℕ} (input : List UInt8) (n : ℕ) (raw : Bytes32)
    (π : Equiv.Perm (Fin recvSize)) : Sender where
  input := input
  n := n
  sk8 := (Keys.new raw).sk8
  sk := (Keys.new raw).sk
  pi := permList π

/-- `new`, on the random bytes it drew. -/
def Receiver.new (input : List UInt8) (n : ℕ) (raw : Bytes32) : Receiver where
  input := input
  n := n
  sk8 := (Keys.new raw).sk8
  sk := (Keys.new raw).sk

/-- `compare`: the points that a hash set contains, for the equality of its entries. -/
def compareBy (eq : Bytes32 → Bytes32 → Bool) (senderPoints shuffled : List Bytes32) : List Bool :=
  senderPoints.map fun point => shuffled.any fun entry => eq entry point

namespace PartySender

/-- `gen`. -/
def gen (O : Oracles) (party : Sender) : List MontgomeryPoint × List MontgomeryPoint :=
  let original := (chunksExact party.input).map fun item => hashToCurve O (Block.bytes item)
  (original.map fun hx => MontgomeryPoint.mulClamped hx party.sk8, original)

/-- `blind_and_shuffle`. -/
def blindAndShuffle (party : Sender) (receiverPoints : List MontgomeryPoint) :
    Run (List MontgomeryPoint) :=
  party.pi.mapM fun i => do return MontgomeryPoint.mul (← idx receiverPoints i) party.sk

end PartySender

namespace PartyReceiver

/-- `gen`. -/
def gen (O : Oracles) (party : Receiver) : List MontgomeryPoint :=
  (chunksExact party.input).map fun item =>
    MontgomeryPoint.mulClamped (hashToCurve O (Block.bytes item)) party.sk8

/-- `blind`. -/
def blind (party : Receiver) (senderPoints : List MontgomeryPoint) : List MontgomeryPoint :=
  senderPoints.map fun point => MontgomeryPoint.mul point party.sk

/-- `compare`; equal abscissas are equal modulo `p`. -/
def compare : List MontgomeryPoint → List MontgomeryPoint → List Bool :=
  compareBy fun a b => fromBytes a == fromBytes b

end PartyReceiver

namespace PartySender1M

/-- `gen`: the blinded points, and the hashes with their encodings. -/
def gen (O : Oracles) (party : Sender) :
    Run (List CompressedEdwardsY × List EdwardsPoint × List CompressedEdwardsY) := do
  let original ← (chunksExact party.input).mapM (itemToEdwards O)
  return (original.map fun hx => EdwardsPoint.compress (mulClamped hx party.sk8), original,
    original.map EdwardsPoint.compress)

/-- `blind_and_shuffle`. -/
def blindAndShuffle (party : Sender) (receiverPoints : List CompressedEdwardsY) :
    Run (List CompressedEdwardsY) :=
  party.pi.mapM fun i => do
    let point ← unwrap (EdwardsPoint.decompress (← idx receiverPoints i))
    return EdwardsPoint.compress (mulScalar point party.sk)

end PartySender1M

namespace PartyReceiver1M

/-- `gen`. -/
def gen (O : Oracles) (party : Receiver) : Run (List CompressedEdwardsY) :=
  (chunksExact party.input).mapM fun item => do
    return EdwardsPoint.compress (mulClamped (← itemToEdwards O item) party.sk8)

/-- `blind`: the blinded points, and the sender's points decompressed. -/
def blind (party : Receiver) (senderPoints : List CompressedEdwardsY) :
    Run (List CompressedEdwardsY × List EdwardsPoint) := do
  let points ← senderPoints.mapM fun b => unwrap (EdwardsPoint.decompress b)
  return (points.map fun point => EdwardsPoint.compress (mulScalar point party.sk), points)

/-- `compare`. -/
def compare : List CompressedEdwardsY → List CompressedEdwardsY → List Bool :=
  compareBy fun a b => a == b

end PartyReceiver1M

/-- What an oblivious transfer delivers: the second block of a pair on `true`, the first on
`false`. -/
def otReceive (ms : List (Block × Block)) (choices : List Bool) : List Block :=
  List.zipWith (fun m choice => if choice then m.2 else m.1) ms choices

/-! ### Double blinding -/

section Blinding

variable {P Q : EdwardsPoint}

theorem mulScalar_neg (P : EdwardsPoint) (s : Scalar) : mulScalar (-P) s = -mulScalar P s := by
  rw [mulScalar, mulScalar, smul_neg]

/-- A point blinded by a clamped integer, and then by a scalar. -/
theorem mulScalar_mulClamped (P : EdwardsPoint) (raw : Bytes32) (s : Scalar) :
    mulScalar (mulClamped P (Keys.new raw).sk8) s = mulScalar (8 • P) ((Keys.new raw).sk * s) := by
  have h := EdwardsPoint.eight_nsmul_mem P
  rw [Keys.mulClamped_eq raw h, mulScalar_mulScalar h]

/-- **Equal double blindings**, in either order. -/
theorem doubleBlind_eq_iff (P Q : EdwardsPoint) (raw raw' : Bytes32) :
    mulScalar (mulClamped Q (Keys.new raw').sk8) (Keys.new raw).sk =
      mulScalar (mulClamped P (Keys.new raw).sk8) (Keys.new raw').sk ↔ 8 • P = 8 • Q := by
  rw [mulScalar_mulClamped, mulScalar_mulClamped, mul_comm (Keys.new raw').sk,
    mulScalar_inj (mul_ne_zero (Keys.sk_ne_zero raw) (Keys.sk_ne_zero raw'))
      (EdwardsPoint.eight_nsmul_mem Q) (EdwardsPoint.eight_nsmul_mem P), eq_comm]

/-- The only point of order 2 that `ℓ` annihilates is the identity. -/
theorem eq_zero_of_add_self (hP : P ∈ primeSubgroup EdwardsPoint) (h : P + P = 0) : P = 0 := by
  have hodd : ℓ = 2 * (ℓ / 2) + 1 := by decide
  have hℓ : ℓ • P = 0 := mem_primeSubgroup.mp hP
  rw [hodd, succ_nsmul, mul_comm, mul_nsmul, two_nsmul] at hℓ
  rw [← nsmul_add, h, nsmul_zero, zero_add] at hℓ
  exact hℓ

theorem montgomeryU_neg (P : EdwardsPoint) : montgomeryU (-P) = montgomeryU P := rfl

/-- **Abscissas in the subgroup of order `ℓ`.** -/
theorem toMontgomery_eq_iff (hP : P ∈ primeSubgroup EdwardsPoint)
    (hQ : Q ∈ primeSubgroup EdwardsPoint) :
    toMontgomery P = toMontgomery Q ↔ P = Q ∨ P = -Q := by
  rw [toMontgomery_eq, toMontgomery_eq, asBytes_injective.eq_iff]
  constructor
  · intro h
    by_cases hu : montgomeryU Q = 0
    · -- both are the identity
      have hP₀ := eq_zero_of_add_self hP (montgomeryU_eq_zero.mp (h.trans hu))
      have hQ₀ := eq_zero_of_add_self hQ (montgomeryU_eq_zero.mp hu)
      exact Or.inl (hP₀.trans hQ₀.symm)
    · exact eq_or_eq_neg h hu
  · intro h
    rcases h with rfl | rfl
    · rfl
    · exact montgomeryU_neg Q

end Blinding

end MaliciousPsu
