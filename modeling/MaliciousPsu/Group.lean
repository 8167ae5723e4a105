import MaliciousPsu.Scalar

/-!
# The group of the protocol

The arguments of `aok.rs` use of the curve a group, a basepoint and an encoding of points.  They
are stated over any type with these three; `EdwardsPoint` is the one the protocol runs on.
-/

namespace MaliciousPsu

/-- A group with the basepoint that `mul_base` multiplies. -/
class BasePoint (G : Type) [AddCommGroup G] where
  basepoint : G
  basepoint_mem : basepoint ∈ primeSubgroup G

export BasePoint (basepoint)

/-- Encodings of points. -/
class PointEncoding (G : Type) where
  compress : G → Bytes32
  decompress : Bytes32 → Option G
  decompress_compress : ∀ P, decompress (compress P) = some P

export PointEncoding (compress decompress)

attribute [simp] PointEncoding.decompress_compress

theorem compress_injective {G : Type} [PointEncoding G] : Function.Injective (compress (G := G)) :=
  fun P Q h => Option.some.inj <| by
    rw [← PointEncoding.decompress_compress P, h, PointEncoding.decompress_compress]

/-- `mul_base`. -/
def mulBase {G : Type} [AddCommGroup G] [BasePoint G] (s : Scalar) : G := mulScalar basepoint s

theorem mulBase_mem {G : Type} [AddCommGroup G] [BasePoint G] (s : Scalar) :
    (mulBase s : G) ∈ primeSubgroup G :=
  mulScalar_mem BasePoint.basepoint_mem s

/-! ### The subgroup of order `ℓ` as a group of its own -/

section Subgroup

variable {G : Type} [AddCommGroup G]

instance [DecidableEq G] (P : G) : Decidable (P ∈ primeSubgroup G) :=
  decidable_of_iff _ mem_primeSubgroup.symm

instance [BasePoint G] : BasePoint (primeSubgroup G) where
  basepoint := ⟨basepoint, BasePoint.basepoint_mem⟩
  basepoint_mem := Subtype.ext BasePoint.basepoint_mem

instance [DecidableEq G] [PointEncoding G] : PointEncoding (primeSubgroup G) where
  compress P := compress (P : G)
  decompress b := (decompress b).bind fun P : G =>
    if h : P ∈ primeSubgroup G then some ⟨P, h⟩ else none
  decompress_compress P := by simp

end Subgroup

end MaliciousPsu
