import MaliciousPsu.Curve.Multiscalar
import MaliciousPsu.Montgomery

/-!
# Points in coordinates

What `edwards.rs` offers on an `EdwardsPoint`, computed on the coordinates that hold it, and the
affine points that the rest of the development computes with.

* `isValid_iff`: what the validity check accepts.
* `refines`: each operation on coordinates is the operation on the points that they stand for.
* `BasepointTable.mulBase_everyRadix`: tables of every radix, and those made from one another, give
  the same multiples.
-/

namespace MaliciousPsu.CurveModels

open FieldElement

namespace ExtendedPoint

/-- `is_valid`: the homogenised equation of the curve, and that of the Segre embedding. -/
def isValid (e : ExtendedPoint) : Bool :=
  let XX := e.X ^ 2
  let YY := e.Y ^ 2
  let ZZ := e.Z ^ 2
  let ZZZZ := ZZ ^ 2
  (YY - XX) * ZZ == ZZZZ + edwardsD * (XX * YY) && e.X * e.Y == e.Z * e.T

/-- `constants::BASEPOINT_ORDER_PRIVATE`. -/
def basepointOrder : Bytes32 :=
  0x1000000000000000000000000000000014def9dea2f79cd65812631a5cf5d3ed

/-- `EdwardsPoint * Scalar`. -/
def mulScalar (e : ExtendedPoint) (s : Scalar) : ExtendedPoint :=
  variableBaseMul e (Scalar.asBytes s)

/-- `mul_clamped`. -/
def mulClamped (e : ExtendedPoint) (bytes : Bytes32) : ExtendedPoint :=
  variableBaseMul e (clampInteger bytes)

/-- `mul_by_cofactor`. -/
def mulByCofactor (e : ExtendedPoint) : ExtendedPoint := e.mulByPow2 3

/-- `is_identity`. -/
def isIdentity (e : ExtendedPoint) : Bool := e == identity

/-- `is_small_order`. -/
def isSmallOrder (e : ExtendedPoint) : Bool := e.mulByCofactor.isIdentity

/-- `is_torsion_free`: the order is not a reduced scalar. -/
def isTorsionFree (e : ExtendedPoint) : Bool := (variableBaseMul e basepointOrder).isIdentity

/-- `to_montgomery`. -/
def toMontgomery (e : ExtendedPoint) : MontgomeryPoint :=
  let U := e.Z + e.Y
  let W := e.Z - e.Y
  asBytes (U * invert W)

variable {e f : ExtendedPoint} {P Q : EdwardsPoint}

theorem basepointOrder_toNat : basepointOrder.toNat = ℓ := by decide +kernel

/-- **What the validity check accepts**: coordinates of a point, and coordinates with `Z = 0` that
stand for none. -/
theorem isValid_iff : e.isValid = true ↔
    (∃ P, e.Of P) ∨ e.Z = 0 ∧ e.X * e.Y = 0 := by
  simp only [isValid, Bool.and_eq_true, beq_iff_eq]
  constructor
  · rintro ⟨hcurve, hsegre⟩
    by_cases hz : e.Z = 0
    · refine .inr ⟨hz, ?_⟩
      rw [hsegre, hz, zero_mul]
    · refine .inl ⟨⟨e.X / e.Z, e.Y / e.Z, ?_⟩, hz, (div_mul_cancel₀ _ hz).symm,
        (div_mul_cancel₀ _ hz).symm, ?_⟩
      · change (e.Y / e.Z) ^ 2 - (e.X / e.Z) ^ 2 = 1 + edwardsD * (e.X / e.Z) ^ 2 * (e.Y / e.Z) ^ 2
        field_simp
        linear_combination hcurve
      · change e.T = e.X / e.Z * (e.Y / e.Z) * e.Z
        field_simp
        linear_combination -hsegre
  · rintro (⟨P, hP⟩ | ⟨hz, hxy⟩)
    · have hcurve := P.on_curve
      have hd : ed25519.d = edwardsD := rfl
      rw [hd] at hcurve
      rw [hP.x, hP.y, hP.t]
      exact ⟨by linear_combination e.Z ^ 4 * hcurve, by ring⟩
    · rw [hz, hxy]
      have hsq : e.X ^ 2 * e.Y ^ 2 = 0 := by rw [← mul_pow, hxy, zero_pow two_ne_zero]
      rw [hsq]
      exact ⟨by ring, by ring⟩

theorem Of.isIdentity_iff (h : e.Of P) : e.isIdentity = true ↔ P = 0 := beq_iff h identity_of

theorem Of.mulByCofactor (h : e.Of P) : e.mulByCofactor.Of (MaliciousPsu.mulByCofactor P) :=
  h.mulByPow2 (by decide)

theorem Of.mulScalar (h : e.Of P) (s : Scalar) :
    (e.mulScalar s).Of (MaliciousPsu.mulScalar P s) := by
  have hs : (Scalar.asBytes s).toNat < 2 ^ 255 := by
    rw [Scalar.toNat_asBytes]
    exact s.val_lt.trans (by decide)
  have hmul := variableBaseMul_of h hs
  rwa [Scalar.toNat_asBytes] at hmul

theorem Of.mulClamped (h : e.Of P) (b : Bytes32) :
    (e.mulClamped b).Of (MaliciousPsu.mulClamped P b) := by
  obtain ⟨k, hk, -, hlt⟩ := clampInteger_spec b
  exact variableBaseMul_of h (by omega)

theorem Of.toMontgomery_eq (h : e.Of P) : e.toMontgomery = MaliciousPsu.toMontgomery P := by
  have hplus : e.Z + e.Y = (1 + P.y) * e.Z := by rw [h.y]; ring
  have hminus : e.Z - e.Y = (1 - P.y) * e.Z := by rw [h.y]; ring
  simp only [toMontgomery, MaliciousPsu.toMontgomery, invert_eq]
  rw [hplus, hminus, ← div_eq_mul_inv, ← div_eq_mul_inv, mul_div_mul_right _ _ h.z_ne]

/-- **Each operation** on coordinates is the one on the points that they stand for, torsion
included. -/
theorem refines (h : e.Of P) (h' : f.Of Q) (s : Scalar) (b : Bytes32) :
    (e.add f).Of (P + Q) ∧ (e.sub f).Of (P - Q) ∧ e.neg.Of (-P) ∧
      (e.mulScalar s).Of (MaliciousPsu.mulScalar P s) ∧
      (e.mulClamped b).Of (MaliciousPsu.mulClamped P b) ∧
      e.mulByCofactor.Of (MaliciousPsu.mulByCofactor P) ∧
      ((e == f) = true ↔ P = Q) ∧ e.compress = EdwardsPoint.compress P ∧
      e.toMontgomery = MaliciousPsu.toMontgomery P ∧
      (e.isSmallOrder = true ↔ MaliciousPsu.mulByCofactor P = 0) ∧
      (e.isTorsionFree = true ↔ P ∈ primeSubgroup EdwardsPoint) := by
  have horder : (variableBaseMul e basepointOrder).Of (ℓ • P) :=
    basepointOrder_toNat ▸ variableBaseMul_of h (basepointOrder_toNat.trans_lt (by decide))
  exact ⟨h.add h', h.sub h', h.neg, h.mulScalar s, h.mulClamped b, h.mulByCofactor, beq_iff h h',
    h.compress_eq, h.toMontgomery_eq, h.mulByCofactor.isIdentity_iff,
    horder.isIdentity_iff.trans mem_primeSubgroup.symm⟩

/-- The basepoint and its double. -/
theorem refines_basepoint :
    (basepoint.add basepoint.double).Of
        (EdwardsPoint.basepoint + (EdwardsPoint.basepoint + EdwardsPoint.basepoint)) ∧
      (basepoint.isTorsionFree = true ↔ EdwardsPoint.basepoint ∈ primeSubgroup EdwardsPoint) := by
  have h := refines basepoint_of basepoint_of.double 5 7
  exact ⟨h.1, h.2.2.2.2.2.2.2.2.2.2⟩

end ExtendedPoint

/-! ### Tables of every radix -/

namespace BasepointTable

/-- A table made from one of another radix. -/
def convert (L : BasepointTable) (table : List (List AffineNielsPoint)) :
    List (List AffineNielsPoint) :=
  L.create (basepointOf table)

/-- **A multiple of a basepoint** is the same from the table of any radix, from a table that was
made from another one, and without a table. -/
theorem mulBase_everyRadix (K L : BasepointTable) {b : ExtendedPoint} {B : EdwardsPoint}
    {scalar : Bytes32} (h : b.Of B) (hs : scalar.toNat < 2 ^ 255) :
    (K.mulBase (K.create b) scalar).Of (scalar.toNat • B) ∧
      (L.mulBase (L.convert (K.create b)) scalar).Of (scalar.toNat • B) ∧
      (K.mulBase (K.create b) scalar).compress = (variableBaseMul b scalar).compress := by
  have hcreate := create_isFor (K := K) h
  have hconvert : L.IsFor (L.convert (K.create b)) B := create_isFor (basepointOf_of hcreate)
  have hmul := mulBase_of hcreate hs
  exact ⟨hmul, mulBase_of hconvert hs,
    hmul.compress_eq.trans (variableBaseMul_of h hs).compress_eq.symm⟩

/-- Five times the basepoint. -/
theorem mulBase_everyRadix_five :
    (edwardsBasepointTable.mulBase (edwardsBasepointTable.create ExtendedPoint.basepoint)
        5).compress = (variableBaseMul ExtendedPoint.basepoint 5).compress :=
  (mulBase_everyRadix edwardsBasepointTable edwardsBasepointTableRadix256
    ExtendedPoint.basepoint_of (by decide)).2.2

end BasepointTable

end MaliciousPsu.CurveModels
