import MaliciousPsu.Edwards

/-!
# Models of the curve

`curve_models/mod.rs`, and the operations of `edwards.rs` on the coordinates that hold an
`EdwardsPoint`.  Points are added and doubled without a division, from one system of coordinates to
another; each system has its own relation to the affine point that it stands for.

* `CompletedPoint.of_sum`: what the coordinates of a sum have to be.
* `ExtendedPoint.Of.add`, `.sub`, `.double`: the formulas are the group's addition, for every pair
  of points.
* `ExtendedPoint.beq_iff`, `ExtendedPoint.Of.compress_eq`: coordinates are compared and encoded as
  the points that they stand for.
-/

namespace MaliciousPsu

/-- `constants::EDWARDS_D2`. -/
def edwardsD2 : FieldElement :=
  FieldElement.fromLimbs 1859910466990425 932731440258426 1072319116312658 1815898335770999
    633789495995903

theorem edwardsD2_eq : edwardsD2 = 2 * ed25519.d := by decide +kernel

namespace CurveModels

open FieldElement
open TwistedEdwards.Point (cross cross_ne add_x_mul add_y_mul)

/-! ### Coordinates -/

/-- The coordinates of an `EdwardsPoint`. -/
structure ExtendedPoint where
  X : FieldElement
  Y : FieldElement
  Z : FieldElement
  T : FieldElement

/-- `ProjectivePoint`. -/
structure ProjectivePoint where
  X : FieldElement
  Y : FieldElement
  Z : FieldElement

/-- `CompletedPoint`. -/
structure CompletedPoint where
  X : FieldElement
  Y : FieldElement
  Z : FieldElement
  T : FieldElement

/-- `AffineNielsPoint`. -/
structure AffineNielsPoint where
  yPlusX : FieldElement
  yMinusX : FieldElement
  xy2d : FieldElement

/-- `ProjectiveNielsPoint`. -/
structure ProjectiveNielsPoint where
  YPlusX : FieldElement
  YMinusX : FieldElement
  Z : FieldElement
  T2d : FieldElement

/-- `as_extended`. -/
def ProjectivePoint.asExtended (p : ProjectivePoint) : ExtendedPoint where
  X := p.X * p.Z
  Y := p.Y * p.Z
  Z := p.Z ^ 2
  T := p.X * p.Y

/-- `as_projective`. -/
def CompletedPoint.asProjective (c : CompletedPoint) : ProjectivePoint where
  X := c.X * c.T
  Y := c.Y * c.Z
  Z := c.Z * c.T

/-- `as_extended`. -/
def CompletedPoint.asExtended (c : CompletedPoint) : ExtendedPoint where
  X := c.X * c.T
  Y := c.Y * c.Z
  Z := c.Z * c.T
  T := c.X * c.Y

/-- `square2`. -/
def square2 (x : FieldElement) : FieldElement := x ^ 2 + x ^ 2

/-- `double`. -/
def ProjectivePoint.double (p : ProjectivePoint) : CompletedPoint :=
  let XX := p.X ^ 2
  let YY := p.Y ^ 2
  let ZZ2 := square2 p.Z
  let XPlusYSq := (p.X + p.Y) ^ 2
  let YYPlusXX := YY + XX
  let YYMinusXX := YY - XX
  { X := XPlusYSq - YYPlusXX, Y := YYPlusXX, Z := YYMinusXX, T := ZZ2 - YYMinusXX }

namespace ExtendedPoint

/-- `identity`. -/
def identity : ExtendedPoint := ⟨0, 1, 1, 0⟩

/-- `as_projective_niels`. -/
def asProjectiveNiels (e : ExtendedPoint) : ProjectiveNielsPoint where
  YPlusX := e.Y + e.X
  YMinusX := e.Y - e.X
  Z := e.Z
  T2d := e.T * edwardsD2

/-- `as_projective`. -/
def asProjective (e : ExtendedPoint) : ProjectivePoint := ⟨e.X, e.Y, e.Z⟩

/-- `as_affine_niels`. -/
def asAffineNiels (e : ExtendedPoint) : AffineNielsPoint :=
  let recip := invert e.Z
  let x := e.X * recip
  let y := e.Y * recip
  { yPlusX := y + x, yMinusX := y - x, xy2d := x * y * edwardsD2 }

/-- `double`. -/
def double (e : ExtendedPoint) : ExtendedPoint := e.asProjective.double.asExtended

/-- `neg`. -/
def neg (e : ExtendedPoint) : ExtendedPoint := ⟨-e.X, e.Y, e.Z, -e.T⟩

/-- `mul_by_pow_2`. -/
def mulByPow2 (e : ExtendedPoint) (k : ℕ) : ExtendedPoint :=
  let s := (List.range (k - 1)).foldl (fun s _ => s.double.asProjective) e.asProjective
  s.double.asExtended

/-- `ct_eq`. -/
instance : BEq ExtendedPoint where
  beq e f := e.X * f.Z == f.X * e.Z && e.Y * f.Z == f.Y * e.Z

/-- `compress`. -/
def compress (e : ExtendedPoint) : CompressedEdwardsY :=
  let recip := invert e.Z
  let x := e.X * recip
  let y := e.Y * recip
  asBytes y ^^^ (if isNegative x then BitVec.twoPow 256 255 else 0)

/-- `decompress`. -/
def decompress (repr : CompressedEdwardsY) : Option ExtendedPoint :=
  let Y := fromBytes repr
  let Z : FieldElement := 1
  let YY := Y ^ 2
  let u := YY - Z
  let v := YY * edwardsD + Z
  let (isValidYCoord, X) := sqrtRatioI u v
  if isValidYCoord then
    let X := if repr.getLsbD 255 then -X else X
    some { X, Y, Z, T := X * Y }
  else none

end ExtendedPoint

/-- `constants::ED25519_BASEPOINT_POINT`. -/
def ExtendedPoint.basepoint : ExtendedPoint where
  X := fromLimbs 1738742601995546 1146398526822698 2070867633025821 562264141797630 587772402128613
  Y := fromLimbs 1801439850948184 1351079888211148 450359962737049 900719925474099 1801439850948198
  Z := fromLimbs 1 0 0 0 0
  T := fromLimbs 1841354044333475 16398895984059 755974180946558 900171276175154 1821297809914039

/-! ### Points to add -/

/-- The two kinds of points that are added to an `EdwardsPoint`. -/
class Niels (N : Type) where
  identity : N
  neg : N → N
  ofExtended : ExtendedPoint → N
  add : ExtendedPoint → N → CompletedPoint
  sub : ExtendedPoint → N → CompletedPoint

instance : Niels ProjectiveNielsPoint where
  identity := ⟨1, 1, 1, 0⟩
  neg n := ⟨n.YMinusX, n.YPlusX, n.Z, -n.T2d⟩
  ofExtended := ExtendedPoint.asProjectiveNiels
  add e n :=
    let YPlusX := e.Y + e.X
    let YMinusX := e.Y - e.X
    let PP := YPlusX * n.YPlusX
    let MM := YMinusX * n.YMinusX
    let TT2d := e.T * n.T2d
    let ZZ := e.Z * n.Z
    let ZZ2 := ZZ + ZZ
    { X := PP - MM, Y := PP + MM, Z := ZZ2 + TT2d, T := ZZ2 - TT2d }
  sub e n :=
    let YPlusX := e.Y + e.X
    let YMinusX := e.Y - e.X
    let PM := YPlusX * n.YMinusX
    let MP := YMinusX * n.YPlusX
    let TT2d := e.T * n.T2d
    let ZZ := e.Z * n.Z
    let ZZ2 := ZZ + ZZ
    { X := PM - MP, Y := PM + MP, Z := ZZ2 - TT2d, T := ZZ2 + TT2d }

instance : Niels AffineNielsPoint where
  identity := ⟨1, 1, 0⟩
  neg n := ⟨n.yMinusX, n.yPlusX, -n.xy2d⟩
  ofExtended := ExtendedPoint.asAffineNiels
  add e n :=
    let YPlusX := e.Y + e.X
    let YMinusX := e.Y - e.X
    let PP := YPlusX * n.yPlusX
    let MM := YMinusX * n.yMinusX
    let Txy2d := e.T * n.xy2d
    let Z2 := e.Z + e.Z
    { X := PP - MM, Y := PP + MM, Z := Z2 + Txy2d, T := Z2 - Txy2d }
  sub e n :=
    let YPlusX := e.Y + e.X
    let YMinusX := e.Y - e.X
    let PM := YPlusX * n.yMinusX
    let MP := YMinusX * n.yPlusX
    let Txy2d := e.T * n.xy2d
    let Z2 := e.Z + e.Z
    { X := PM - MP, Y := PM + MP, Z := Z2 - Txy2d, T := Z2 + Txy2d }

/-- `add`, on coordinates. -/
def ExtendedPoint.add (e f : ExtendedPoint) : ExtendedPoint :=
  (Niels.add e f.asProjectiveNiels).asExtended

/-- `sub`, on coordinates. -/
def ExtendedPoint.sub (e f : ExtendedPoint) : ExtendedPoint :=
  (Niels.sub e f.asProjectiveNiels).asExtended

/-! ### What coordinates stand for -/

/-- The extended coordinates stand for `P`. -/
structure ExtendedPoint.Of (e : ExtendedPoint) (P : EdwardsPoint) : Prop where
  z_ne : e.Z ≠ 0
  x : e.X = P.x * e.Z
  y : e.Y = P.y * e.Z
  t : e.T = P.x * P.y * e.Z

structure ProjectivePoint.Of (p : ProjectivePoint) (P : EdwardsPoint) : Prop where
  z_ne : p.Z ≠ 0
  x : p.X = P.x * p.Z
  y : p.Y = P.y * p.Z

/-- A completed point is a pair of quotients, `X/Z` and `Y/T`. -/
structure CompletedPoint.Of (c : CompletedPoint) (P : EdwardsPoint) : Prop where
  z_ne : c.Z ≠ 0
  t_ne : c.T ≠ 0
  x : c.X = P.x * c.Z
  y : c.Y = P.y * c.T

/-- What a kind of points to add stands for, and the laws of its operations. -/
class LawfulNiels (N : Type) [Niels N] where
  Of : N → EdwardsPoint → Prop
  identity_of : Of Niels.identity 0
  neg_of {n : N} {Q : EdwardsPoint} : Of n Q → Of (Niels.neg n) (-Q)
  ofExtended_of {e : ExtendedPoint} {P : EdwardsPoint} : e.Of P → Of (Niels.ofExtended e) P
  add_of {e : ExtendedPoint} {n : N} {P Q : EdwardsPoint} :
    e.Of P → Of n Q → (Niels.add e n).Of (P + Q)
  sub_of {e : ExtendedPoint} {n : N} {P Q : EdwardsPoint} :
    e.Of P → Of n Q → (Niels.sub e n).Of (P - Q)

section Conversions

variable {P Q : EdwardsPoint}

theorem ExtendedPoint.identity_of : ExtendedPoint.identity.Of 0 :=
  ⟨one_ne_zero, by simp [identity], by simp [identity], by simp [identity]⟩

theorem ExtendedPoint.basepoint_of : ExtendedPoint.basepoint.Of EdwardsPoint.basepoint :=
  ⟨by decide +kernel, by decide +kernel, by decide +kernel, by decide +kernel⟩

theorem ProjectivePoint.identity_of : (⟨0, 1, 1⟩ : ProjectivePoint).Of 0 :=
  ⟨one_ne_zero, by simp, by simp⟩

theorem ExtendedPoint.Of.asProjective {e : ExtendedPoint} (h : e.Of P) : e.asProjective.Of P :=
  ⟨h.z_ne, h.x, h.y⟩

theorem ProjectivePoint.Of.asExtended {p : ProjectivePoint} (h : p.Of P) : p.asExtended.Of P where
  z_ne := pow_ne_zero 2 h.z_ne
  x := by simp only [ProjectivePoint.asExtended]; rw [h.x]; ring
  y := by simp only [ProjectivePoint.asExtended]; rw [h.y]; ring
  t := by simp only [ProjectivePoint.asExtended]; rw [h.x, h.y]; ring

theorem CompletedPoint.Of.asProjective {c : CompletedPoint} (h : c.Of P) : c.asProjective.Of P where
  z_ne := mul_ne_zero h.z_ne h.t_ne
  x := by simp only [CompletedPoint.asProjective]; rw [h.x]; ring
  y := by simp only [CompletedPoint.asProjective]; rw [h.y]; ring

theorem CompletedPoint.Of.asExtended {c : CompletedPoint} (h : c.Of P) : c.asExtended.Of P where
  z_ne := mul_ne_zero h.z_ne h.t_ne
  x := by simp only [CompletedPoint.asExtended]; rw [h.x]; ring
  y := by simp only [CompletedPoint.asExtended]; rw [h.y]; ring
  t := by simp only [CompletedPoint.asExtended]; rw [h.x, h.y]; ring

theorem ExtendedPoint.Of.neg {e : ExtendedPoint} (h : e.Of P) : e.neg.Of (-P) where
  z_ne := h.z_ne
  x := (congrArg Neg.neg h.x).trans (neg_mul _ _).symm
  y := h.y
  t := by
    have ht : -e.T = -(P.x * P.y * e.Z) := congrArg Neg.neg h.t
    rw [← neg_mul, ← neg_mul] at ht
    exact ht

/-- **The coordinates of a sum**, up to a common factor. -/
theorem CompletedPoint.of_sum {c : CompletedPoint} {k : FieldElement} (hk : k ≠ 0)
    (hX : c.X = k * (P.x * Q.y + P.y * Q.x)) (hY : c.Y = k * (P.y * Q.y + P.x * Q.x))
    (hZ : c.Z = k * (1 + cross P Q)) (hT : c.T = k * (1 - cross P Q)) : c.Of (P + Q) where
  z_ne := hZ ▸ mul_ne_zero hk (cross_ne P Q).1
  t_ne := hT ▸ mul_ne_zero hk (cross_ne P Q).2
  x := by rw [hX, hZ, ← add_x_mul P Q]; ring
  y := by rw [hY, hT, ← add_y_mul P Q]; ring

/-- **Doubling.** -/
theorem ProjectivePoint.Of.double {p : ProjectivePoint} (h : p.Of P) : p.double.Of (P + P) := by
  have hcurve := P.on_curve
  have hcross : cross P P = ed25519.d * P.x ^ 2 * P.y ^ 2 := by rw [cross]; ring
  refine CompletedPoint.of_sum (pow_ne_zero 2 h.z_ne) ?_ ?_ ?_ ?_
  · simp only [ProjectivePoint.double, square2, h.x, h.y]; ring
  · simp only [ProjectivePoint.double, square2, h.x, h.y]; ring
  · rw [hcross]
    simp only [ProjectivePoint.double, square2, h.x, h.y]
    linear_combination p.Z ^ 2 * hcurve
  · rw [hcross]
    simp only [ProjectivePoint.double, square2, h.x, h.y]
    linear_combination -p.Z ^ 2 * hcurve

theorem ExtendedPoint.Of.double {e : ExtendedPoint} (h : e.Of P) : e.double.Of (P + P) :=
  h.asProjective.double.asExtended

end Conversions

/-! ### The laws of the points to add -/

section Laws

variable {P Q : EdwardsPoint} {e : ExtendedPoint}

structure ProjectiveNielsPoint.Of (n : ProjectiveNielsPoint) (Q : EdwardsPoint) : Prop where
  z_ne : n.Z ≠ 0
  plus : n.YPlusX = (Q.y + Q.x) * n.Z
  minus : n.YMinusX = (Q.y - Q.x) * n.Z
  t2d : n.T2d = 2 * ed25519.d * Q.x * Q.y * n.Z

structure AffineNielsPoint.Of (n : AffineNielsPoint) (Q : EdwardsPoint) : Prop where
  plus : n.yPlusX = Q.y + Q.x
  minus : n.yMinusX = Q.y - Q.x
  xy2d : n.xy2d = 2 * ed25519.d * Q.x * Q.y

theorem ExtendedPoint.Of.asProjectiveNiels (h : e.Of P) : e.asProjectiveNiels.Of P where
  z_ne := h.z_ne
  plus := by simp only [ExtendedPoint.asProjectiveNiels]; rw [h.x, h.y]; ring
  minus := by simp only [ExtendedPoint.asProjectiveNiels]; rw [h.x, h.y]; ring
  t2d := by simp only [ExtendedPoint.asProjectiveNiels]; rw [h.t, edwardsD2_eq]; ring

/-- The affine coordinates of a point, by an inversion. -/
theorem ExtendedPoint.Of.affine (h : e.Of P) :
    e.X * invert e.Z = P.x ∧ e.Y * invert e.Z = P.y := by
  rw [invert_eq, h.x, h.y]
  exact ⟨mul_inv_cancel_right₀ h.z_ne _, mul_inv_cancel_right₀ h.z_ne _⟩

theorem ExtendedPoint.Of.asAffineNiels (h : e.Of P) : e.asAffineNiels.Of P where
  plus := by simp only [ExtendedPoint.asAffineNiels, h.affine.1, h.affine.2]
  minus := by simp only [ExtendedPoint.asAffineNiels, h.affine.1, h.affine.2]
  xy2d := by
    simp only [ExtendedPoint.asAffineNiels, h.affine.1, h.affine.2, edwardsD2_eq]
    ring

theorem two_mul_ne_zero {z : FieldElement} (hz : z ≠ 0) : 2 * z ≠ 0 :=
  mul_ne_zero ed25519.two_ne hz

theorem projectiveNiels_sub (e : ExtendedPoint) (n : ProjectiveNielsPoint) :
    Niels.sub e n = Niels.add e (Niels.neg n) := by
  simp only [Niels.sub, Niels.add, Niels.neg, mul_neg, sub_neg_eq_add, ← sub_eq_add_neg]

theorem affineNiels_sub (e : ExtendedPoint) (n : AffineNielsPoint) :
    Niels.sub e n = Niels.add e (Niels.neg n) := by
  simp only [Niels.sub, Niels.add, Niels.neg, mul_neg, sub_neg_eq_add, ← sub_eq_add_neg]

theorem ProjectiveNielsPoint.Of.neg {n : ProjectiveNielsPoint} (h : n.Of Q) :
    (Niels.neg n).Of (-Q) where
  z_ne := h.z_ne
  plus := h.minus.trans (by rw [sub_eq_add_neg]; rfl)
  minus := h.plus.trans (by rw [← sub_neg_eq_add]; rfl)
  t2d := by
    have ht : -n.T2d = 2 * ed25519.d * -Q.x * Q.y * n.Z := by rw [h.t2d]; ring
    exact ht

theorem AffineNielsPoint.Of.neg {n : AffineNielsPoint} (h : n.Of Q) : (Niels.neg n).Of (-Q) where
  plus := h.minus.trans (by rw [sub_eq_add_neg]; rfl)
  minus := h.plus.trans (by rw [← sub_neg_eq_add]; rfl)
  xy2d := by
    have ht : -n.xy2d = 2 * ed25519.d * -Q.x * Q.y := by rw [h.xy2d]; ring
    exact ht

theorem ProjectiveNielsPoint.Of.add {n : ProjectiveNielsPoint} (h' : n.Of Q) (h : e.Of P) :
    (Niels.add e n).Of (P + Q) := by
  refine CompletedPoint.of_sum (two_mul_ne_zero (mul_ne_zero h.z_ne h'.z_ne)) ?_ ?_ ?_ ?_
  · simp only [Niels.add]; rw [h.x, h.y, h'.plus, h'.minus]; ring
  · simp only [Niels.add]; rw [h.x, h.y, h'.plus, h'.minus]; ring
  · simp only [Niels.add, cross]; rw [h.t, h'.t2d]; ring
  · simp only [Niels.add, cross]; rw [h.t, h'.t2d]; ring

theorem AffineNielsPoint.Of.add {n : AffineNielsPoint} (h' : n.Of Q) (h : e.Of P) :
    (Niels.add e n).Of (P + Q) := by
  refine CompletedPoint.of_sum (two_mul_ne_zero h.z_ne) ?_ ?_ ?_ ?_
  · simp only [Niels.add]; rw [h.x, h.y, h'.plus, h'.minus]; ring
  · simp only [Niels.add]; rw [h.x, h.y, h'.plus, h'.minus]; ring
  · simp only [Niels.add, cross]; rw [h.t, h'.xy2d]; ring
  · simp only [Niels.add, cross]; rw [h.t, h'.xy2d]; ring

instance : LawfulNiels ProjectiveNielsPoint where
  Of := ProjectiveNielsPoint.Of
  identity_of := ⟨one_ne_zero, by simp [Niels.identity], by simp [Niels.identity],
    by simp [Niels.identity]⟩
  neg_of h := h.neg
  ofExtended_of h := h.asProjectiveNiels
  add_of h h' := h'.add h
  sub_of h h' := by
    rw [projectiveNiels_sub, sub_eq_add_neg]
    exact h'.neg.add h

instance : LawfulNiels AffineNielsPoint where
  Of := AffineNielsPoint.Of
  identity_of := ⟨by simp [Niels.identity], by simp [Niels.identity], by simp [Niels.identity]⟩
  neg_of h := h.neg
  ofExtended_of h := h.asAffineNiels
  add_of h h' := h'.add h
  sub_of h h' := by
    rw [affineNiels_sub, sub_eq_add_neg]
    exact h'.neg.add h

end Laws

/-! ### Extended coordinates and points -/

namespace ExtendedPoint

variable {e f : ExtendedPoint} {P Q : EdwardsPoint}

theorem Of.add (h : e.Of P) (h' : f.Of Q) : (e.add f).Of (P + Q) :=
  (h'.asProjectiveNiels.add h).asExtended

theorem Of.sub (h : e.Of P) (h' : f.Of Q) : (e.sub f).Of (P - Q) := by
  rw [ExtendedPoint.sub, projectiveNiels_sub, sub_eq_add_neg]
  exact (h'.asProjectiveNiels.neg.add h).asExtended

theorem two_pow_succ_nsmul (n : ℕ) (P : EdwardsPoint) :
    2 ^ (n + 1) • P = 2 ^ n • P + 2 ^ n • P := by
  rw [pow_succ, mul_nsmul, two_nsmul]

/-- Doublings in projective coordinates. -/
theorem Of.doublings (h : e.Of P) (n : ℕ) :
    ((List.range n).foldl (fun s _ => s.double.asProjective) e.asProjective).Of (2 ^ n • P) := by
  induction n with
  | zero =>
    rw [pow_zero, one_nsmul]
    exact h.asProjective
  | succ n ih =>
    rw [List.range_succ, List.foldl_concat, two_pow_succ_nsmul]
    exact ih.double.asProjective

theorem Of.mulByPow2 (h : e.Of P) {k : ℕ} (hk : 0 < k) : (e.mulByPow2 k).Of (2 ^ k • P) := by
  obtain ⟨n, rfl⟩ := Nat.exists_eq_succ_of_ne_zero hk.ne'
  rw [two_pow_succ_nsmul]
  exact (h.doublings n).double.asExtended

/-- **Coordinates are equal** when they stand for the same point. -/
theorem beq_iff (h : e.Of P) (h' : f.Of Q) : (e == f) = true ↔ P = Q := by
  have hz : e.Z * f.Z ≠ 0 := mul_ne_zero h.z_ne h'.z_ne
  have hx : e.X * f.Z = f.X * e.Z ↔ P.x = Q.x := by
    rw [h.x, h'.x, mul_assoc, mul_assoc, mul_comm f.Z, mul_left_inj' hz]
  have hy : e.Y * f.Z = f.Y * e.Z ↔ P.y = Q.y := by
    rw [h.y, h'.y, mul_assoc, mul_assoc, mul_comm f.Z, mul_left_inj' hz]
  have hbeq : (e == f) = (e.X * f.Z == f.X * e.Z && e.Y * f.Z == f.Y * e.Z) := rfl
  rw [hbeq, Bool.and_eq_true, beq_iff_eq, beq_iff_eq, hx, hy, EdwardsPoint.eq_iff]

theorem Of.compress_eq (h : e.Of P) : e.compress = EdwardsPoint.compress P := by
  simp only [ExtendedPoint.compress, h.affine.1, h.affine.2]
  rfl

end ExtendedPoint

end CurveModels

end MaliciousPsu
