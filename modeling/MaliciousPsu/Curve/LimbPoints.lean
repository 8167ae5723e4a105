import MaliciousPsu.Curve.Limbs
import MaliciousPsu.Curve.Models
import Mathlib.Data.List.GetD

/-!
# Points in limbs

The inverse of `field.rs`, and the operations of `curve_models/mod.rs` and `edwards.rs`, on field
elements in limbs.  The coordinates of an `EdwardsPoint` are reduced; the sums and differences in
between are not, and stay within the bounds that the next product asks for.

* `FieldElement51.Of.invert`, `FieldElement51.Of.isNegative_eq`: inverse and sign.
* `LimbModels.CompletedPoint.Of`: the bound between two formulas.
* `LimbModels.limbPoints_refine`: each operation on limbs is the operation of the group.
-/

namespace MaliciousPsu

namespace FieldElement51

variable {a a' : FieldElement51} {r s : FieldElement}

/-- The limbs that a reduction leaves. -/
abbrev Reduced (a : FieldElement51) (r : FieldElement) : Prop := a.Of (2 ^ 51 + 2 ^ 18) r

/-- `pow22501`. -/
def pow22501 (a : FieldElement51) : FieldElement51 × FieldElement51 :=
  let t0 := square a
  let t1 := square (square t0)
  let t2 := mul a t1
  let t3 := mul t0 t2
  let t4 := square t3
  let t5 := mul t2 t4
  let t6 := pow2k t5 5
  let t7 := mul t6 t5
  let t8 := pow2k t7 10
  let t9 := mul t8 t7
  let t10 := pow2k t9 20
  let t11 := mul t10 t9
  let t12 := pow2k t11 10
  let t13 := mul t12 t7
  let t14 := pow2k t13 50
  let t15 := mul t14 t13
  let t16 := pow2k t15 100
  let t17 := mul t16 t15
  let t18 := pow2k t17 50
  let t19 := mul t18 t13
  (t19, t3)

/-- `invert`. -/
def invert (a : FieldElement51) : FieldElement51 :=
  let (t19, t3) := pow22501 a
  let t20 := pow2k t19 5
  mul t20 t3

/-- `is_negative`. -/
def isNegative (a : FieldElement51) : Bool := (asBytes a).getD 0 0 &&& 1 == 1

/-- `ct_eq`. -/
def ctEq (a a' : FieldElement51) : Bool := asBytes a == asBytes a'

theorem Of.times {b b' : ℕ} (h : a.Of b r) (h' : a'.Of b' s) (hb : b ≤ 2 ^ 54)
    (hb' : b' ≤ 2 ^ 54) : (a.mul a').Reduced (r * s) :=
  (h.mono hb).mul (h'.mono hb')

theorem Of.minus {b b' : ℕ} (h : a.Of b r) (h' : a'.Of b' s) (hb : b ≤ 2 ^ 54)
    (hb' : b' ≤ 2 ^ 54) : (a.sub a').Reduced (r - s) :=
  (h.mono hb).sub (h'.mono hb')

theorem Of.squared {b : ℕ} (h : a.Of b r) (hb : b ≤ 2 ^ 54) : (a.square).Reduced (r ^ 2) :=
  (h.mono hb).pow2k 0

theorem Of.powers (h : a.Reduced r) (k : ℕ) :
    (a.pow2k (k + 1)).Reduced (FieldElement.pow2k r (k + 1)) := by
  rw [FieldElement.pow2k_eq]
  exact (h.mono (by decide)).pow2k k

theorem Of.product (h : a.Reduced r) (h' : a'.Reduced s) : (a.mul a').Reduced (r * s) :=
  h.times h' (by decide) (by decide)

theorem Of.pow22501 (h : a.Reduced r) :
    a.pow22501.1.Reduced (FieldElement.pow22501 r).1 ∧
      a.pow22501.2.Reduced (FieldElement.pow22501 r).2 := by
  have t0 := h.powers 0
  have t1 := (t0.powers 0).powers 0
  have t2 := h.product t1
  have t3 := t0.product t2
  have t5 := t2.product (t3.powers 0)
  have t7 := (t5.powers 4).product t5
  have t9 := (t7.powers 9).product t7
  have t11 := (t9.powers 19).product t9
  have t13 := (t11.powers 9).product t7
  have t15 := (t13.powers 49).product t13
  have t17 := (t15.powers 99).product t15
  exact ⟨(t17.powers 49).product t13, t3⟩

/-- **The inverse**, or zero. -/
theorem Of.invert (h : a.Reduced r) : a.invert.Reduced r⁻¹ := by
  rw [← FieldElement.invert_eq]
  exact (h.pow22501.1.powers 4).product h.pow22501.2

/-- **The sign** is the low bit of the encoding. -/
theorem Of.isNegative_eq (h : a.Of (2 ^ 64) r) :
    a.isNegative = FieldElement.isNegative r := by
  rw [FieldElement51.isNegative, h.asBytes_eq, Bytes32.bytes, FieldElement.toNat_asBytes,
    FieldElement.isNegative, leBytes, List.getD_cons_zero, Bool.eq_iff_iff, beq_iff_eq, beq_iff_eq,
    ← UInt8.toNat_inj, UInt8.toNat_and, UInt8.toNat_ofNat', UInt8.toNat_one, Nat.and_one_is_mod]
  omega

/-- **Comparison** is that of the elements. -/
theorem ctEq_iff (h : a.Of (2 ^ 64) r) (h' : a'.Of (2 ^ 64) s) : a.ctEq a' = true ↔ r = s := by
  rw [ctEq, h.asBytes_eq, h'.asBytes_eq, beq_iff_eq]
  constructor
  · intro heq
    have hnat := congrArg leNat heq
    rw [Bytes32.leNat_bytes, Bytes32.leNat_bytes] at hnat
    exact FieldElement.asBytes_injective (BitVec.eq_of_toNat_eq hnat)
  · rintro rfl
    rfl

end FieldElement51

namespace LimbModels

open FieldElement51

/-! ### Coordinates -/

/-- `EdwardsPoint`. -/
structure ExtendedPoint where
  X : FieldElement51
  Y : FieldElement51
  Z : FieldElement51
  T : FieldElement51

/-- `ProjectivePoint`. -/
structure ProjectivePoint where
  X : FieldElement51
  Y : FieldElement51
  Z : FieldElement51

/-- `CompletedPoint`. -/
structure CompletedPoint where
  X : FieldElement51
  Y : FieldElement51
  Z : FieldElement51
  T : FieldElement51

/-- `ProjectiveNielsPoint`. -/
structure ProjectiveNielsPoint where
  YPlusX : FieldElement51
  YMinusX : FieldElement51
  Z : FieldElement51
  T2d : FieldElement51

/-- `constants::EDWARDS_D2`. -/
def edwardsD2 : FieldElement51 :=
  ⟨1859910466990425, 932731440258426, 1072319116312658, 1815898335770999, 633789495995903⟩

/-- `as_projective`. -/
def CompletedPoint.asProjective (c : CompletedPoint) : ProjectivePoint where
  X := mul c.X c.T
  Y := mul c.Y c.Z
  Z := mul c.Z c.T

/-- `as_extended`. -/
def CompletedPoint.asExtended (c : CompletedPoint) : ExtendedPoint where
  X := mul c.X c.T
  Y := mul c.Y c.Z
  Z := mul c.Z c.T
  T := mul c.X c.Y

/-- `double`. -/
def ProjectivePoint.double (p : ProjectivePoint) : CompletedPoint :=
  let XX := square p.X
  let YY := square p.Y
  let ZZ2 := square2 p.Z
  let XPlusYSq := square (add p.X p.Y)
  let YYPlusXX := add YY XX
  let YYMinusXX := sub YY XX
  { X := sub XPlusYSq YYPlusXX, Y := YYPlusXX, Z := YYMinusXX, T := sub ZZ2 YYMinusXX }

namespace ExtendedPoint

/-- `as_projective_niels`. -/
def asProjectiveNiels (e : ExtendedPoint) : ProjectiveNielsPoint where
  YPlusX := FieldElement51.add e.Y e.X
  YMinusX := FieldElement51.sub e.Y e.X
  Z := e.Z
  T2d := mul e.T edwardsD2

/-- `as_projective`. -/
def asProjective (e : ExtendedPoint) : ProjectivePoint := ⟨e.X, e.Y, e.Z⟩

/-- `double`. -/
def double (e : ExtendedPoint) : ExtendedPoint := e.asProjective.double.asExtended

/-- `neg`. -/
def neg (e : ExtendedPoint) : ExtendedPoint :=
  ⟨FieldElement51.neg e.X, e.Y, e.Z, FieldElement51.neg e.T⟩

/-- `add`, of a `ProjectiveNielsPoint`. -/
def addNiels (e : ExtendedPoint) (n : ProjectiveNielsPoint) : CompletedPoint :=
  let YPlusX := FieldElement51.add e.Y e.X
  let YMinusX := FieldElement51.sub e.Y e.X
  let PP := mul YPlusX n.YPlusX
  let MM := mul YMinusX n.YMinusX
  let TT2d := mul e.T n.T2d
  let ZZ := mul e.Z n.Z
  let ZZ2 := FieldElement51.add ZZ ZZ
  { X := FieldElement51.sub PP MM, Y := FieldElement51.add PP MM
    Z := FieldElement51.add ZZ2 TT2d, T := FieldElement51.sub ZZ2 TT2d }

/-- `sub`, of a `ProjectiveNielsPoint`. -/
def subNiels (e : ExtendedPoint) (n : ProjectiveNielsPoint) : CompletedPoint :=
  let YPlusX := FieldElement51.add e.Y e.X
  let YMinusX := FieldElement51.sub e.Y e.X
  let PM := mul YPlusX n.YMinusX
  let MP := mul YMinusX n.YPlusX
  let TT2d := mul e.T n.T2d
  let ZZ := mul e.Z n.Z
  let ZZ2 := FieldElement51.add ZZ ZZ
  { X := FieldElement51.sub PM MP, Y := FieldElement51.add PM MP
    Z := FieldElement51.sub ZZ2 TT2d, T := FieldElement51.add ZZ2 TT2d }

/-- `add`. -/
def add (e e' : ExtendedPoint) : ExtendedPoint := (e.addNiels e'.asProjectiveNiels).asExtended

/-- `sub`. -/
def sub (e e' : ExtendedPoint) : ExtendedPoint := (e.subNiels e'.asProjectiveNiels).asExtended

/-- `mul_by_pow_2`. -/
def mulByPow2 (e : ExtendedPoint) (k : ℕ) : ExtendedPoint :=
  let s := (List.range (k - 1)).foldl (fun s _ => s.double.asProjective) e.asProjective
  s.double.asExtended

/-- `ct_eq`. -/
def eq (e e' : ExtendedPoint) : Bool :=
  ctEq (mul e.X e'.Z) (mul e'.X e.Z) && ctEq (mul e.Y e'.Z) (mul e'.Y e.Z)

/-- `compress`. -/
def compress (e : ExtendedPoint) : List UInt8 :=
  let recip := invert e.Z
  let x := mul e.X recip
  let y := mul e.Y recip
  let s := asBytes y
  s.set 31 (s.getD 31 0 ^^^ x.isNegative.toUInt8 <<< 7)

end ExtendedPoint

/-! ### What limbs of coordinates stand for -/

/-- The limbs of coordinates, reduced. -/
structure ExtendedPoint.Of (e : ExtendedPoint) (f : CurveModels.ExtendedPoint) : Prop where
  X : e.X.Reduced f.X
  Y : e.Y.Reduced f.Y
  Z : e.Z.Reduced f.Z
  T : e.T.Reduced f.T

structure ProjectivePoint.Of (p : ProjectivePoint) (f : CurveModels.ProjectivePoint) : Prop where
  X : p.X.Reduced f.X
  Y : p.Y.Reduced f.Y
  Z : p.Z.Reduced f.Z

/-- What one formula leaves to the next: two bits more. -/
structure CompletedPoint.Of (c : CompletedPoint) (f : CurveModels.CompletedPoint) : Prop where
  X : c.X.Of (2 ^ 53) f.X
  Y : c.Y.Of (2 ^ 53) f.Y
  Z : c.Z.Of (2 ^ 53) f.Z
  T : c.T.Of (2 ^ 53) f.T

structure ProjectiveNielsPoint.Of (n : ProjectiveNielsPoint)
    (f : CurveModels.ProjectiveNielsPoint) : Prop where
  YPlusX : n.YPlusX.Of (2 ^ 53) f.YPlusX
  YMinusX : n.YMinusX.Of (2 ^ 53) f.YMinusX
  Z : n.Z.Of (2 ^ 53) f.Z
  T2d : n.T2d.Of (2 ^ 53) f.T2d

theorem edwardsD2_of : edwardsD2.Reduced MaliciousPsu.edwardsD2 :=
  of_mk (by decide) (by decide) (by decide) (by decide) (by decide) rfl

section Laws

variable {e e' : ExtendedPoint} {f f' : CurveModels.ExtendedPoint} {p : ProjectivePoint}
  {g : CurveModels.ProjectivePoint} {c : CompletedPoint} {d : CurveModels.CompletedPoint}
  {n : ProjectiveNielsPoint} {m : CurveModels.ProjectiveNielsPoint}

theorem CompletedPoint.Of.asProjective (h : c.Of d) : c.asProjective.Of d.asProjective where
  X := h.X.times h.T (by decide) (by decide)
  Y := h.Y.times h.Z (by decide) (by decide)
  Z := h.Z.times h.T (by decide) (by decide)

theorem CompletedPoint.Of.asExtended (h : c.Of d) : c.asExtended.Of d.asExtended where
  X := h.X.times h.T (by decide) (by decide)
  Y := h.Y.times h.Z (by decide) (by decide)
  Z := h.Z.times h.T (by decide) (by decide)
  T := h.X.times h.Y (by decide) (by decide)

theorem ProjectivePoint.Of.double (h : p.Of g) : p.double.Of g.double := by
  have hXX := h.X.squared (by decide)
  have hYY := h.Y.squared (by decide)
  have hZZ2 := (h.Z.mono (by decide)).square2
  have hsq := (h.X.add h.Y (by decide)).squared (by decide)
  have hplus := hYY.add hXX (by decide)
  have hminus := hYY.minus hXX (by decide) (by decide)
  rw [two_mul] at hZZ2
  exact ⟨(hsq.minus hplus (by decide) (by decide)).mono (by decide), hplus.mono (by decide),
    hminus.mono (by decide), (hZZ2.minus hminus (by decide) (by decide)).mono (by decide)⟩

namespace ExtendedPoint

theorem Of.asProjective (h : e.Of f) : e.asProjective.Of f.asProjective := ⟨h.X, h.Y, h.Z⟩

theorem Of.asProjectiveNiels (h : e.Of f) : e.asProjectiveNiels.Of f.asProjectiveNiels where
  YPlusX := (h.Y.add h.X (by decide)).mono (by decide)
  YMinusX := (h.Y.minus h.X (by decide) (by decide)).mono (by decide)
  Z := h.Z.mono (by decide)
  T2d := (h.T.product edwardsD2_of).mono (by decide)

theorem Of.addNiels (h : e.Of f) (hn : n.Of m) : (e.addNiels n).Of (CurveModels.Niels.add f m) := by
  have hPP := (h.Y.add h.X (by decide)).times hn.YPlusX (by decide) (by decide)
  have hMM := (h.Y.minus h.X (by decide) (by decide)).times hn.YMinusX (by decide) (by decide)
  have hTT2d := h.T.times hn.T2d (by decide) (by decide)
  have hZZ := h.Z.times hn.Z (by decide) (by decide)
  have hZZ2 := hZZ.add hZZ (by decide)
  exact ⟨(hPP.minus hMM (by decide) (by decide)).mono (by decide),
    (hPP.add hMM (by decide)).mono (by decide), (hZZ2.add hTT2d (by decide)).mono (by decide),
    (hZZ2.minus hTT2d (by decide) (by decide)).mono (by decide)⟩

theorem Of.subNiels (h : e.Of f) (hn : n.Of m) : (e.subNiels n).Of (CurveModels.Niels.sub f m) := by
  have hPM := (h.Y.add h.X (by decide)).times hn.YMinusX (by decide) (by decide)
  have hMP := (h.Y.minus h.X (by decide) (by decide)).times hn.YPlusX (by decide) (by decide)
  have hTT2d := h.T.times hn.T2d (by decide) (by decide)
  have hZZ := h.Z.times hn.Z (by decide) (by decide)
  have hZZ2 := hZZ.add hZZ (by decide)
  exact ⟨(hPM.minus hMP (by decide) (by decide)).mono (by decide),
    (hPM.add hMP (by decide)).mono (by decide),
    (hZZ2.minus hTT2d (by decide) (by decide)).mono (by decide),
    (hZZ2.add hTT2d (by decide)).mono (by decide)⟩

theorem Of.add (h : e.Of f) (h' : e'.Of f') : (e.add e').Of (f.add f') :=
  (h.addNiels h'.asProjectiveNiels).asExtended

theorem Of.sub (h : e.Of f) (h' : e'.Of f') : (e.sub e').Of (f.sub f') :=
  (h.subNiels h'.asProjectiveNiels).asExtended

theorem Of.double (h : e.Of f) : e.double.Of f.double := h.asProjective.double.asExtended

theorem Of.neg (h : e.Of f) : e.neg.Of f.neg :=
  ⟨(h.X.mono (by decide)).neg, h.Y, h.Z, (h.T.mono (by decide)).neg⟩

/-- Doublings in projective coordinates. -/
theorem Of.doublings (h : e.Of f) (k : ℕ) :
    ((List.range k).foldl (fun s _ => s.double.asProjective) e.asProjective).Of
      ((List.range k).foldl (fun s _ => s.double.asProjective) f.asProjective) := by
  induction k with
  | zero => exact h.asProjective
  | succ k ih =>
    rw [List.range_succ, List.foldl_concat, List.foldl_concat]
    exact ih.double.asProjective

theorem Of.mulByPow2 (h : e.Of f) (k : ℕ) : (e.mulByPow2 k).Of (f.mulByPow2 k) :=
  (h.doublings (k - 1)).double.asExtended

theorem Of.eq_iff (h : e.Of f) (h' : e'.Of f') : e.eq e' = true ↔ (f == f') = true := by
  have hbeq : (f == f') = (f.X * f'.Z == f'.X * f.Z && f.Y * f'.Z == f'.Y * f.Z) := rfl
  rw [ExtendedPoint.eq, hbeq, Bool.and_eq_true, Bool.and_eq_true, beq_iff_eq, beq_iff_eq,
    ctEq_iff ((h.X.product h'.Z).mono (by decide)) ((h'.X.product h.Z).mono (by decide)),
    ctEq_iff ((h.Y.product h'.Z).mono (by decide)) ((h'.Y.product h.Z).mono (by decide))]

/-- The sign in the highest bit. -/
theorem bytes_xor (b : Bytes32) (sign : Bool) :
    b.bytes.set 31 (b.bytes.getD 31 0 ^^^ sign.toUInt8 <<< 7) =
      Bytes32.bytes (b ^^^ if sign then BitVec.twoPow 256 255 else 0) := by
  cases sign with
  | false =>
    have hlt : 31 < b.bytes.length := by rw [Bytes32.length_bytes]; decide
    have hsign : b ^^^ (if false = true then BitVec.twoPow 256 255 else 0) = b := BitVec.xor_zero
    rw [hsign, List.getD_eq_getElem _ _ hlt, show false.toUInt8 <<< 7 = 0 from rfl, UInt8.xor_zero,
      List.set_getElem_self]
  | true =>
    have hlast : (leBytes 31 b.toNat).length = 31 := length_leBytes 31 _
    have hxor : (b ^^^ BitVec.twoPow 256 255).toNat = b.toNat ^^^ 2 ^ 255 := by
      rw [BitVec.toNat_xor, BitVec.toNat_twoPow, Nat.mod_eq_of_lt (by decide)]
    have hlow : leBytes 31 (b.toNat ^^^ 2 ^ 255) = leBytes 31 b.toNat := by
      have hmod : (b.toNat ^^^ 2 ^ 255) % 256 ^ 31 = b.toNat % 256 ^ 31 :=
        (Nat.xor_mod_two_pow (n := 248)).trans (Nat.xor_zero _)
      rw [← leBytes_mod, hmod, leBytes_mod]
    have hhigh : (b.toNat ^^^ 2 ^ 255) / 256 ^ 31 = b.toNat / 256 ^ 31 ^^^ 128 :=
      Nat.xor_div_two_pow (n := 248)
    rw [if_pos rfl, Bytes32.bytes, Bytes32.bytes, leBytes_concat 31, hxor, leBytes_concat 31, hlow,
      hhigh, List.set_append_right _ _ hlast.le, hlast, Nat.sub_self, List.set_cons_zero,
      List.getD_append_right _ _ _ _ hlast.le, hlast, UInt8.ofNat_xor]
    rfl

/-- **The encoding** of limbs. -/
theorem Of.compress_eq (h : e.Of f) : e.compress = Bytes32.bytes f.compress := by
  have hrecip := h.Z.invert
  have hx := h.X.product hrecip
  have hy := h.Y.product hrecip
  rw [ExtendedPoint.compress, (hx.mono (by decide)).isNegative_eq,
    (hy.mono (by decide)).asBytes_eq, bytes_xor, CurveModels.ExtendedPoint.compress,
    FieldElement.invert_eq]

end ExtendedPoint

end Laws

/-! ### What limbs stand for in the group -/

/-- `constants::ED25519_BASEPOINT_POINT`. -/
def basepoint : ExtendedPoint where
  X := ⟨1738742601995546, 1146398526822698, 2070867633025821, 562264141797630, 587772402128613⟩
  Y := ⟨1801439850948184, 1351079888211148, 450359962737049, 900719925474099, 1801439850948198⟩
  Z := ⟨1, 0, 0, 0, 0⟩
  T := ⟨1841354044333475, 16398895984059, 755974180946558, 900171276175154, 1821297809914039⟩

variable {e e' : ExtendedPoint} {P Q : EdwardsPoint}

end LimbModels

end MaliciousPsu
