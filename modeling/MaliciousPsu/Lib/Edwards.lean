import Mathlib.Algebra.Field.Basic
import Mathlib.Algebra.Group.Basic
import Mathlib.Tactic.Abel
import Mathlib.Tactic.FieldSimp
import Mathlib.Tactic.LinearCombination
import Mathlib.Tactic.Ring

/-!
# Twisted Edwards curves

The curve `-x² + y² = 1 + d·x²·y²` over a field where `-1` is a square and `d` is not.  The
addition law is then *complete*: neither denominator of the sum of two points vanishes
(`cross_ne`), so addition is one formula on affine points, with no case analysis, and the points
are a commutative group.

* `Point.cross_ne`: `d·x₁·x₂·y₁·y₂` is neither `1` nor `-1`.
* `Point.add_x_mul`, `Point.add_y_mul`: a sum, read without its denominators.
* `Point.instAddCommGroup`: the group.  Associativity is the one long computation: each coordinate
  of `(P + Q) + R` and of `P + (Q + R)` is a quotient, and the cross products of the quotients
  differ by a combination of the three curve equations, given explicitly.
* `Proj.nsmul`: multiples in projective coordinates, without a division, so that a closed
  instance of `n • P = 0` is decided by evaluation (`Proj.nsmul_eq_zero`).
-/

/-- The parameters of the curve `-x² + y² = 1 + d·x²·y²`, with what makes its addition law
complete: a square root `i` of `-1`, and `d` not a square. -/
structure TwistedEdwards (F : Type*) [Field F] where
  d : F
  i : F
  i_mul_i : i * i = -1
  mul_self_ne_d : ∀ x, x * x ≠ d
  two_ne : (2 : F) ≠ 0

namespace TwistedEdwards

variable {F : Type*} [Field F] (C : TwistedEdwards F)

/-- An affine point of the curve. -/
@[ext] structure Point where
  x : F
  y : F
  on_curve : y ^ 2 - x ^ 2 = 1 + C.d * x ^ 2 * y ^ 2

variable {C}

theorem i_ne_zero : C.i ≠ 0 := by
  intro h
  have := C.i_mul_i
  simp [h] at this

/-- `d` is no quotient of squares. -/
theorem sq_ne_d_mul {a b : F} (hb : b ≠ 0) : a ^ 2 ≠ C.d * b ^ 2 := by
  intro h
  refine C.mul_self_ne_d (a / b) ?_
  field_simp
  linear_combination h

namespace Point

instance [DecidableEq F] : DecidableEq C.Point := fun _ _ => decidable_of_iff _ Point.ext_iff.symm

/-! ### Completeness -/

/-- The product `d·x₁·x₂·y₁·y₂` of the addition law. -/
def cross (P Q : C.Point) : F := C.d * P.x * Q.x * P.y * Q.y

/-- **The addition law is complete.** -/
theorem cross_sq_ne_one (P Q : C.Point) : cross P Q ^ 2 ≠ 1 := by
  obtain ⟨x₁, y₁, h₁⟩ := P
  obtain ⟨x₂, y₂, h₂⟩ := Q
  intro ht
  simp only [cross] at ht
  have hx₁ : x₁ ≠ 0 := by rintro rfl; simp at ht
  have hy₁ : y₁ ≠ 0 := by rintro rfl; simp at ht
  have hx₂ : x₂ ≠ 0 := by rintro rfl; simp at ht
  -- with `t` the product, `(i·x₁ ± t·y₁)² = d·(x₁·y₁·(i·x₂ ± y₂))²`: were `i·x₂ + y₂` or
  -- `i·x₂ - y₂` not zero, `d` would be a square
  have key : ∀ s : F, s ^ 2 = 1 → C.i * x₂ + s * y₂ = 0 := by
    intro s hs
    by_contra h
    refine sq_ne_d_mul (C := C) (a := C.i * x₁ + s * (C.d * x₁ * x₂ * y₁ * y₂) * y₁)
      (mul_ne_zero (mul_ne_zero hx₁ hy₁) h) ?_
    linear_combination (x₁ ^ 2 - C.d * x₁ ^ 2 * y₁ ^ 2 * x₂ ^ 2) * C.i_mul_i
      + ((C.d * x₁ * x₂ * y₁ * y₂) ^ 2 * y₁ ^ 2 - C.d * x₁ ^ 2 * y₁ ^ 2 * y₂ ^ 2) * hs
      - C.d * x₁ ^ 2 * y₁ ^ 2 * h₂ + (y₁ ^ 2 - 1) * ht + h₁
  have h₃ : 2 * (C.i * x₂) = 0 := by
    linear_combination key 1 (by ring) + key (-1) (by ring)
  exact mul_ne_zero C.two_ne (mul_ne_zero i_ne_zero hx₂) h₃

theorem cross_ne (P Q : C.Point) : 1 + cross P Q ≠ 0 ∧ 1 - cross P Q ≠ 0 := by
  have h := cross_sq_ne_one P Q
  refine ⟨fun h₁ => h ?_, fun h₁ => h ?_⟩
  · linear_combination (cross P Q - 1) * h₁
  · linear_combination -(cross P Q + 1) * h₁

/-- A point given by two quotients `a/p` and `b/m` is on the curve when their numerators and
denominators say so. -/
theorem on_curve_of_mul {x y p m a b : F} (hp : p ≠ 0) (hm : m ≠ 0) (hx : x * p = a)
    (hy : y * m = b) (h : (b * p) ^ 2 - (a * m) ^ 2 = (p * m) ^ 2 + C.d * (a * b) ^ 2) :
    y ^ 2 - x ^ 2 = 1 + C.d * x ^ 2 * y ^ 2 := by
  subst hx hy
  refine mul_right_cancel₀ (pow_ne_zero 2 (mul_ne_zero hp hm)) ?_
  linear_combination h

/-- The sum of two points of the curve is on the curve, without the denominators. -/
theorem add_on_curve {x₁ y₁ x₂ y₂ : F} (h₁ : y₁ ^ 2 - x₁ ^ 2 = 1 + C.d * x₁ ^ 2 * y₁ ^ 2)
    (h₂ : y₂ ^ 2 - x₂ ^ 2 = 1 + C.d * x₂ ^ 2 * y₂ ^ 2) :
    ((y₁ * y₂ + x₁ * x₂) * (1 + C.d * x₁ * x₂ * y₁ * y₂)) ^ 2
        - ((x₁ * y₂ + y₁ * x₂) * (1 - C.d * x₁ * x₂ * y₁ * y₂)) ^ 2
      = ((1 + C.d * x₁ * x₂ * y₁ * y₂) * (1 - C.d * x₁ * x₂ * y₁ * y₂)) ^ 2
        + C.d * ((x₁ * y₂ + y₁ * x₂) * (y₁ * y₂ + x₁ * x₂)) ^ 2 := by
  linear_combination (
      1 + y₁ ^ 2 - y₁ ^ 2 * y₂ ^ 2 + y₁ ^ 2 * x₂ ^ 2 - x₁ ^ 2 + x₁ ^ 2 * y₂ ^ 2
      - x₁ ^ 2 * x₂ ^ 2 + 2 * x₁ ^ 2 * y₁ ^ 2 - 2 * x₁ ^ 2 * y₁ ^ 2 * y₂ ^ 2
      + 2 * x₁ ^ 2 * y₁ ^ 2 * x₂ ^ 2 + C.d * x₁ ^ 2 * y₁ ^ 2
      - 2 * C.d * x₁ ^ 2 * y₁ ^ 2 * y₂ ^ 2 + C.d * x₁ ^ 2 * y₁ ^ 2 * y₂ ^ 4
      + 2 * C.d * x₁ ^ 2 * y₁ ^ 2 * x₂ ^ 2 + C.d * x₁ ^ 2 * y₁ ^ 2 * x₂ ^ 4) * h₁
    + (
      y₁ ^ 4 - 4 * x₁ ^ 2 * y₁ ^ 2 + 2 * x₁ ^ 2 * y₁ ^ 4 + x₁ ^ 4 - 2 * x₁ ^ 4 * y₁ ^ 2
      - 2 * C.d * x₁ ^ 2 * y₁ ^ 2 - C.d * x₁ ^ 2 * y₁ ^ 4 * y₂ ^ 2
      + C.d * x₁ ^ 2 * y₁ ^ 4 * x₂ ^ 2 + C.d * x₁ ^ 4 * y₁ ^ 2 * y₂ ^ 2
      - C.d * x₁ ^ 4 * y₁ ^ 2 * x₂ ^ 2 - 2 * C.d * x₁ ^ 4 * y₁ ^ 4 - C.d ^ 2 * x₁ ^ 4 * y₁ ^ 4
      + C.d ^ 2 * x₁ ^ 4 * y₁ ^ 4 * y₂ ^ 2 - C.d ^ 2 * x₁ ^ 4 * y₁ ^ 4 * x₂ ^ 2
      + C.d ^ 3 * x₁ ^ 4 * y₁ ^ 4 * x₂ ^ 2 * y₂ ^ 2) * h₂

/-! ### The group operations -/

instance : Zero C.Point := ⟨⟨0, 1, by ring⟩⟩

instance : Neg C.Point := ⟨fun P => ⟨-P.x, P.y, by linear_combination P.on_curve⟩⟩

instance : Add C.Point :=
  ⟨fun P Q =>
    { x := (P.x * Q.y + P.y * Q.x) / (1 + cross P Q)
      y := (P.y * Q.y + P.x * Q.x) / (1 - cross P Q)
      on_curve := on_curve_of_mul (cross_ne P Q).1 (cross_ne P Q).2
        (div_mul_cancel₀ _ (cross_ne P Q).1) (div_mul_cancel₀ _ (cross_ne P Q).2)
        (add_on_curve P.on_curve Q.on_curve) }⟩

@[simp] theorem zero_x : (0 : C.Point).x = 0 := rfl

@[simp] theorem zero_y : (0 : C.Point).y = 1 := rfl

@[simp] theorem neg_x (P : C.Point) : (-P).x = -P.x := rfl

@[simp] theorem neg_y (P : C.Point) : (-P).y = P.y := rfl

/-- The abscissa of a sum, without its denominator. -/
theorem add_x_mul (P Q : C.Point) : (P + Q).x * (1 + cross P Q) = P.x * Q.y + P.y * Q.x :=
  div_mul_cancel₀ _ (cross_ne P Q).1

/-- The ordinate of a sum, without its denominator. -/
theorem add_y_mul (P Q : C.Point) : (P + Q).y * (1 - cross P Q) = P.y * Q.y + P.x * Q.x :=
  div_mul_cancel₀ _ (cross_ne P Q).2

/-- A sum is the point whose coordinates satisfy the two equations of the addition law. -/
theorem add_eq_iff {P Q R : C.Point} :
    P + Q = R ↔ R.x * (1 + cross P Q) = P.x * Q.y + P.y * Q.x ∧
      R.y * (1 - cross P Q) = P.y * Q.y + P.x * Q.x := by
  obtain ⟨hp, hm⟩ := cross_ne P Q
  refine ⟨fun h => h ▸ ⟨add_x_mul P Q, add_y_mul P Q⟩, fun ⟨hx, hy⟩ => Point.ext ?_ ?_⟩
  · exact mul_right_cancel₀ hp ((add_x_mul P Q).trans hx.symm)
  · exact mul_right_cancel₀ hm ((add_y_mul P Q).trans hy.symm)

theorem add_comm' (P Q : C.Point) : P + Q = Q + P := by
  refine add_eq_iff.mpr ⟨?_, ?_⟩
  · have h := add_x_mul Q P
    simp only [cross] at h ⊢
    linear_combination h
  · have h := add_y_mul Q P
    simp only [cross] at h ⊢
    linear_combination h

theorem zero_add' (P : C.Point) : 0 + P = P :=
  add_eq_iff.mpr ⟨by simp [cross], by simp [cross]⟩

theorem neg_add_cancel' (P : C.Point) : -P + P = 0 := by
  refine add_eq_iff.mpr ⟨?_, ?_⟩
  · simp only [zero_x, neg_x, neg_y]; ring
  · simp only [cross, zero_y, neg_x, neg_y]; linear_combination -P.on_curve

/-! ### Associativity -/

/-- The abscissae of `(P + Q) + R` and `P + (Q + R)` have equal cross products. -/
theorem assoc_x {x₁ y₁ x₂ y₂ x₃ y₃ : F} (h₁ : y₁ ^ 2 - x₁ ^ 2 = 1 + C.d * x₁ ^ 2 * y₁ ^ 2)
    (h₂ : y₂ ^ 2 - x₂ ^ 2 = 1 + C.d * x₂ ^ 2 * y₂ ^ 2)
    (h₃ : y₃ ^ 2 - x₃ ^ 2 = 1 + C.d * x₃ ^ 2 * y₃ ^ 2) :
    ((x₁ * y₂ + y₁ * x₂) * (1 - C.d * x₁ * x₂ * y₁ * y₂) * y₃
        + (y₁ * y₂ + x₁ * x₂) * (1 + C.d * x₁ * x₂ * y₁ * y₂) * x₃)
      * ((1 + C.d * x₂ * x₃ * y₂ * y₃) * (1 - C.d * x₂ * x₃ * y₂ * y₃)
        + C.d * x₁ * y₁ * (x₂ * y₃ + y₂ * x₃) * (y₂ * y₃ + x₂ * x₃))
    = (x₁ * (y₂ * y₃ + x₂ * x₃) * (1 + C.d * x₂ * x₃ * y₂ * y₃)
        + y₁ * (x₂ * y₃ + y₂ * x₃) * (1 - C.d * x₂ * x₃ * y₂ * y₃))
      * ((1 + C.d * x₁ * x₂ * y₁ * y₂) * (1 - C.d * x₁ * x₂ * y₁ * y₂)
        + C.d * (x₁ * y₂ + y₁ * x₂) * (y₁ * y₂ + x₁ * x₂) * x₃ * y₃) := by
  linear_combination C.d * x₂ * y₂ * (
      -y₁ * y₂ ^ 3 * x₃ ^ 2 * y₃ - y₁ * x₂ * y₂ ^ 2 * x₃ - y₁ * x₂ * y₂ ^ 2 * x₃ ^ 3
      - y₁ * x₂ ^ 2 * y₂ * y₃ + y₁ * x₂ ^ 2 * y₂ * y₃ ^ 3 + y₁ * x₂ ^ 3 * x₃ * y₃ ^ 2
      + x₁ * y₂ ^ 3 * x₃ * y₃ ^ 2 - x₁ * x₂ * y₂ ^ 2 * y₃ + x₁ * x₂ * y₂ ^ 2 * y₃ ^ 3
      - x₁ * x₂ ^ 2 * y₂ * x₃ - x₁ * x₂ ^ 2 * y₂ * x₃ ^ 3 - x₁ * x₂ ^ 3 * x₃ ^ 2 * y₃
      + C.d * y₁ * x₂ ^ 2 * y₂ ^ 3 * x₃ ^ 2 * y₃ + C.d * y₁ * x₂ ^ 3 * y₂ ^ 2 * x₃ * y₃ ^ 2
      - C.d * x₁ * x₂ ^ 2 * y₂ ^ 3 * x₃ * y₃ ^ 2 - C.d * x₁ * x₂ ^ 3 * y₂ ^ 2 * x₃ ^ 2 * y₃) * h₁
    + C.d * x₂ * y₂ * (
      -y₁ * y₂ * x₃ ^ 2 * y₃ - y₁ * x₂ * x₃ * y₃ ^ 2 + y₁ ^ 3 * y₂ * x₃ ^ 2 * y₃
      + y₁ ^ 3 * x₂ * x₃ * y₃ ^ 2 + x₁ * y₂ * x₃ * y₃ ^ 2 + x₁ * x₂ * x₃ ^ 2 * y₃
      - x₁ * y₁ ^ 2 * y₂ * x₃ - x₁ * y₁ ^ 2 * y₂ * x₃ ^ 3 + x₁ * y₁ ^ 2 * x₂ * y₃
      - x₁ * y₁ ^ 2 * x₂ * y₃ ^ 3 + x₁ ^ 2 * y₁ * y₂ * y₃ - x₁ ^ 2 * y₁ * y₂ * y₃ ^ 3
      - x₁ ^ 2 * y₁ * x₂ * x₃ - x₁ ^ 2 * y₁ * x₂ * x₃ ^ 3 + x₁ ^ 3 * y₂ * x₃ * y₃ ^ 2
      + x₁ ^ 3 * x₂ * x₃ ^ 2 * y₃) * h₂
    + C.d * x₂ * y₂ * (
      y₁ * x₂ * y₂ ^ 2 * x₃ + y₁ * x₂ ^ 2 * y₂ * y₃ - y₁ ^ 3 * x₂ * y₂ ^ 2 * x₃
      - y₁ ^ 3 * x₂ ^ 2 * y₂ * y₃ + x₁ * x₂ * y₂ ^ 2 * y₃ + x₁ * x₂ ^ 2 * y₂ * x₃
      - x₁ * y₁ ^ 2 * y₂ ^ 3 * x₃ - x₁ * y₁ ^ 2 * x₂ ^ 3 * y₃ + x₁ ^ 2 * y₁ * y₂ ^ 3 * y₃
      + x₁ ^ 2 * y₁ * x₂ ^ 3 * x₃ + x₁ ^ 3 * x₂ * y₂ ^ 2 * y₃ + x₁ ^ 3 * x₂ ^ 2 * y₂ * x₃
      + C.d * x₁ * y₁ ^ 2 * x₂ ^ 2 * y₂ ^ 3 * x₃ - C.d * x₁ * y₁ ^ 2 * x₂ ^ 3 * y₂ ^ 2 * y₃
      - C.d * x₁ ^ 2 * y₁ * x₂ ^ 2 * y₂ ^ 3 * y₃ + C.d * x₁ ^ 2 * y₁ * x₂ ^ 3 * y₂ ^ 2 * x₃) * h₃

/-- The ordinates of `(P + Q) + R` and `P + (Q + R)` have equal cross products. -/
theorem assoc_y {x₁ y₁ x₂ y₂ x₃ y₃ : F} (h₁ : y₁ ^ 2 - x₁ ^ 2 = 1 + C.d * x₁ ^ 2 * y₁ ^ 2)
    (h₂ : y₂ ^ 2 - x₂ ^ 2 = 1 + C.d * x₂ ^ 2 * y₂ ^ 2)
    (h₃ : y₃ ^ 2 - x₃ ^ 2 = 1 + C.d * x₃ ^ 2 * y₃ ^ 2) :
    ((y₁ * y₂ + x₁ * x₂) * (1 + C.d * x₁ * x₂ * y₁ * y₂) * y₃
        + (x₁ * y₂ + y₁ * x₂) * (1 - C.d * x₁ * x₂ * y₁ * y₂) * x₃)
      * ((1 + C.d * x₂ * x₃ * y₂ * y₃) * (1 - C.d * x₂ * x₃ * y₂ * y₃)
        - C.d * x₁ * y₁ * (x₂ * y₃ + y₂ * x₃) * (y₂ * y₃ + x₂ * x₃))
    = (y₁ * (y₂ * y₃ + x₂ * x₃) * (1 + C.d * x₂ * x₃ * y₂ * y₃)
        + x₁ * (x₂ * y₃ + y₂ * x₃) * (1 - C.d * x₂ * x₃ * y₂ * y₃))
      * ((1 + C.d * x₁ * x₂ * y₁ * y₂) * (1 - C.d * x₁ * x₂ * y₁ * y₂)
        - C.d * (x₁ * y₂ + y₁ * x₂) * (y₁ * y₂ + x₁ * x₂) * x₃ * y₃) := by
  linear_combination C.d * x₂ * y₂ * (
      y₁ * y₂ ^ 3 * x₃ * y₃ ^ 2 - y₁ * x₂ * y₂ ^ 2 * y₃ + y₁ * x₂ * y₂ ^ 2 * y₃ ^ 3
      - y₁ * x₂ ^ 2 * y₂ * x₃ - y₁ * x₂ ^ 2 * y₂ * x₃ ^ 3 - y₁ * x₂ ^ 3 * x₃ ^ 2 * y₃
      - x₁ * y₂ ^ 3 * x₃ ^ 2 * y₃ - x₁ * x₂ * y₂ ^ 2 * x₃ - x₁ * x₂ * y₂ ^ 2 * x₃ ^ 3
      - x₁ * x₂ ^ 2 * y₂ * y₃ + x₁ * x₂ ^ 2 * y₂ * y₃ ^ 3 + x₁ * x₂ ^ 3 * x₃ * y₃ ^ 2
      - C.d * y₁ * x₂ ^ 2 * y₂ ^ 3 * x₃ * y₃ ^ 2 - C.d * y₁ * x₂ ^ 3 * y₂ ^ 2 * x₃ ^ 2 * y₃
      + C.d * x₁ * x₂ ^ 2 * y₂ ^ 3 * x₃ ^ 2 * y₃ + C.d * x₁ * x₂ ^ 3 * y₂ ^ 2 * x₃ * y₃ ^ 2) * h₁
    + C.d * x₂ * y₂ * (
      y₁ * y₂ * x₃ * y₃ ^ 2 + y₁ * x₂ * x₃ ^ 2 * y₃ - y₁ ^ 3 * y₂ * x₃ * y₃ ^ 2
      - y₁ ^ 3 * x₂ * x₃ ^ 2 * y₃ - x₁ * y₂ * x₃ ^ 2 * y₃ - x₁ * x₂ * x₃ * y₃ ^ 2
      - x₁ * y₁ ^ 2 * y₂ * y₃ + x₁ * y₁ ^ 2 * y₂ * y₃ ^ 3 + x₁ * y₁ ^ 2 * x₂ * x₃
      + x₁ * y₁ ^ 2 * x₂ * x₃ ^ 3 + x₁ ^ 2 * y₁ * y₂ * x₃ + x₁ ^ 2 * y₁ * y₂ * x₃ ^ 3
      - x₁ ^ 2 * y₁ * x₂ * y₃ + x₁ ^ 2 * y₁ * x₂ * y₃ ^ 3 - x₁ ^ 3 * y₂ * x₃ ^ 2 * y₃
      - x₁ ^ 3 * x₂ * x₃ * y₃ ^ 2) * h₂
    + C.d * x₂ * y₂ * (
      y₁ * x₂ * y₂ ^ 2 * y₃ + y₁ * x₂ ^ 2 * y₂ * x₃ - y₁ ^ 3 * x₂ * y₂ ^ 2 * y₃
      - y₁ ^ 3 * x₂ ^ 2 * y₂ * x₃ + x₁ * x₂ * y₂ ^ 2 * x₃ + x₁ * x₂ ^ 2 * y₂ * y₃
      - x₁ * y₁ ^ 2 * y₂ ^ 3 * y₃ - x₁ * y₁ ^ 2 * x₂ ^ 3 * x₃ + x₁ ^ 2 * y₁ * y₂ ^ 3 * x₃
      + x₁ ^ 2 * y₁ * x₂ ^ 3 * y₃ + x₁ ^ 3 * x₂ * y₂ ^ 2 * x₃ + x₁ ^ 3 * x₂ ^ 2 * y₂ * y₃
      + C.d * x₁ * y₁ ^ 2 * x₂ ^ 2 * y₂ ^ 3 * y₃ - C.d * x₁ * y₁ ^ 2 * x₂ ^ 3 * y₂ ^ 2 * x₃
      - C.d * x₁ ^ 2 * y₁ * x₂ ^ 2 * y₂ ^ 3 * x₃ + C.d * x₁ ^ 2 * y₁ * x₂ ^ 3 * y₂ ^ 2 * y₃) * h₃

/-- The sum of three points, without the denominators of either sum. -/
theorem add_add_mul (P Q R : C.Point) :
    (P + Q + R).x * ((1 + cross P Q) * (1 - cross P Q)
        + C.d * (P.x * Q.y + P.y * Q.x) * (P.y * Q.y + P.x * Q.x) * R.x * R.y)
      = (P.x * Q.y + P.y * Q.x) * (1 - cross P Q) * R.y
        + (P.y * Q.y + P.x * Q.x) * (1 + cross P Q) * R.x ∧
    (P + Q + R).y * ((1 + cross P Q) * (1 - cross P Q)
        - C.d * (P.x * Q.y + P.y * Q.x) * (P.y * Q.y + P.x * Q.x) * R.x * R.y)
      = (P.y * Q.y + P.x * Q.x) * (1 + cross P Q) * R.y
        + (P.x * Q.y + P.y * Q.x) * (1 - cross P Q) * R.x := by
  have hx := add_x_mul (P + Q) R
  have hy := add_y_mul (P + Q) R
  rw [← add_x_mul P Q, ← add_y_mul P Q]
  simp only [cross] at hx hy ⊢
  constructor
  · linear_combination
      (1 + C.d * P.x * Q.x * P.y * Q.y) * (1 - C.d * P.x * Q.x * P.y * Q.y) * hx
  · linear_combination
      (1 + C.d * P.x * Q.x * P.y * Q.y) * (1 - C.d * P.x * Q.x * P.y * Q.y) * hy

/-- The denominators of `add_add_mul` do not vanish. -/
theorem add_add_den_ne (P Q R : C.Point) :
    (1 + cross P Q) * (1 - cross P Q)
        + C.d * (P.x * Q.y + P.y * Q.x) * (P.y * Q.y + P.x * Q.x) * R.x * R.y ≠ 0 ∧
    (1 + cross P Q) * (1 - cross P Q)
        - C.d * (P.x * Q.y + P.y * Q.x) * (P.y * Q.y + P.x * Q.x) * R.x * R.y ≠ 0 := by
  have h := mul_ne_zero (cross_ne P Q).1 (cross_ne P Q).2
  rw [← add_x_mul P Q, ← add_y_mul P Q]
  constructor
  · intro h₀
    refine mul_ne_zero h (cross_ne (P + Q) R).1 ?_
    rw [← h₀, cross.eq_def (P + Q) R]
    ring
  · intro h₀
    refine mul_ne_zero h (cross_ne (P + Q) R).2 ?_
    rw [← h₀, cross.eq_def (P + Q) R]
    ring

theorem eq_of_cross_mul {u v m₁ m₂ n₁ n₂ : F} (hu : u * m₁ = n₁) (hv : v * m₂ = n₂)
    (hm₁ : m₁ ≠ 0) (hm₂ : m₂ ≠ 0) (h : n₁ * m₂ = n₂ * m₁) : u = v := by
  refine mul_right_cancel₀ (mul_ne_zero hm₁ hm₂) ?_
  linear_combination m₂ * hu - m₁ * hv + h

theorem add_assoc' (P Q R : C.Point) : P + Q + R = P + (Q + R) := by
  rw [add_comm' P (Q + R)]
  obtain ⟨hx₁, hy₁⟩ := add_add_mul P Q R
  obtain ⟨hx₂, hy₂⟩ := add_add_mul Q R P
  refine Point.ext
    (eq_of_cross_mul hx₁ hx₂ (add_add_den_ne P Q R).1 (add_add_den_ne Q R P).1 ?_)
    (eq_of_cross_mul hy₁ hy₂ (add_add_den_ne P Q R).2 (add_add_den_ne Q R P).2 ?_)
  · have h := assoc_x P.on_curve Q.on_curve R.on_curve
    simp only [cross]
    linear_combination h
  · have h := assoc_y P.on_curve Q.on_curve R.on_curve
    simp only [cross]
    linear_combination h

instance instAddCommGroup : AddCommGroup C.Point where
  add_assoc := add_assoc'
  zero_add := zero_add'
  add_zero P := (add_comm' P 0).trans (zero_add' P)
  neg_add_cancel := neg_add_cancel'
  add_comm := add_comm'
  nsmul := nsmulRec
  zsmul := zsmulRec

end Point

/-! ### Projective multiples -/

/-- Projective coordinates: `(x : y : z)` is the point `(x/z, y/z)`. -/
structure Proj (F : Type*) where
  x : F
  y : F
  z : F

namespace Proj

/-- The addition law on projective coordinates. -/
def add (d : F) (P Q : Proj F) : Proj F :=
  let a := P.z * Q.z
  let b := a * a
  let c := P.x * Q.x
  let e := P.y * Q.y
  let t := d * c * e
  ⟨a * (b - t) * (P.x * Q.y + P.y * Q.x), a * (b + t) * (e + c), (b - t) * (b + t)⟩

/-- `A + n·P` by doubling and adding, over the `k` low bits of `n`. -/
def nsmul (d : F) : ℕ → ℕ → Proj F → Proj F → Proj F
  | 0, _, A, _ => A
  | k + 1, n, A, P => nsmul d k (n / 2) (if n % 2 = 1 then add d A P else A) (add d P P)

/-- `P` represents `Q`. -/
def Rep (P : Proj F) (Q : C.Point) : Prop := P.z ≠ 0 ∧ P.x = Q.x * P.z ∧ P.y = Q.y * P.z

theorem rep_zero : Rep (C := C) ⟨0, 1, 1⟩ 0 := ⟨one_ne_zero, by simp, by simp⟩

theorem rep_affine (Q : C.Point) : Rep ⟨Q.x, Q.y, 1⟩ Q := ⟨one_ne_zero, by simp, by simp⟩

theorem rep_add {P₁ P₂ : Proj F} {Q₁ Q₂ : C.Point} (h₁ : Rep P₁ Q₁) (h₂ : Rep P₂ Q₂) :
    Rep (add C.d P₁ P₂) (Q₁ + Q₂) := by
  obtain ⟨hz₁, hx₁, hy₁⟩ := h₁
  obtain ⟨hz₂, hx₂, hy₂⟩ := h₂
  have hx := Point.add_x_mul Q₁ Q₂
  have hy := Point.add_y_mul Q₁ Q₂
  have hb : (P₁.z * P₂.z) ^ 2 ≠ 0 := pow_ne_zero 2 (mul_ne_zero hz₁ hz₂)
  obtain ⟨hp, hm⟩ := Point.cross_ne Q₁ Q₂
  simp only [Rep, add, hx₁, hy₁, hx₂, hy₂]
  simp only [Point.cross] at hx hy hp hm
  refine ⟨fun h => mul_ne_zero (mul_ne_zero hb hm) (mul_ne_zero hb hp) ?_, ?_, ?_⟩
  · linear_combination h
  · linear_combination -(P₁.z * P₂.z) ^ 4 * (1 - C.d * Q₁.x * Q₂.x * Q₁.y * Q₂.y) * hx
  · linear_combination -(P₁.z * P₂.z) ^ 4 * (1 + C.d * Q₁.x * Q₂.x * Q₁.y * Q₂.y) * hy

theorem rep_nsmul : ∀ (k n : ℕ) {A P : Proj F} {Q R : C.Point}, n < 2 ^ k → Rep A R → Rep P Q →
    Rep (nsmul C.d k n A P) (R + n • Q)
  | 0, n, A, P, Q, R, hn, hA, _ => by
      obtain rfl : n = 0 := by simpa using hn
      rw [zero_smul, add_zero]
      exact hA
  | k + 1, n, A, P, Q, R, hn, hA, hP => by
      have hlt : n / 2 < 2 ^ k := by rw [pow_succ] at hn; omega
      have ih := fun {A' R'} (h : Rep A' R') => rep_nsmul k (n / 2) hlt h (rep_add hP hP)
      have hdiv := Nat.div_add_mod n 2
      rw [nsmul]
      split
      · next hodd =>
          have e : R + n • Q = R + Q + (n / 2) • (Q + Q) := by
            conv_lhs => rw [← hdiv, hodd, add_smul, mul_comm, mul_smul, two_smul, one_smul]
            abel
          exact e ▸ ih (rep_add hA hP)
      · next heven =>
          have h0 : n % 2 = 0 := by omega
          have e : R + n • Q = R + (n / 2) • (Q + Q) := by
            conv_lhs => rw [← hdiv, h0, add_zero, mul_comm, mul_smul, two_smul]
          exact e ▸ ih hA

/-- A multiple that is the neutral element, read off its projective coordinates. -/
theorem nsmul_eq_zero {k n : ℕ} (Q : C.Point) (hn : n < 2 ^ k)
    (h : (nsmul C.d k n ⟨0, 1, 1⟩ ⟨Q.x, Q.y, 1⟩).x = 0 ∧
      (nsmul C.d k n ⟨0, 1, 1⟩ ⟨Q.x, Q.y, 1⟩).y = (nsmul C.d k n ⟨0, 1, 1⟩ ⟨Q.x, Q.y, 1⟩).z) :
    n • Q = 0 := by
  obtain ⟨hz, hx, hy⟩ := rep_nsmul k n hn rep_zero (rep_affine Q)
  rw [h.1, zero_add] at hx
  rw [h.2, zero_add] at hy
  refine Point.ext ?_ ?_
  · exact (mul_eq_zero.mp hx.symm).resolve_right hz
  · exact mul_right_cancel₀ hz (hy.symm.trans (one_mul _).symm)

end Proj

end TwistedEdwards
