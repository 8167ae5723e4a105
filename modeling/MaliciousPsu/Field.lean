import MaliciousPsu.Bytes
import MaliciousPsu.Lib.PowMod
import Mathlib.Algebra.Field.ZMod
import Mathlib.NumberTheory.LegendreSymbol.QuadraticReciprocity
import Mathlib.Tactic.FieldSimp
import Mathlib.Tactic.LinearCombination
import Mathlib.Tactic.NormNum.Prime

/-!
# The field of Curve25519

`FieldElement` is an element of `ℤ/p`, `p = 2²⁵⁵ - 19`; the five 51-bit limbs that hold it in
`backend/serial/u64/field.rs` are left out, and a constant given by limbs is `fromLimbs` of them.

* `prime_p`: `p` is prime, by Lucas's test.
* `sqrtRatioI`: `field.rs`'s `sqrt_ratio_i`, with its exponentiation; `sqrtRatioI_of_isSquare`,
  `sqrtRatioI_of_not_isSquare` and `sqrtRatioI_zero_right` are its documented contract.
* `isNegative_neg`: exactly one of a nonzero element and its opposite is negative.
-/

namespace MaliciousPsu

/-- `2^255 - 19`. -/
def p : ℕ := 2 ^ 255 - 19

theorem p_lt : p < 2 ^ 255 := by decide

theorem prime_p : p.Prime := by
  have h₀ : Nat.Prime 2773320623 := by
    refine prime_of_lucas 5 [2, 2437, 569003] (by norm_num) (by norm_num) (by norm_num)
      (by decide +kernel) (by decide +kernel) ?_
    norm_num
  have h₁ : Nat.Prime 72106336199 := by
    refine prime_of_lucas 7 [2, 13, 2773320623] (by norm_num) (by norm_num) (by norm_num)
      (by decide +kernel) (by decide +kernel) ?_
    simp only [List.forall_mem_cons, List.not_mem_nil, false_imp_iff, implies_true, and_true]
    exact ⟨by norm_num, by norm_num, h₀⟩
  have h₂ : Nat.Prime 1919519569386763 := by
    refine prime_of_lucas 2 [2, 3, 7, 19, 47, 47, 127, 8574133] (by norm_num) (by norm_num)
      (by norm_num) (by decide +kernel) (by decide +kernel) ?_
    norm_num
  have h₃ : Nat.Prime 31757755568855353 := by
    refine prime_of_lucas 10 [2, 2, 2, 3, 31, 107, 223, 4153, 430751] (by norm_num) (by norm_num)
      (by norm_num) (by decide +kernel) (by decide +kernel) ?_
    norm_num
  have h₄ : Nat.Prime 75445702479781427272750846543864801 := by
    refine prime_of_lucas 7 [2, 2, 2, 2, 2, 3, 3, 5, 5, 75707, 72106336199, 1919519569386763]
      (by norm_num) (by norm_num) (by norm_num) (by decide +kernel) (by decide +kernel) ?_
    simp only [List.forall_mem_cons, List.not_mem_nil, false_imp_iff, implies_true, and_true]
    refine ⟨?_, ?_, ?_, ?_, ?_, ?_, ?_, ?_, ?_, ?_, h₁, h₂⟩ <;> norm_num
  have h₅ : Nat.Prime
      74058212732561358302231226437062788676166966415465897661863160754340907 := by
    refine prime_of_lucas 2 [2, 3, 353, 57467, 132049, 1923133, 31757755568855353,
      75445702479781427272750846543864801] (by norm_num) (by norm_num) (by norm_num)
      (by decide +kernel) (by decide +kernel) ?_
    simp only [List.forall_mem_cons, List.not_mem_nil, false_imp_iff, implies_true, and_true]
    refine ⟨?_, ?_, ?_, ?_, ?_, ?_, h₃, h₄⟩ <;> norm_num
  refine prime_of_lucas 2 [2, 2, 3, 65147,
    74058212732561358302231226437062788676166966415465897661863160754340907] (by decide +kernel)
    (by decide) (by decide) (by decide +kernel) (by decide +kernel) ?_
  simp only [List.forall_mem_cons, List.not_mem_nil, false_imp_iff, implies_true, and_true]
  refine ⟨?_, ?_, ?_, ?_, h₅⟩ <;> norm_num

instance : Fact p.Prime := ⟨prime_p⟩

/-- An element of `ℤ/(2^255 - 19)`. -/
abbrev FieldElement := ZMod p

namespace FieldElement

/-- `FieldElement51::from_limbs`: five limbs in radix `2^51`. -/
def fromLimbs (l₀ l₁ l₂ l₃ l₄ : ℕ) : FieldElement :=
  ((l₀ + l₁ * 2 ^ 51 + l₂ * 2 ^ 102 + l₃ * 2 ^ 153 + l₄ * 2 ^ 204 : ℕ) : FieldElement)

/-- `from_bytes`: the low 255 bits, reduced. -/
def fromBytes (b : Bytes32) : FieldElement := ((b.toNat % 2 ^ 255 : ℕ) : FieldElement)

/-- `as_bytes`: the canonical encoding. -/
def asBytes (r : FieldElement) : Bytes32 := BitVec.ofNat 256 r.val

/-- `is_negative`: the low bit of the canonical encoding. -/
def isNegative (r : FieldElement) : Bool := r.val % 2 == 1

theorem val_lt (r : FieldElement) : r.val < p := ZMod.val_lt r

@[simp] theorem toNat_asBytes (r : FieldElement) : (asBytes r).toNat = r.val := by
  have h := val_lt r
  have hp := p_lt
  simp only [asBytes, BitVec.toNat_ofNat]
  omega

@[simp] theorem fromBytes_asBytes (r : FieldElement) : fromBytes (asBytes r) = r := by
  have h := (val_lt r).trans p_lt
  rw [fromBytes, toNat_asBytes, Nat.mod_eq_of_lt h, ZMod.natCast_zmod_val]

theorem asBytes_injective : Function.Injective asBytes :=
  Function.LeftInverse.injective fromBytes_asBytes

@[simp] theorem isNegative_zero : isNegative 0 = false := by
  simp [isNegative]

/-- Exactly one of a nonzero element and its opposite is negative. -/
theorem isNegative_neg {r : FieldElement} (h : r ≠ 0) : isNegative (-r) = !isNegative r := by
  have : NeZero r := ⟨h⟩
  have hlt := val_lt r
  have hodd : p % 2 = 1 := by decide
  rw [isNegative, isNegative, ZMod.neg_val, if_neg h]
  by_cases hr : r.val % 2 = 1
  · have : (p - r.val) % 2 ≠ 1 := by omega
    simp [hr, this]
  · have : (p - r.val) % 2 = 1 := by omega
    simp [hr, this]

/-- The nonnegative one of `r` and `-r`. -/
def abs (r : FieldElement) : FieldElement := if isNegative r then -r else r

theorem abs_sq (r : FieldElement) : abs r ^ 2 = r ^ 2 := by
  unfold abs; split <;> ring

theorem isNegative_abs (r : FieldElement) : isNegative (abs r) = false := by
  unfold abs
  split
  · next h =>
      have h0 : r ≠ 0 := by rintro rfl; simp at h
      rw [isNegative_neg h0, h]; rfl
  · next h => simpa using h

/-- Two nonnegative elements with one square are equal. -/
theorem eq_of_sq_eq_of_nonneg {r s : FieldElement} (h : r ^ 2 = s ^ 2) (hr : isNegative r = false)
    (hs : isNegative s = false) : r = s := by
  rcases sq_eq_sq_iff_eq_or_eq_neg.mp h with h | h
  · exact h
  · by_cases h0 : s = 0
    · rw [h, h0, neg_zero]
    · rw [h, isNegative_neg h0, hs] at hr
      simp at hr

/-! ### Exponentiations -/

/-- `pow2k`: `k` squarings. -/
def pow2k (r : FieldElement) : ℕ → FieldElement
  | 0 => r
  | k + 1 => pow2k (r * r) k

theorem pow2k_eq (r : FieldElement) (k : ℕ) : pow2k r k = r ^ 2 ^ k := by
  induction k generalizing r with
  | zero => simp [pow2k]
  | succ k ih => rw [pow2k, ih, ← sq, ← pow_mul, pow_succ']

/-- `pow22501`: `(r ^ (2^250 - 1), r ^ 11)`. -/
def pow22501 (r : FieldElement) : FieldElement × FieldElement :=
  let t0 := pow2k r 1
  let t1 := pow2k t0 2
  let t2 := r * t1
  let t3 := t0 * t2
  let t4 := pow2k t3 1
  let t5 := t2 * t4
  let t6 := pow2k t5 5
  let t7 := t6 * t5
  let t8 := pow2k t7 10
  let t9 := t8 * t7
  let t10 := pow2k t9 20
  let t11 := t10 * t9
  let t12 := pow2k t11 10
  let t13 := t12 * t7
  let t14 := pow2k t13 50
  let t15 := t14 * t13
  let t16 := pow2k t15 100
  let t17 := t16 * t15
  let t18 := pow2k t17 50
  let t19 := t18 * t13
  (t19, t3)

/-- `invert`, by raising to the power `p - 2`; zero goes to zero. -/
def invert (r : FieldElement) : FieldElement :=
  let (t19, t3) := pow22501 r
  pow2k t19 5 * t3

/-- `pow_p58`: `r ^ ((p - 5) / 8)`. -/
def powP58 (r : FieldElement) : FieldElement :=
  let (t19, _) := pow22501 r
  r * pow2k t19 2

theorem pow22501_eq (r : FieldElement) : pow22501 r = (r ^ (2 ^ 250 - 1), r ^ 11) := by
  simp only [pow22501, pow2k_eq, ← pow_mul, ← pow_add, ← pow_succ']
  norm_num

theorem invert_eq (r : FieldElement) : invert r = r⁻¹ := by
  have h : invert r = r ^ (p - 2) := by
    simp only [invert, pow22501_eq, pow2k_eq, ← pow_mul, ← pow_add]
    norm_num [p]
  rw [h]
  by_cases hr : r = 0
  · rw [hr, inv_zero, zero_pow (by decide)]
  · refine eq_inv_of_mul_eq_one_left ?_
    rw [← pow_succ, show p - 2 + 1 = p - 1 by decide, ZMod.pow_card_sub_one_eq_one hr]

theorem powP58_eq (r : FieldElement) : powP58 r = r ^ ((p - 5) / 8) := by
  simp only [powP58, pow22501_eq, pow2k_eq, ← pow_mul, ← pow_succ']
  norm_num [p]

/-! ### `sqrt_ratio_i` -/

/-- `constants::SQRT_M1`: the nonnegative square root of `-1`. -/
def sqrtM1 : FieldElement :=
  fromLimbs 1718705420411056 234908883556509 2233514472574048 2117202627021982 765476049583133

theorem sqrtM1_mul_self : sqrtM1 * sqrtM1 = -1 := by decide +kernel

/-- `sqrt_ratio_i(u, v)`: whether `u/v` is a square, and the nonnegative square root of `u/v` or of
`i·u/v`. -/
def sqrtRatioI (u v : FieldElement) : Bool × FieldElement :=
  let v3 := v * v * v
  let v7 := v3 * v3 * v
  let r := u * v3 * powP58 (u * v7)
  let check := v * (r * r)
  let correctSignSqrt := check == u
  let flippedSignSqrt := check == -u
  let flippedSignSqrtI := check == -u * sqrtM1
  let r := if flippedSignSqrt || flippedSignSqrtI then sqrtM1 * r else r
  (correctSignSqrt || flippedSignSqrt, abs r)

@[simp] theorem abs_zero : abs 0 = 0 := by simp [abs]

@[simp] theorem sqrtRatioI_zero_left (v : FieldElement) : sqrtRatioI 0 v = (true, 0) := by
  simp [sqrtRatioI]

theorem sqrtRatioI_zero_right {u : FieldElement} (hu : u ≠ 0) : sqrtRatioI u 0 = (false, 0) := by
  have h : (0 : FieldElement) ≠ u := hu.symm
  have h' : (0 : FieldElement) ≠ -u := fun e => hu (neg_eq_zero.mp e.symm)
  simp [sqrtRatioI, h, h']

/-- The candidate root of `sqrt_ratio_i` squares to `u/v` times a fourth root of unity. -/
theorem exists_check {u v : FieldElement} (hu : u ≠ 0) (hv : v ≠ 0) :
    ∃ ζ : FieldElement, v * ((u * (v * v * v) * powP58 (u * (v * v * v * (v * v * v) * v))) *
        (u * (v * v * v) * powP58 (u * (v * v * v * (v * v * v) * v)))) = u * ζ ∧
      (ζ = 1 ∨ ζ = -1 ∨ ζ = sqrtM1 ∨ ζ = -sqrtM1) ∧ (IsSquare (u * v) ↔ ζ ^ 2 = 1) := by
  set w := u * (v * v * v * (v * v * v) * v) with hw
  have hw0 : w ≠ 0 := by simp [hw, hu, hv]
  have h₂ : (w ^ ((p - 1) / 4)) ^ 2 = w ^ (p / 2) := by
    rw [← pow_mul, show (p - 1) / 4 * 2 = p / 2 by decide]
  refine ⟨w ^ ((p - 1) / 4), ?_, ?_, ?_⟩
  · rw [powP58_eq, show (p - 1) / 4 = (p - 5) / 8 + (p - 5) / 8 + 1 by decide, pow_succ, pow_add,
      hw]
    ring
  · have h₄ : (w ^ ((p - 1) / 4)) ^ 4 = 1 := by
      rw [← pow_mul, show (p - 1) / 4 * 4 = p - 1 by decide, ZMod.pow_card_sub_one_eq_one hw0]
    generalize w ^ ((p - 1) / 4) = ζ at h₄
    have hf : (ζ - 1) * ((ζ + 1) * ((ζ - sqrtM1) * (ζ + sqrtM1))) = 0 := by
      linear_combination h₄ - (ζ ^ 2 - 1) * sqrtM1_mul_self
    simpa [sub_eq_zero, add_eq_zero_iff_eq_neg] using hf
  · rw [h₂, ← ZMod.euler_criterion p hw0]
    have hsq : w = u * v * ((v * v * v) * (v * v * v)) := by rw [hw]; ring
    have hv6 : v * v * v ≠ 0 := by simp [hv]
    refine ⟨fun h => hsq ▸ h.mul ⟨_, rfl⟩, fun ⟨s, hs⟩ => ⟨s / (v * v * v), ?_⟩⟩
    field_simp
    linear_combination hs - hsq

/-- **`sqrt_ratio_i` on nonzero arguments, when `u/v` is a square.** -/
theorem sqrtRatioI_of_isSquare {u v : FieldElement} (hu : u ≠ 0) (hv : v ≠ 0)
    (h : IsSquare (u * v)) : (sqrtRatioI u v).1 = true ∧ v * (sqrtRatioI u v).2 ^ 2 = u ∧
      isNegative (sqrtRatioI u v).2 = false := by
  obtain ⟨ζ, hc, hζ, hsq⟩ := exists_check hu hv
  have hζ2 := hsq.mp h
  have hneg : (1 : FieldElement) ≠ -1 := by decide +kernel
  have hi : sqrtM1 ^ 2 ≠ 1 := by decide +kernel
  rcases hζ with rfl | rfl | rfl | rfl
  · have hne : u ≠ -u := fun e => hneg (mul_left_cancel₀ hu (by linear_combination e))
    have hne' : u ≠ -(u * sqrtM1) := fun e =>
      hi (mul_left_cancel₀ hu (by linear_combination (sqrtM1 - 1) * e))
    simp [sqrtRatioI, hc, hne, hne', isNegative_abs, abs_sq]
    linear_combination hc
  · simp [sqrtRatioI, hc, isNegative_abs, abs_sq]
    linear_combination sqrtM1 ^ 2 * hc - u * sqrtM1_mul_self
  · exact absurd hζ2 hi
  · exact absurd (by simpa using hζ2) hi

/-- **`sqrt_ratio_i` on nonzero arguments, when `u/v` is no square.** -/
theorem sqrtRatioI_of_not_isSquare {u v : FieldElement} (hu : u ≠ 0) (hv : v ≠ 0)
    (h : ¬ IsSquare (u * v)) : (sqrtRatioI u v).1 = false ∧
      v * (sqrtRatioI u v).2 ^ 2 = sqrtM1 * u ∧ isNegative (sqrtRatioI u v).2 = false := by
  obtain ⟨ζ, hc, hζ, hsq⟩ := exists_check hu hv
  have hi : sqrtM1 ≠ 1 ∧ sqrtM1 ≠ -1 ∧ -sqrtM1 ≠ (1 : FieldElement) ∧ sqrtM1 ≠ -sqrtM1 := by
    decide +kernel
  rcases hζ with rfl | rfl | rfl | rfl
  · exact absurd (hsq.mpr (one_pow 2)) h
  · exact absurd (hsq.mpr (by ring)) h
  · have h₁ : u * sqrtM1 ≠ -u := fun e =>
      hi.2.1 (mul_left_cancel₀ hu (by linear_combination e))
    have h₂ : u * sqrtM1 ≠ -(u * sqrtM1) := fun e =>
      hi.2.2.2 (mul_left_cancel₀ hu (by linear_combination e))
    simp [sqrtRatioI, hc, hu, hi, h₁, h₂, isNegative_abs, abs_sq]
    linear_combination hc
  · have h₁ : -(u * sqrtM1) ≠ u := fun e =>
      hi.2.2.1 (mul_left_cancel₀ hu (by linear_combination e))
    simp [sqrtRatioI, hc, hu, hi, h₁, isNegative_abs, abs_sq]
    linear_combination sqrtM1 ^ 2 * hc - u * sqrtM1 * sqrtM1_mul_self

/-- A root that `sqrt_ratio_i` vouches for is a root. -/
theorem mul_sq_of_sqrtRatioI {u v : FieldElement} (h : (sqrtRatioI u v).1 = true) :
    v * (sqrtRatioI u v).2 ^ 2 = u := by
  by_cases hu : u = 0
  · simp [hu]
  by_cases hv : v = 0
  · rw [hv, sqrtRatioI_zero_right hu] at h
    cases h
  by_cases hs : IsSquare (u * v)
  · exact (sqrtRatioI_of_isSquare hu hv hs).2.1
  · rw [(sqrtRatioI_of_not_isSquare hu hv hs).1] at h
    cases h

/-- When `u/v` has a root `x`, `sqrt_ratio_i` returns the nonnegative one of `x` and `-x`. -/
theorem sqrtRatioI_of_mul_sq {u v x : FieldElement} (hv : v ≠ 0) (h : v * x ^ 2 = u) :
    sqrtRatioI u v = (true, abs x) := by
  by_cases hu : u = 0
  · have hx : x = 0 := by simpa [hv] using h.trans hu
    rw [hu, hx, sqrtRatioI_zero_left, abs_zero]
  · obtain ⟨h₁, h₂, h₃⟩ := sqrtRatioI_of_isSquare hu hv ⟨v * x, by rw [← h]; ring⟩
    refine Prod.ext h₁ (eq_of_sq_eq_of_nonneg ?_ h₃ (isNegative_abs x))
    exact mul_left_cancel₀ hv (by rw [h₂, abs_sq, h])

end FieldElement

end MaliciousPsu
