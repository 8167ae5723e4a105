import MaliciousPsu.Edwards
import MaliciousPsu.Lib.Elligator

/-!
# Montgomery points

`montgomery.rs`.  A `MontgomeryPoint` is the encoding of an abscissa `u` of
`v² = u³ + A·u² + u`; the curve is birational to the Edwards one by `u = (1 + y)/(1 - y)`.

* `isSquare_mont_montgomeryU`: the `u` of a point is an abscissa.
* `toEdwards_asBytes`: an abscissa comes back from the point that `to_edwards` returns.
* `eq_or_eq_neg`: two points with one `u`, not `0`, are equal or opposite.
-/

namespace MaliciousPsu

open FieldElement

/-- `MontgomeryPoint`. -/
abbrev MontgomeryPoint := Bytes32

/-- `FE_A`. -/
def feA : FieldElement := fromLimbs 486662 0 0 0 0

/-- `FE_Z`. -/
def feZ : FieldElement := fromLimbs 2 0 0 0 0

theorem not_isSquare_mul {a b : FieldElement} (ha : ¬ IsSquare a) (hb : ¬ IsSquare b) :
    IsSquare (a * b) := by
  have ha₀ : a ≠ 0 := fun h => ha (h ▸ IsSquare.zero)
  have hb₀ : b ≠ 0 := fun h => hb (h ▸ IsSquare.zero)
  rw [ZMod.euler_criterion p (mul_ne_zero ha₀ hb₀), mul_pow]
  have ha' := (ZMod.pow_div_two_eq_neg_one_or_one p ha₀).resolve_left fun h =>
    ha ((ZMod.euler_criterion p ha₀).mpr h)
  have hb' := (ZMod.pow_div_two_eq_neg_one_or_one p hb₀).resolve_left fun h =>
    hb ((ZMod.euler_criterion p hb₀).mpr h)
  rw [ha', hb', neg_mul_neg, one_mul]

/-- `A - 2 = 486660` is no square. -/
theorem not_isSquare_feA_sub_two : ¬ IsSquare (feA - 2) :=
  not_isSquare_of_powMod (a := 486660) (by decide) (by decide +kernel) (by decide +kernel)

/-- The abscissa map of `mapping.rs`. -/
def curve25519 : Elligator FieldElement where
  A := feA
  Z := feZ
  A_ne := by decide +kernel
  not_isSquare_Z := not_isSquare_of_powMod (a := 2) (by decide) (by decide +kernel)
    (by decide +kernel)
  isSquare_neg_one := ⟨sqrtM1, sqrtM1_mul_self.symm⟩
  not_isSquare_disc := not_isSquare_of_powMod (a := 486662 ^ 2 - 4) (by decide) (by decide +kernel)
    (by decide +kernel)
  isSquare_mul := not_isSquare_mul

/-- A square root of `-(A + 2)`, the ratio of the two curves. -/
def sqrtNegAPlusTwo : FieldElement :=
  (6853475219497561581579357271197624642482790079785650197046958215289687604742 : ℕ)

theorem sqrtNegAPlusTwo_sq : sqrtNegAPlusTwo ^ 2 = -(feA + 2) := by decide +kernel

theorem edwardsD_feA : (feA + 2) * (edwardsD + 1) = 4 := by decide +kernel

theorem feA_add_two_ne : feA + 2 ≠ 0 := by decide +kernel

theorem two_ne : (2 : FieldElement) ≠ 0 := by decide +kernel

/-! ### The birational map -/

/-- `(1 + y)/(1 - y)`, which is `0` at the identity. -/
def montgomeryU (P : EdwardsPoint) : FieldElement := (1 + P.y) / (1 - P.y)

/-- `to_montgomery`. -/
def toMontgomery (P : EdwardsPoint) : MontgomeryPoint := asBytes ((1 + P.y) * invert (1 - P.y))

/-- `to_edwards`. -/
def toEdwards (m : MontgomeryPoint) (sign : UInt8) : Option EdwardsPoint :=
  let u := fromBytes m
  if u = -1 then none
  else
    let y := (u - 1) * invert (u + 1)
    EdwardsPoint.decompress (asBytes y ^^^ (BitVec.ofNat 256 (sign.toNat % 2) <<< 255))

theorem toMontgomery_eq (P : EdwardsPoint) : toMontgomery P = asBytes (montgomeryU P) := by
  rw [toMontgomery, invert_eq, montgomeryU, div_eq_mul_inv]

/-- The `u` of a point, on the Montgomery curve. -/
theorem mont_montgomeryU (P : EdwardsPoint) :
    curve25519.mont (montgomeryU P) * P.x ^ 2 = -(feA + 2) * montgomeryU P ^ 2 := by
  have hcurve : P.x ^ 2 * (edwardsD * P.y ^ 2 + 1) = P.y ^ 2 - 1 := by
    have h := P.on_curve
    simp only [ed25519] at h
    linear_combination -h
  by_cases hy : 1 - P.y = 0
  · simp [montgomeryU, hy, Elligator.mont]
  · rw [Elligator.mont, show curve25519.A = feA from rfl, montgomeryU]
    field_simp
    linear_combination (1 + P.y) * (feA + 2) * hcurve - (1 + P.y) * P.x ^ 2 * P.y ^ 2 * edwardsD_feA

theorem isSquare_mont_montgomeryU (P : EdwardsPoint) :
    IsSquare (curve25519.mont (montgomeryU P)) := by
  have h := mont_montgomeryU P
  by_cases hx : P.x = 0
  · have hu : montgomeryU P = 0 := by
      rw [hx] at h
      have h₀ : (feA + 2) * montgomeryU P ^ 2 = 0 := by linear_combination h
      simpa [feA_add_two_ne] using h₀
    simp [hu, Elligator.mont]
  · refine ⟨sqrtNegAPlusTwo * montgomeryU P / P.x, ?_⟩
    field_simp
    linear_combination h - montgomeryU P ^ 2 * sqrtNegAPlusTwo_sq

/-- An abscissa has a point above it. -/
theorem exists_point {u : FieldElement} (hu : u ≠ -1) (hsq : IsSquare (curve25519.mont u)) :
    ∃ P : EdwardsPoint, P.y = (u - 1) / (u + 1) := by
  have hu' : u + 1 ≠ 0 := fun h => hu (eq_neg_of_add_eq_zero_left h)
  obtain ⟨s, hs⟩ := hsq
  by_cases h₀ : u = 0
  · exact ⟨⟨0, -1, by simp [ed25519]⟩, by simp [h₀]⟩
  · have hs₀ : s ≠ 0 := by
      rintro rfl
      rw [zero_mul, Elligator.mont_eq_zero_iff] at hs
      exact h₀ hs
    refine ⟨⟨sqrtNegAPlusTwo * u / s, (u - 1) / (u + 1), ?_⟩, rfl⟩
    rw [Elligator.mont, show curve25519.A = feA from rfl] at hs
    simp only [ed25519]
    field_simp
    linear_combination 4 * u * hs
      - (u ^ 2 * (u + 1) ^ 2 + u ^ 2 * (u - 1) ^ 2 * edwardsD) * sqrtNegAPlusTwo_sq
      + u ^ 2 * (u - 1) ^ 2 * edwardsD_feA

theorem montgomeryU_of_y {P : EdwardsPoint} {u : FieldElement} (hu : u ≠ -1)
    (h : P.y = (u - 1) / (u + 1)) : montgomeryU P = u := by
  have hu' : u + 1 ≠ 0 := fun h => hu (eq_neg_of_add_eq_zero_left h)
  have hnum : 1 + P.y = 2 * u / (u + 1) := by
    rw [h]
    field_simp
    ring
  have hden : 1 - P.y = 2 / (u + 1) := by
    rw [h]
    field_simp
    ring
  have h2 := two_ne
  rw [montgomeryU, hnum, hden]
  field_simp

/-- **An abscissa other than `-1` comes back from its point.** -/
theorem toEdwards_asBytes {u : FieldElement} (hu : u ≠ -1) (hsq : IsSquare (curve25519.mont u)) :
    ∃ P, toEdwards (asBytes u) 0 = some P ∧ montgomeryU P = u := by
  obtain ⟨Q, hQ⟩ := exists_point hu hsq
  have hy : fromBytes (asBytes ((u - 1) * invert (u + 1))) = Q.y := by
    rw [fromBytes_asBytes, invert_eq, hQ, div_eq_mul_inv]
  obtain ⟨P, hP, hPy, -⟩ := EdwardsPoint.decompress_of_fromBytes hy
  refine ⟨P, ?_, montgomeryU_of_y hu (hPy.trans hQ)⟩
  rw [toEdwards, fromBytes_asBytes, if_neg hu]
  simpa using hP

/-- **Two points with one `u`**, not `0`, are equal or opposite. -/
theorem eq_or_eq_neg {P Q : EdwardsPoint} (h : montgomeryU P = montgomeryU Q)
    (h₀ : montgomeryU Q ≠ 0) : P = Q ∨ P = -Q := by
  have hP : 1 - P.y ≠ 0 := fun e => h₀ (by rw [← h, montgomeryU, e, div_zero])
  have hQ : 1 - Q.y ≠ 0 := fun e => h₀ (by rw [montgomeryU, e, div_zero])
  have hy : P.y = Q.y := by
    rw [montgomeryU, montgomeryU, div_eq_div_iff hP hQ] at h
    refine mul_left_cancel₀ two_ne ?_
    linear_combination h
  have hx : P.x ^ 2 = Q.x ^ 2 := by
    have hden := EdwardsPoint.den_ne_zero P.y
    have h₁ := P.on_curve
    have h₂ := Q.on_curve
    simp only [ed25519] at h₁ h₂
    rw [← hy] at h₂
    refine mul_left_cancel₀ hden ?_
    linear_combination h₂ - h₁
  rcases sq_eq_sq_iff_eq_or_eq_neg.mp hx with hx | hx
  · exact Or.inl (EdwardsPoint.eq_iff.mpr ⟨hx, hy⟩)
  · exact Or.inr (EdwardsPoint.eq_iff.mpr ⟨hx, hy⟩)

end MaliciousPsu
