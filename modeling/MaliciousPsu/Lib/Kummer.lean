import MaliciousPsu.Lib.Edwards

/-!
# Ordinates without signs

A point of `-x² + y² = 1 + d·x²·y²` and its opposite have one ordinate `y`.  As a ratio
`u : w = 1 + y : 1 - y` it is defined at every point, and the ratios of `P`, `Q` and `Q - P`
determine those of `P + P` and of `P + Q`.

* `Ratio.double`: the ratio of `P + P`, at every point.
* `Ratio.add`: the ratio of `P + Q`, when `Q - P` has neither ordinate `1` nor `-1`.
-/

namespace TwistedEdwards

variable {F : Type*} [Field F] {C : TwistedEdwards F}

theorem one_add_d_ne : 1 + C.d ≠ 0 := fun h =>
  C.mul_self_ne_d C.i (by linear_combination C.i_mul_i - h)

namespace Point

/-- The denominator of `x² = (y² - 1)/(1 + d·y²)`. -/
theorem one_add_d_mul_ne (P : C.Point) : 1 + C.d * P.y ^ 2 ≠ 0 := by
  intro h
  have hy : P.y ^ 2 = 1 := by linear_combination P.on_curve + P.x ^ 2 * h
  rw [hy, mul_one] at h
  exact one_add_d_ne h

theorem sq_x_mul (P : C.Point) : P.x ^ 2 * (1 + C.d * P.y ^ 2) = P.y ^ 2 - 1 := by
  linear_combination -P.on_curve

/-- The ordinate of a double. -/
theorem double_y (P : C.Point) : P.y ^ 2 * (1 + C.d) * (1 - (P + P).y) =
    (1 - P.y ^ 2) * (1 + C.d * P.y ^ 2) * (1 + (P + P).y) := by
  have hden := (cross_ne P P).2
  have hx := sq_x_mul P
  have hy := add_y_mul P P
  simp only [cross] at hden hy
  have hsub : (1 - C.d * P.x * P.x * P.y * P.y) * (1 - (P + P).y) * (1 + C.d * P.y ^ 2) =
      2 * (1 - P.y ^ 2) * (1 + C.d * P.y ^ 2) := by
    linear_combination -(1 + C.d * P.y ^ 2) * hy - (C.d * P.y ^ 2 + 1) * hx
  have hadd : (1 - C.d * P.x * P.x * P.y * P.y) * (1 + (P + P).y) * (1 + C.d * P.y ^ 2) =
      2 * P.y ^ 2 * (1 + C.d) := by
    linear_combination (1 + C.d * P.y ^ 2) * hy + (1 - C.d * P.y ^ 2) * hx
  refine mul_right_cancel₀ (mul_ne_zero hden (one_add_d_mul_ne P)) ?_
  linear_combination P.y ^ 2 * (1 + C.d) * hsub -
    (1 - P.y ^ 2) * (1 + C.d * P.y ^ 2) * hadd

/-- **The ordinates of a sum and of a difference.** -/
theorem add_y_sub_y (P Q : C.Point) :
    (1 - (P + Q).y) * (1 - (Q - P).y) * (P.y + Q.y) ^ 2 =
      (1 + (P + Q).y) * (1 + (Q - P).y) * (Q.y - P.y) ^ 2 := by
  obtain ⟨hplus, hminus⟩ := cross_ne P Q
  have hs := add_y_mul P Q
  have hd := add_y_mul Q (-P)
  rw [← sub_eq_add_neg] at hd
  simp only [cross, neg_x, neg_y] at hplus hminus hs hd
  have hX : P.x ^ 2 * Q.x ^ 2 * ((1 + C.d * P.y ^ 2) * (1 + C.d * Q.y ^ 2)) =
      (P.y ^ 2 - 1) * (Q.y ^ 2 - 1) := by
    rw [← sq_x_mul P, ← sq_x_mul Q]
    ring
  -- `1 ∓ y` for both, over the common denominator
  have hsub : (1 - (P + Q).y) * (1 - (Q - P).y) *
      ((1 + C.d * P.x * Q.x * P.y * Q.y) * (1 - C.d * P.x * Q.x * P.y * Q.y) *
        ((1 + C.d * P.y ^ 2) * (1 + C.d * Q.y ^ 2))) =
      (Q.y - P.y) ^ 2 * ((1 + C.d) * (1 + C.d * P.y ^ 2 * Q.y ^ 2)) := by
    linear_combination
      -(1 + C.d * P.y ^ 2) * (1 + C.d * Q.y ^ 2) * (1 - (Q - P).y) *
        (1 + C.d * P.x * Q.x * P.y * Q.y) * hs
      - (1 + C.d * P.y ^ 2) * (1 + C.d * Q.y ^ 2) *
        (1 - C.d * P.x * Q.x * P.y * Q.y - P.y * Q.y - P.x * Q.x) * hd
      - (1 + C.d * P.y * Q.y) ^ 2 * hX
  have hadd : (1 + (P + Q).y) * (1 + (Q - P).y) *
      ((1 + C.d * P.x * Q.x * P.y * Q.y) * (1 - C.d * P.x * Q.x * P.y * Q.y) *
        ((1 + C.d * P.y ^ 2) * (1 + C.d * Q.y ^ 2))) =
      (P.y + Q.y) ^ 2 * ((1 + C.d) * (1 + C.d * P.y ^ 2 * Q.y ^ 2)) := by
    linear_combination
      (1 + C.d * P.y ^ 2) * (1 + C.d * Q.y ^ 2) * (1 + (Q - P).y) *
        (1 + C.d * P.x * Q.x * P.y * Q.y) * hs
      + (1 + C.d * P.y ^ 2) * (1 + C.d * Q.y ^ 2) *
        (1 - C.d * P.x * Q.x * P.y * Q.y + P.y * Q.y + P.x * Q.x) * hd
      - (1 - C.d * P.y * Q.y) ^ 2 * hX
  refine mul_right_cancel₀ (mul_ne_zero (mul_ne_zero hplus hminus)
    (mul_ne_zero (one_add_d_mul_ne P) (one_add_d_mul_ne Q))) ?_
  linear_combination (P.y + Q.y) ^ 2 * hsub - (Q.y - P.y) ^ 2 * hadd

/-- `u : w` is the ratio `1 + y : 1 - y` of the point. -/
def Ratio (P : C.Point) (u w : F) : Prop := ∃ t ≠ 0, u = t * (1 + P.y) ∧ w = t * (1 - P.y)

theorem ratio_of_mul {P : C.Point} {u w : F} (hne : u ≠ 0 ∨ w ≠ 0)
    (h : u * (1 - P.y) = w * (1 + P.y)) : Ratio P u w := by
  have h₂ := C.two_ne
  refine ⟨(u + w) / 2, fun hzero => ?_, ?_, ?_⟩
  · have hsum : u + w = 0 := by simpa [h₂] using hzero
    have hu : u = 0 := by
      have : 2 * u = 0 := by linear_combination h + (1 + P.y) * hsum
      simpa [h₂] using this
    exact hne.elim (fun h => h hu) fun h => h (by linear_combination hsum - hu)
  · field_simp
    linear_combination h
  · field_simp
    linear_combination -h

/-- **The ratio of a double.** -/
theorem Ratio.double {P : C.Point} {u w c : F} (h : Ratio P u w) (hc : c * (1 + C.d) = 1) :
    Ratio (P + P) ((u + w) ^ 2 * (u - w) ^ 2)
      (((u + w) ^ 2 - (u - w) ^ 2) * (c * ((u + w) ^ 2 - (u - w) ^ 2) + (u - w) ^ 2)) := by
  obtain ⟨t, ht, rfl, rfl⟩ := h
  have h₂ := C.two_ne
  have hc₀ : c ≠ 0 := by
    rintro rfl
    simp at hc
  refine ratio_of_mul ?_ ?_
  · by_cases hy : P.y = 0
    · right
      have hw : ((t * (1 + P.y) + t * (1 - P.y)) ^ 2 - (t * (1 + P.y) - t * (1 - P.y)) ^ 2) *
          (c * ((t * (1 + P.y) + t * (1 - P.y)) ^ 2 - (t * (1 + P.y) - t * (1 - P.y)) ^ 2) +
            (t * (1 + P.y) - t * (1 - P.y)) ^ 2) = (2 * t) ^ 4 * c := by
        rw [hy]
        ring
      rw [hw]
      exact mul_ne_zero (pow_ne_zero 4 (mul_ne_zero h₂ ht)) hc₀
    · left
      have hu : (t * (1 + P.y) + t * (1 - P.y)) ^ 2 * (t * (1 + P.y) - t * (1 - P.y)) ^ 2 =
          (2 * t) ^ 4 * P.y ^ 2 := by ring
      rw [hu]
      exact mul_ne_zero (pow_ne_zero 4 (mul_ne_zero h₂ ht)) (pow_ne_zero 2 hy)
  · refine mul_right_cancel₀ (one_add_d_ne (C := C)) ?_
    linear_combination 16 * t ^ 4 * double_y P -
      16 * t ^ 4 * (1 - P.y ^ 2) * (1 - P.y ^ 2) * (1 + (P + P).y) * hc

/-- **The ratio of a sum**, from the quotient `v` of the ratio of the difference. -/
theorem Ratio.add {P Q : C.Point} {u₁ w₁ u₂ w₂ v : F} (h₁ : Ratio P u₁ w₁) (h₂ : Ratio Q u₂ w₂)
    (hv : v ≠ 0) (hden : 1 - (Q - P).y ≠ 0) (hD : 1 + (Q - P).y = v * (1 - (Q - P).y)) :
    Ratio (P + Q) (((u₁ + w₁) * (u₂ - w₂) + (u₁ - w₁) * (u₂ + w₂)) ^ 2)
      (v * ((u₁ + w₁) * (u₂ - w₂) - (u₁ - w₁) * (u₂ + w₂)) ^ 2) := by
  obtain ⟨t, ht, rfl, rfl⟩ := h₁
  obtain ⟨s, hs, rfl, rfl⟩ := h₂
  have h₂ := C.two_ne
  have hu : (t * (1 + P.y) + t * (1 - P.y)) * (s * (1 + Q.y) - s * (1 - Q.y)) +
      (t * (1 + P.y) - t * (1 - P.y)) * (s * (1 + Q.y) + s * (1 - Q.y)) =
      2 * 2 * t * s * (P.y + Q.y) := by ring
  have hw : (t * (1 + P.y) + t * (1 - P.y)) * (s * (1 + Q.y) - s * (1 - Q.y)) -
      (t * (1 + P.y) - t * (1 - P.y)) * (s * (1 + Q.y) + s * (1 - Q.y)) =
      2 * 2 * t * s * (Q.y - P.y) := by ring
  have hts : 2 * 2 * t * s ≠ 0 := mul_ne_zero (mul_ne_zero (mul_ne_zero h₂ h₂) ht) hs
  rw [hu, hw]
  refine ratio_of_mul ?_ ?_
  · by_contra hzero
    rw [not_or, not_not, not_not] at hzero
    have hsum : P.y + Q.y = 0 :=
      (mul_eq_zero.mp (pow_eq_zero_iff two_ne_zero |>.mp hzero.1)).resolve_left hts
    have hdiff : Q.y - P.y = 0 :=
      (mul_eq_zero.mp (pow_eq_zero_iff two_ne_zero |>.mp
        ((mul_eq_zero.mp hzero.2).resolve_left hv))).resolve_left hts
    -- both ordinates vanish, and the difference has ordinate `1` or `-1`
    have hQ : Q.y = 0 := by
      have h : 2 * Q.y = 0 := by linear_combination hsum + hdiff
      exact (mul_eq_zero.mp h).resolve_left h₂
    have hP : P.y = 0 := by linear_combination hsum - hQ
    have hy : (Q - P).y = -(Q.x * P.x) := by
      have h := add_y_mul Q (-P)
      rw [← sub_eq_add_neg] at h
      simp only [cross, neg_x, neg_y, hP, hQ] at h
      linear_combination h
    have hsq : (1 + (Q - P).y) * (1 - (Q - P).y) = 0 := by
      have hPx := sq_x_mul P
      have hQx := sq_x_mul Q
      rw [hP] at hPx
      rw [hQ] at hQx
      rw [hy]
      linear_combination -(Q.x ^ 2) * hPx + hQx
    rw [hD] at hsq
    exact mul_ne_zero (mul_ne_zero hv hden) hden hsq
  · refine mul_right_cancel₀ hden ?_
    linear_combination (2 * 2 * t * s) ^ 2 * add_y_sub_y P Q +
      (2 * 2 * t * s) ^ 2 * (Q.y - P.y) ^ 2 * (1 + (P + Q).y) * hD

end Point

end TwistedEdwards
