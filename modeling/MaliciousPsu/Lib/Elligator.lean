import Mathlib.Algebra.Field.Basic
import Mathlib.Algebra.Group.Even
import Mathlib.Algebra.Ring.Parity
import Mathlib.Tactic.FieldSimp
import Mathlib.Tactic.LinearCombination
import Mathlib.Tactic.Ring

/-!
# The Elligator 2 map

From a field to the abscissas of a Montgomery curve `v² = u³ + A·u² + u`, over any field in which
`-1` is a square and the product of two non-squares is one.

* `Elligator.isSquare_mont_map`: every value is the abscissa of a point of the curve.
* `Elligator.map_eq_iff`: the preimages of `u` are the roots of `-Z·u·r² = u + A` and of
  `-Z·(u + A)·r² = u`.
-/

/-- A Montgomery curve and a non-square `Z` that the map is defined by. -/
structure Elligator (F : Type*) [Field F] where
  A : F
  Z : F
  A_ne : A ≠ 0
  not_isSquare_Z : ¬ IsSquare Z
  isSquare_neg_one : IsSquare (-1 : F)
  not_isSquare_disc : ¬ IsSquare (A ^ 2 - 4)
  isSquare_mul : ∀ {a b : F}, ¬ IsSquare a → ¬ IsSquare b → IsSquare (a * b)

namespace Elligator

variable {F : Type*} [Field F] (E : Elligator F)

/-- The right-hand side of the curve. -/
def mont (u : F) : F := u ^ 3 + E.A * u ^ 2 + u

/-- The denominator of the first candidate. -/
def den (r : F) : F := 1 + E.Z * r ^ 2

/-- The first candidate. -/
def first (r : F) : F := -E.A / E.den r

open Classical in
/-- The map: the first candidate `w` when it is an abscissa, and `-w - A` when it is not. -/
noncomputable def map (r : F) : F :=
  if IsSquare (E.mont (E.first r)) then E.first r else -E.first r - E.A

theorem Z_ne : E.Z ≠ 0 := fun h => E.not_isSquare_Z (h ▸ IsSquare.zero)

variable {E} {r u : F}

theorem not_isSquare_mul_sq {a b : F} (ha : ¬ IsSquare a) (hb : b ≠ 0) :
    ¬ IsSquare (a * b ^ 2) := by
  rintro ⟨c, hc⟩
  refine ha ⟨c / b, ?_⟩
  field_simp
  linear_combination hc

theorem den_ne_zero : E.den r ≠ 0 := by
  intro h
  have hr : r ≠ 0 := by
    rintro rfl
    simp [den] at h
  obtain ⟨i, hi⟩ := E.isSquare_neg_one
  refine E.not_isSquare_Z ⟨i / r, ?_⟩
  rw [den] at h
  field_simp
  linear_combination h + hi

theorem first_mul_den : E.first r * E.den r = -E.A := div_mul_cancel₀ _ den_ne_zero

theorem first_ne_zero : E.first r ≠ 0 := div_ne_zero (neg_ne_zero.mpr E.A_ne) den_ne_zero

theorem mont_eq_zero_iff : E.mont u = 0 ↔ u = 0 := by
  refine ⟨fun h => ?_, fun h => by simp [mont, h]⟩
  by_contra hu
  refine E.not_isSquare_disc ⟨2 * u + E.A, ?_⟩
  have h₀ : u ^ 2 + E.A * u + 1 = 0 := by
    refine mul_left_cancel₀ hu ?_
    rw [mont] at h
    linear_combination h
  linear_combination -4 * h₀

/-- The second candidate is `Z·r²` times the first. -/
theorem second_eq : -E.first r - E.A = E.first r * (E.Z * r ^ 2) := by
  have h := first_mul_den (E := E) (r := r)
  rw [den] at h
  linear_combination -h

/-- The values of the curve at the two candidates differ by the non-square `Z·r²`. -/
theorem mont_second : E.mont (-E.first r - E.A) = E.Z * r ^ 2 * E.mont (E.first r) := by
  have h := second_eq (E := E) (r := r)
  rw [mont, mont]
  linear_combination (E.first r ^ 2 + E.A * E.first r + 1) * h

/-- **Every value is the abscissa of a point.** -/
theorem isSquare_mont_map : IsSquare (E.mont (E.map r)) := by
  rw [map]
  split
  · assumption
  · rename_i h
    rw [mont_second]
    by_cases hr : r = 0
    · simp [hr]
    · exact E.isSquare_mul (not_isSquare_mul_sq E.not_isSquare_Z hr) h

/-- An abscissa `u` with the first candidate for a preimage. -/
theorem map_of_first (hsq : IsSquare (E.mont u)) (h : -(E.Z * u) * r ^ 2 = u + E.A) :
    E.map r = u := by
  have hfirst : E.first r = u := by
    rw [first, div_eq_iff den_ne_zero, den]
    linear_combination h
  rw [map, hfirst, if_pos hsq]

/-- An abscissa `u` with the second candidate for a preimage. -/
theorem map_of_second (hu : u ≠ 0) (hsq : IsSquare (E.mont u))
    (h : -(E.Z * (u + E.A)) * r ^ 2 = u) : E.map r = u := by
  have hfirst : E.first r = -(u + E.A) := by
    rw [first, div_eq_iff den_ne_zero, den]
    linear_combination -h
  have hr : r ≠ 0 := by
    rintro rfl
    exact hu (by linear_combination -h)
  have hsecond : -E.first r - E.A = u := by
    rw [hfirst]
    ring
  have hm := mont_second (E := E) (r := r)
  rw [hsecond] at hm
  have hfalse : ¬ IsSquare (E.mont (E.first r)) := by
    intro hw
    obtain ⟨c, hc⟩ := hsq
    obtain ⟨b, hb⟩ := hw
    have hb₀ : b ≠ 0 := by
      rintro rfl
      rw [zero_mul, mont_eq_zero_iff] at hb
      exact first_ne_zero hb
    refine E.not_isSquare_Z ⟨c / (b * r), ?_⟩
    field_simp
    linear_combination hc - hm - E.Z * r ^ 2 * hb
  rw [map, if_neg hfalse, hsecond]

/-- **The preimages of an abscissa.** -/
theorem map_eq_iff (hu : u ≠ 0) : E.map r = u ↔ IsSquare (E.mont u) ∧
    (-(E.Z * u) * r ^ 2 = u + E.A ∨ -(E.Z * (u + E.A)) * r ^ 2 = u) := by
  constructor
  · rintro rfl
    refine ⟨isSquare_mont_map, ?_⟩
    have hw := first_mul_den (E := E) (r := r)
    rw [den] at hw
    rw [map]
    split
    · left
      linear_combination -hw
    · right
      linear_combination hw
  · rintro ⟨hsq, h | h⟩
    · exact map_of_first hsq h
    · exact map_of_second hu hsq h

theorem map_ne_zero (hr : r ≠ 0) : E.map r ≠ 0 := by
  rw [map]
  split
  · exact first_ne_zero
  · rw [second_eq]
    exact mul_ne_zero first_ne_zero (mul_ne_zero E.Z_ne (pow_ne_zero 2 hr))

theorem map_ne_neg_A (hr : r ≠ 0) : E.map r ≠ -E.A := by
  rw [map]
  split
  · intro h
    have hw := first_mul_den (E := E) (r := r)
    rw [h, den] at hw
    have h₀ : E.A * (E.Z * r ^ 2) = 0 := by linear_combination -hw
    exact mul_ne_zero E.A_ne (mul_ne_zero E.Z_ne (pow_ne_zero 2 hr)) h₀
  · intro h
    exact first_ne_zero (by linear_combination -h)

end Elligator
