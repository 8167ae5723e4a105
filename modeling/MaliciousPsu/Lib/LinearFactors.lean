import Mathlib.LinearAlgebra.AffineSpace.FiniteDimensional
import Mathlib.LinearAlgebra.Lagrange
import Mathlib.LinearAlgebra.Pi
import Mathlib.Tactic.LinearCombination

/-!
# Products of linear factors, and values at enough points

What equality at finitely many points says about products of linear factors, about pairs read
through a moving combination, and about a linear combination of vectors.

* `prod_sub_eq`: two products of `n` linear factors that agree at `n` points agree everywhere.
* `exists_factor`: then every root of one is a root of the other.
* `eq_of_moving`: pairs that are told apart only through `u + δ·v`, at more values of `δ` than there
  are candidates, are among the candidates.
* `eq_zero_of_affineIndependent`: a linear combination that takes one value on `n + 1` affinely
  independent coefficient vectors has no coefficient.
-/

open Polynomial

section Factors

variable {K : Type*} [Field K] {n : ℕ}

/-- **Products that agree at `n` points.** -/
theorem prod_sub_eq {a b : Fin n → K} {x : Fin n → K} (hx : Function.Injective x)
    (h : ∀ k, ∏ i, (a i - x k) = ∏ i, (b i - x k)) (t : K) :
    ∏ i, (a i - t) = ∏ i, (b i - t) := by
  classical
  have hneg : ∀ (c : Fin n → K) (t : K),
      (∏ i, (X - C (c i))).eval t = (-1) ^ n * ∏ i, (c i - t) := fun c t => by
    rw [eval_prod]
    have hc : ∀ i, (X - C (c i)).eval t = -1 * (c i - t) := fun i => by simp
    simp only [hc, Finset.prod_mul_distrib, Finset.prod_const, Finset.card_univ, Fintype.card_fin]
  have hmonic : ∀ c : Fin n → K, (∏ i, (X - C (c i))).Monic := fun c =>
    monic_prod_of_monic _ _ fun i _ => monic_X_sub_C (c i)
  have hdeg : ∀ c : Fin n → K, (∏ i, (X - C (c i))).degree = (n : WithBot ℕ) := fun c => by
    rw [degree_prod]
    simp only [degree_X_sub_C, Finset.sum_const, Finset.card_univ, Fintype.card_fin, nsmul_one]
  have heq : ∏ i, (X - C (a i)) = ∏ i, (X - C (b i)) := by
    refine eq_of_degree_sub_lt_of_eval_finset_eq (Finset.univ.image x) ?_ ?_
    · rw [Finset.card_image_of_injective _ hx, Finset.card_univ, Fintype.card_fin, ← hdeg a]
      refine degree_sub_lt_left ((hdeg a).trans (hdeg b).symm) (hmonic a).ne_zero ?_
      rw [(hmonic a).leadingCoeff, (hmonic b).leadingCoeff]
    · intro y hy
      obtain ⟨k, -, rfl⟩ := Finset.mem_image.mp hy
      rw [hneg, hneg, h k]
  have ht := congrArg (eval t) heq
  rw [hneg, hneg] at ht
  exact mul_left_cancel₀ (pow_ne_zero n (neg_ne_zero.mpr one_ne_zero)) ht

theorem exists_factor {a b : Fin n → K} (h : ∀ t, ∏ i, (a i - t) = ∏ i, (b i - t)) (j : Fin n) :
    ∃ i, a i = b j := by
  have h₀ : ∏ i, (a i - b j) = 0 := by
    rw [h, Finset.prod_eq_zero (Finset.mem_univ j) (sub_self _)]
  obtain ⟨i, -, hi⟩ := Finset.prod_eq_zero_iff.mp h₀
  exact ⟨i, sub_eq_zero.mp hi⟩

/-- **Pairs read through `u + δ·v`.**  One candidate has to answer for two values of `δ`. -/
theorem eq_of_moving {δ : Fin (n + 1) → K} (hδ : Function.Injective δ) {u v : K}
    {u' v' : Fin n → K} (h : ∀ b, ∃ i, u + δ b * v = u' i + δ b * v' i) :
    ∃ i, u = u' i ∧ v = v' i := by
  choose σ hσ using h
  obtain ⟨b, b', hne, hi⟩ := Fintype.exists_ne_map_eq_of_card_lt σ (by simp)
  have h₁ := hσ b
  have h₂ := hσ b'
  rw [← hi] at h₂
  have hv : (δ b - δ b') * (v - v' (σ b)) = 0 := by linear_combination h₁ - h₂
  have hv' : v = v' (σ b) := by
    rcases mul_eq_zero.mp hv with h | h
    · exact absurd (hδ (sub_eq_zero.mp h)) hne
    · exact sub_eq_zero.mp h
  refine ⟨σ b, ?_, hv'⟩
  rw [hv'] at h₁
  exact add_right_cancel h₁

end Factors

section Affine

variable {K V : Type*} [Field K] [AddCommGroup V] [Module K V] {n : ℕ}

/-- **A combination that is constant on `n + 1` affinely independent vectors.** -/
theorem eq_zero_of_affineIndependent {z : Fin (n + 1) → Fin n → K} (hz : AffineIndependent K z)
    {w : Fin n → V} {c : V} (h : ∀ a, ∑ i, z a i • w i = c) (i : Fin n) : w i = 0 := by
  let L : (Fin n → K) →ₗ[K] V := Fintype.linearCombination K w
  have hL : ∀ t, L t = ∑ i, t i • w i := fun t => Fintype.linearCombination_apply K w t
  have hspan : Submodule.span K
      (Set.range fun a : {a // a ≠ (0 : Fin (n + 1))} => z a - z 0) = ⊤ := by
    have hli := (affineIndependent_iff_linearIndependent_vsub K z 0).mp hz
    refine hli.span_eq_top_of_card_eq_finrank' ?_
    simp
  have hzero : L = 0 := by
    refine LinearMap.ext_on_range hspan fun a => ?_
    rw [map_sub, hL, hL, h, h, sub_self, LinearMap.zero_apply]
  have hi := LinearMap.congr_fun hzero (Pi.single i 1)
  rw [hL] at hi
  simpa [Pi.single_apply] using hi

end Affine
