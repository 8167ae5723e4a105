import Mathlib.Algebra.BigOperators.Pi
import Mathlib.Algebra.Module.BigOperators
import Mathlib.Data.Fintype.BigOperators
import Mathlib.Data.Set.Card
import Mathlib.LinearAlgebra.Pi

/-!
# Counting the solutions of one linear equation

Over a finite field, a linear equation in a vector of coefficients that is not trivially true holds
for at most one vector in `|K|`.

* `card_mul_ncard_le`: the vectors `a` with `Σ aᵢ·vᵢ = w`, when some `vᵢ` does not vanish.
* `card_mul_ncard_le_of_ne_zero`: the same when `w` does not vanish, whatever the `vᵢ` are.
-/

section Hyperplane

variable {K V ι : Type*} [Field K] [AddCommGroup V] [Module K V] [Fintype ι] [DecidableEq ι]

/-- Moving one coefficient moves the combination. -/
theorem sum_add_single_smul (a : ι → K) (v : ι → V) (j : ι) (t : K) :
    ∑ i, (a + Pi.single j t : ι → K) i • v i = ∑ i, a i • v i + t • v j := by
  simp [add_smul, Finset.sum_add_distrib, Pi.single_apply]

variable [Fintype K]

theorem card_mul_ncard_le {v : ι → V} {j : ι} (hj : v j ≠ 0) (w : V) :
    Fintype.card K * {a : ι → K | ∑ i, a i • v i = w}.ncard ≤
      Fintype.card K ^ Fintype.card ι := by
  set S := {a : ι → K | ∑ i, a i • v i = w}
  have hinj : Function.Injective fun p : K × S => (p.2 : ι → K) + Pi.single j p.1 := by
    rintro ⟨t, a, ha⟩ ⟨t', a', ha'⟩ h
    simp only at h
    have hw : w + t • v j = w + t' • v j := by
      have ht := sum_add_single_smul a v j t
      have ht' := sum_add_single_smul a' v j t'
      rw [show ∑ i, a i • v i = w from ha] at ht
      rw [show ∑ i, a' i • v i = w from ha'] at ht'
      rw [← ht, ← ht', h]
    have ht : t = t' := by
      by_contra hne
      have h₀ : (t - t') • v j = 0 := by rw [sub_smul, sub_eq_zero]; exact add_left_cancel hw
      exact (smul_ne_zero (sub_ne_zero.mpr hne) hj) h₀
    subst ht
    simpa using h
  have hcard := Nat.card_le_card_of_injective _ hinj
  rw [Nat.card_prod, Nat.card_eq_fintype_card, Nat.card_coe_set_eq, Nat.card_eq_fintype_card,
    Fintype.card_fun] at hcard
  exact hcard

theorem card_mul_ncard_le_of_ne_zero {v : ι → V} {w : V} (hw : w ≠ 0) :
    Fintype.card K * {a : ι → K | ∑ i, a i • v i = w}.ncard ≤
      Fintype.card K ^ Fintype.card ι := by
  by_cases h : ∃ j, v j ≠ 0
  · obtain ⟨j, hj⟩ := h
    exact card_mul_ncard_le hj w
  · rw [not_exists] at h
    simp only [not_not] at h
    have hempty : {a : ι → K | ∑ i, a i • v i = w} = ∅ := by
      ext a
      simp [h, hw.symm]
    simp [hempty]

end Hyperplane
