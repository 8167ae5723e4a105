import Mathlib.Algebra.BigOperators.Fin
import Mathlib.Algebra.Module.BigOperators
import Mathlib.LinearAlgebra.LinearIndependent.Basic
import Mathlib.Tactic.Abel

/-!
# Vector commitments

`pedersen f B m r = Σ mᵢ·fᵢ + r·B`, the commitment to the vector `m` with blinding `r` over the
generators `f` and `B` of a module.

* `pedersen_add`, `smul_pedersen`: it is linear in the vector and the blinding together.
* `pedersen_inj`: it binds when the generators are linearly independent.
* `opening_line`: two responses to different challenges open both commitments of a Schnorr
  exchange, and then every response is what the openings say.
-/

section Linear

variable {R V ι : Type*} [CommRing R] [AddCommGroup V] [Module R V] [Fintype ι]

/-- The commitment to `m` under the blinding `r`. -/
def pedersen (f : ι → V) (B : V) (m : ι → R) (r : R) : V := ∑ i, m i • f i + r • B

variable {f : ι → V} {B : V} {m m' : ι → R} {r r' : R}

theorem pedersen_add :
    pedersen f B m r + pedersen f B m' r' = pedersen f B (fun i => m i + m' i) (r + r') := by
  simp only [pedersen, add_smul, Finset.sum_add_distrib]
  abel

theorem pedersen_sub :
    pedersen f B m r - pedersen f B m' r' = pedersen f B (fun i => m i - m' i) (r - r') := by
  simp only [pedersen, sub_smul, Finset.sum_sub_distrib]
  abel

theorem smul_pedersen (e : R) :
    e • pedersen f B m r = pedersen f B (fun i => e * m i) (e * r) := by
  simp only [pedersen, smul_add, Finset.smul_sum, smul_smul]

@[simp] theorem pedersen_zero (r : R) : pedersen f B (fun _ => 0) r = r • B := by simp [pedersen]

end Linear

section Binding

variable {R V : Type*} [CommRing R] [AddCommGroup V] [Module R V] {n : ℕ} {f : Fin n → V} {B : V}
  {m m' : Fin n → R} {r r' : R}

/-- **Binding.** -/
theorem pedersen_inj (hf : LinearIndependent R (Fin.cons B f : Fin (n + 1) → V)) :
    pedersen f B m r = pedersen f B m' r' ↔ m = m' ∧ r = r' := by
  refine ⟨fun h => ?_, by rintro ⟨rfl, rfl⟩; rfl⟩
  have h₀ := Fintype.linearIndependent_iff.mp hf (Fin.cons (r - r') fun i => m i - m' i) (by
    rw [← sub_eq_zero, pedersen_sub] at h
    rw [Fin.sum_univ_succ]
    simpa [pedersen, add_comm] using h)
  refine ⟨funext fun i => ?_, ?_⟩
  · simpa [sub_eq_zero] using h₀ i.succ
  · simpa [sub_eq_zero] using h₀ 0

end Binding

section Extraction

variable {K V : Type*} [Field K] [AddCommGroup V] [Module K V]

/-- When `e·C + D` opens at two values of `e`, so do `C` and `D`. -/
theorem opening_of_two {ι : Type*} [Fintype ι] {f : ι → V} {B C D : V} {e₁ e₂ : K} (he : e₁ ≠ e₂)
    {m₁ m₂ : ι → K} {r₁ r₂ : K} (h₁ : e₁ • C + D = pedersen f B m₁ r₁)
    (h₂ : e₂ • C + D = pedersen f B m₂ r₂) :
    ∃ (m d : ι → K) (r t : K), C = pedersen f B m r ∧ D = pedersen f B d t := by
  have he' : e₁ - e₂ ≠ 0 := sub_ne_zero.mpr he
  have hC : C = (e₁ - e₂)⁻¹ • (pedersen f B m₁ r₁ - pedersen f B m₂ r₂) := by
    rw [← h₁, ← h₂, add_sub_add_right_eq_sub, ← sub_smul, smul_smul, inv_mul_cancel₀ he', one_smul]
  rw [pedersen_sub, smul_pedersen] at hC
  have hD : D = pedersen f B m₁ r₁ - e₁ • C := by rw [← h₁]; abel
  rw [hC, smul_pedersen, pedersen_sub] at hD
  exact ⟨_, _, _, _, hC, hD⟩

/-- **The openings of a line.**  When the commitment binds and `e·C + D` opens at two values of `e`,
all its openings are `e` times one vector plus another. -/
theorem opening_line {n : ℕ} {f : Fin n → V} {B C D : V}
    (hf : LinearIndependent K (Fin.cons B f : Fin (n + 1) → V)) {e₁ e₂ : K} (he : e₁ ≠ e₂)
    {m₁ m₂ : Fin n → K} {r₁ r₂ : K} (h₁ : e₁ • C + D = pedersen f B m₁ r₁)
    (h₂ : e₂ • C + D = pedersen f B m₂ r₂) :
    ∃ (m d : Fin n → K) (r t : K), C = pedersen f B m r ∧ D = pedersen f B d t ∧
      ∀ {e : K} {m' : Fin n → K} {r' : K}, e • C + D = pedersen f B m' r' →
        m' = (fun i => e * m i + d i) ∧ r' = e * r + t := by
  obtain ⟨m, d, r, t, rfl, rfl⟩ := opening_of_two he h₁ h₂
  refine ⟨m, d, r, t, rfl, rfl, fun h => ?_⟩
  rw [smul_pedersen, pedersen_add] at h
  exact (pedersen_inj hf).mp h.symm

end Extraction
