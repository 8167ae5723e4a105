import MaliciousPsu.Aok.Known
import MaliciousPsu.Lib.FisherYates

/-!
# Random permutations

`random_permutation` in `aok.rs`: a Fisher–Yates shuffle of `0..n` that patches the inverse at two
entries after each swap.

* `permutationTurn_permList`: one turn keeps the inverse in step, also when nothing moves.
* `randomPermutation_eq`: the vectors returned are those of the permutation of the shuffle.
* `randomPermutation_uniform`: each permutation comes of exactly one sequence of draws, so that
  uniform draws give a uniform permutation.
-/

open Equiv FisherYates

namespace MaliciousPsu

/-- One turn of the loop: `perm.swap(i, j)`, and `inv` at the two entries that moved. -/
def permutationTurn (i j : ℕ) (s : List ℕ × List ℕ) : Run (List ℕ × List ℕ) := do
  let perm ← swap s.1 i j
  let inv ← setIdx s.2 (← idx perm i) i
  let inv ← setIdx inv (← idx perm j) j
  return (perm, inv)

/-- `random_permutation`, with what `gen_range(0..=i)` draws for `i` from `n-1` down to 1. -/
def randomPermutation (n : ℕ) (draws : Draws n) : Run (List ℕ × List ℕ) :=
  (turns n).foldlM (fun s (i : Fin n) => permutationTurn i (draws i) s) (List.range n, List.range n)

section Loop

variable {n : ℕ}

theorem idx_permList (π : Perm (Fin n)) (i : Fin n) : idx (permList π) i = .ok (π i : ℕ) :=
  idx_ofFn _ i

theorem permList_one : permList (1 : Perm (Fin n)) = List.range n := by
  rw [permList, List.ofFn_eq_map]
  exact List.map_coe_finRange_eq_range

theorem permList_injective : Function.Injective (permList (n := n)) := by
  intro π π' h
  refine Equiv.ext fun i => Fin.ext ?_
  exact congrFun (List.ofFn_injective h) i

/-- **One turn keeps the inverse in step.** -/
theorem permutationTurn_permList (σ : Perm (Fin n)) (i j : Fin n) :
    permutationTurn i j (permList σ, permList σ⁻¹) =
      .ok (permList (σ * Equiv.swap i j), permList (σ * Equiv.swap i j)⁻¹) := by
  -- the values at the two positions change places
  have hperm : swap (permList σ) i j = .ok (permList (σ * Equiv.swap i j)) := by
    have hval : (fun k => ((σ * Equiv.swap i j) k : ℕ)) =
        Function.update (Function.update (fun k => (σ k : ℕ)) i (σ j)) j (σ i) := by
      rw [Equiv.swap_comm]
      exact Equiv.comp_swap_eq_update j i fun k => (σ k : ℕ)
    rw [swap, idx_permList, ok_bind, idx_permList, ok_bind, permList, setIdx_ofFn, ok_bind,
      setIdx_ofFn, permList, hval]
  -- and the inverse is overwritten at these two values
  have hinv : (fun k => ((σ * Equiv.swap i j)⁻¹ k : ℕ)) =
      Function.update (Function.update (fun k => (σ⁻¹ k : ℕ)) (σ j) i) (σ i) j := by
    rw [← Function.comp_def Fin.val, coe_inv_mul_swap, Function.comp_update, Function.comp_update]
    rfl
  have hset : (do setIdx (← setIdx (permList σ⁻¹) (σ j) i) (σ i) j) =
      .ok (permList (σ * Equiv.swap i j)⁻¹) := by
    rw [permList, setIdx_ofFn, ok_bind, setIdx_ofFn, ← hinv]
    rfl
  obtain ⟨inv, hfirst, hsecond⟩ := bind_eq_ok.mp hset
  dsimp only [permutationTurn]
  rw [hperm, ok_bind, idx_permList, ok_bind, mul_swap_apply_left, hfirst, ok_bind, idx_permList,
    ok_bind, mul_swap_apply_right, hsecond, ok_bind, pure_eq_ok]

/-- The loop from any permutation and its inverse on. -/
theorem foldlM_permutationTurn (draws : Draws n) : ∀ (is : List (Fin n)) (σ : Perm (Fin n)),
    is.foldlM (fun s (i : Fin n) => permutationTurn i (draws i) s) (permList σ, permList σ⁻¹) =
      .ok (permList (σ * shuffle draws.target is), permList (σ * shuffle draws.target is)⁻¹)
  | [], σ => by
      rw [shuffle, mul_one]
      rfl
  | i :: is, σ => by
      have hturn := permutationTurn_permList σ i (draws.target i)
      rw [List.foldlM_cons, show ((draws i : ℕ)) = draws.target i from rfl, hturn, ok_bind,
        foldlM_permutationTurn draws is, shuffle, mul_assoc]

/-- The vectors that are returned. -/
theorem randomPermutation_eq (draws : Draws n) :
    randomPermutation n draws = .ok (permList (shuffle draws.target (turns n)),
      permList (shuffle draws.target (turns n))⁻¹) := by
  have hloop := foldlM_permutationTurn draws (turns n) 1
  rw [inv_one, permList_one, one_mul] at hloop
  exact hloop

/-- The permutation of a party and its inverse are those of exactly one sequence of draws. -/
theorem existsUnique_draws (π : Perm (Fin n)) :
    ∃! draws : Draws n, randomPermutation n draws = .ok (permList π, permList π⁻¹) := by
  obtain ⟨draws, hdraws, hunique⟩ := bijective_shuffle.existsUnique π
  refine ⟨draws, ?_, fun draws' h => hunique draws' ?_⟩
  · rw [← hdraws]
    exact randomPermutation_eq draws
  · dsimp only at h ⊢
    rw [randomPermutation_eq] at h
    exact permList_injective (congrArg Prod.fst (Except.ok.inj h))

end Loop

/-! ### Permutations of `0..n` -/

/-- The second vector inverts the first on both sides. -/
structure InverseVectors (n : ℕ) (perm inv : List ℕ) : Prop where
  length_inv : inv.length = n
  inv_perm : ∀ k < n, (idx perm k >>= idx inv) = .ok k
  perm_inv : ∀ k < n, (idx inv k >>= idx perm) = .ok k

theorem permList_perm {n : ℕ} (π : Perm (Fin n)) : (permList π).Perm (List.range n) := by
  rw [← permList_one]
  exact π.ofFn_comp_perm fun i => (i : ℕ)

theorem inverseVectors_permList {n : ℕ} (π : Perm (Fin n)) :
    InverseVectors n (permList π) (permList π⁻¹) := by
  refine ⟨List.length_ofFn, fun k hk => ?_, fun k hk => ?_⟩
  · have hk := idx_permList π ⟨k, hk⟩
    rw [hk, ok_bind, idx_permList, Perm.inv_eq_iff_eq.mpr rfl]
  · have hk := idx_permList π⁻¹ ⟨k, hk⟩
    rw [hk, ok_bind, idx_permList, ← Perm.inv_eq_iff_eq.mp rfl]

/-- A rearrangement of `0..n` as a permutation. -/
theorem exists_permList {n : ℕ} {perm : List ℕ} (h : perm.Perm (List.range n)) :
    ∃ π : Perm (Fin n), perm = permList π := by
  obtain ⟨v, rfl⟩ := exists_ofFn (h.length_eq.trans List.length_range)
  have hlt : ∀ i, v i < n := fun i => List.mem_range.mp (h.mem_iff.mp (List.mem_ofFn.mpr ⟨i, rfl⟩))
  have hv : Function.Injective v := List.nodup_ofFn.mp (h.nodup_iff.mpr List.nodup_range)
  have hinj : Function.Injective fun i => (⟨v i, hlt i⟩ : Fin n) := by
    intro i k hik
    exact hv (congrArg Fin.val hik)
  exact ⟨Equiv.ofBijective _ (Finite.injective_iff_bijective.mp hinj), rfl⟩

/-- **Every permutation exactly once**, with its inverse. -/
theorem randomPermutation_uniform (n : ℕ) :
    (∀ draws : Draws n, ∃ perm inv, randomPermutation n draws = .ok (perm, inv) ∧
      perm.Perm (List.range n) ∧ InverseVectors n perm inv) ∧
    (∀ perm, perm.Perm (List.range n) →
      ∃! draws : Draws n, ∃ inv, randomPermutation n draws = .ok (perm, inv)) ∧
    Fintype.card (Draws n) = n.factorial := by
  refine ⟨fun draws => ?_, fun perm hperm => ?_, card_draws n⟩
  · exact ⟨_, _, randomPermutation_eq draws, permList_perm _, inverseVectors_permList _⟩
  · obtain ⟨π, rfl⟩ := exists_permList hperm
    obtain ⟨draws, hdraws, hunique⟩ := existsUnique_draws π
    refine ⟨draws, ⟨_, hdraws⟩, ?_⟩
    rintro draws' ⟨inv, hinv⟩
    refine hunique draws' ?_
    rw [randomPermutation_eq] at hinv ⊢
    rw [permList_injective (congrArg Prod.fst (Except.ok.inj hinv))]

end MaliciousPsu
