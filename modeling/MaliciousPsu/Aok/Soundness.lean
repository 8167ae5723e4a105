import MaliciousPsu.Aok.Completeness
import MaliciousPsu.Aok.Equations
import MaliciousPsu.Lib.LinearFactors

/-!
# Special soundness of the adapted shuffle

A tree of accepted transcripts, whose branches answer enough challenges `z`, `δ`, `x` and `e`, is
only there for a true statement.  The generators and the basepoint are linearly independent, which
is the binding of the commitments.

* `foldPoly`: the recursion `F_i`, cleared of its divisions, as a polynomial in `e`; its top
  coefficient is the product `Π (μ_j - x)` of the committed scalars (`coeff_foldPoly`).
* `exists_opening`: enough challenges `e` open the shuffled commitment, to scalars with the right
  product at `x`; enough `x` make them the scalars `z_ρ` in some order (`exists_same_factors`).
* `exists_perm`: enough `δ` fix the order, which the first message committed to.
* `special_soundness`: the key and the shuffled points follow from the affinely independent `z`.
* `honestTree_accepted`: a true statement has an accepted tree, on any challenges.
-/

namespace MaliciousPsu

open Polynomial

/-! ### The recursion as a polynomial -/

/-- `e^i·F_i` as a polynomial in `e`, for responses `f_i = e·μ_i + d_i` and
`f_Δ,i = e·A_i + D_i`. -/
noncomputable def foldPoly (x : Scalar) (μ d A D : ℕ → Scalar) : ℕ → Scalar[X]
  | 0 => C (μ 0 - x) * X + C (d 0)
  | i + 1 => foldPoly x μ d A D i * (C (μ (i + 1) - x) * X + C (d (i + 1))) +
      X ^ i * (C (A i) * X + C (D i))

section FoldPoly

variable {x e : Scalar} {μ d A D f fDelta : ℕ → Scalar}

theorem eval_foldPoly (he : e ≠ 0) (hf : ∀ i, f i = e * μ i + d i)
    (hd : ∀ i, fDelta i = e * A i + D i) :
    ∀ i, (foldPoly x μ d A D i).eval e = e ^ i * foldF e x f fDelta i
  | 0 => by
      simp only [foldPoly, foldF, eval_add, eval_mul, eval_C, eval_X, hf]
      ring
  | i + 1 => by
      simp only [foldPoly, foldF, eval_add, eval_mul, eval_C, eval_X, eval_pow,
        eval_foldPoly he hf hd i, hf, hd]
      field_simp
      ring

theorem natDegree_foldPoly_le : ∀ i, (foldPoly x μ d A D i).natDegree ≤ i + 1
  | 0 => Polynomial.natDegree_linear_le
  | i + 1 => by
      refine natDegree_add_le_of_degree_le ?_ ?_
      · exact natDegree_mul_le_of_le (natDegree_foldPoly_le i) Polynomial.natDegree_linear_le
      · refine (natDegree_mul_le_of_le (natDegree_X_pow_le i)
          Polynomial.natDegree_linear_le).trans ?_
        omega

/-- **The top coefficient of the recursion.** -/
theorem coeff_foldPoly : ∀ i, (foldPoly x μ d A D i).coeff (i + 1) = partialProduct μ x i
  | 0 => by simp [foldPoly, partialProduct]
  | i + 1 => by
      have hlow : (X ^ i * (C (A i) * X + C (D i))).coeff (i + 1 + 1) = 0 :=
        coeff_eq_zero_of_natDegree_lt <| lt_of_le_of_lt
          (natDegree_mul_le_of_le (natDegree_X_pow_le i) Polynomial.natDegree_linear_le) (by omega)
      have htop : (C (μ (i + 1) - x) * X + C (d (i + 1))).coeff 1 = μ (i + 1) - x := by simp
      rw [foldPoly, coeff_add, hlow, add_zero,
        coeff_mul_add_eq_of_natDegree_le (natDegree_foldPoly_le i) Polynomial.natDegree_linear_le,
        coeff_foldPoly i, htop]
      exact (Finset.prod_range_succ _ _).symm

/-- **Enough challenges `e` fix the product.** -/
theorem partialProduct_eq {n : ℕ} {c : Scalar} {e : Fin (n + 1) → Scalar}
    (he : Function.Injective e) (hne : ∀ k, e k ≠ 0) {f fDelta : Fin (n + 1) → ℕ → Scalar}
    (hn : n ≠ 0) (hf : ∀ k i, f k i = e k * μ i + d i)
    (hd : ∀ k i, fDelta k i = e k * A i + D i)
    (h : ∀ k, foldF (e k) x (f k) (fDelta k) (n - 1) = e k * c) :
    partialProduct μ x (n - 1) = c := by
  have hn' : n - 1 + 1 = n := by omega
  have hdeg := natDegree_foldPoly_le (x := x) (μ := μ) (d := d) (A := A) (D := D) (n - 1)
  rw [hn'] at hdeg
  have heq : foldPoly x μ d A D (n - 1) = C c * X ^ n := by
    refine eq_of_natDegree_lt_card_of_eval_eq _ _ he (fun k => ?_) ?_
    · rw [eval_foldPoly (hne k) (hf k) (hd k), h k]
      simp only [eval_mul, eval_C, eval_pow, eval_X]
      calc e k ^ (n - 1) * (e k * c) = c * e k ^ (n - 1 + 1) := by ring
        _ = c * e k ^ n := by rw [hn']
    · rw [Fintype.card_fin]
      have := natDegree_C_mul_X_pow_le c n
      omega
  have htop := coeff_foldPoly (x := x) (μ := μ) (d := d) (A := A) (D := D) (n - 1)
  rw [hn', heq, coeff_C_mul, coeff_X_pow_self, mul_one] at htop
  exact htop.symm

end FoldPoly

/-! ### Trees of transcripts -/

/-- The answer to a challenge `e`, with the responses `v` and `v2` that no challenge follows. -/
structure Leaf (n : ℕ) where
  e : Scalar
  e_ne_zero : e ≠ 0
  v : Scalar
  v2 : Scalar
  f : Fin n → Scalar
  fDelta : Fin n → Scalar
  psiZ : Scalar
  psiZDelta : Scalar

/-- A challenge `x`, the message that answers it, and the answers to `n + 1` challenges `e`. -/
structure PsiNode (V : Type) (n : ℕ) where
  x : Scalar
  psiCD : V
  psiCDelta : V
  psiCA : V
  leaf : Fin (n + 1) → Leaf n
  e_injective : Function.Injective fun k => (leaf k).e

/-- A challenge `δ`, and the answers to `n` challenges `x`. -/
structure DeltaNode (V : Type) (n : ℕ) where
  delta : Scalar
  node : Fin n → PsiNode V n
  x_injective : Function.Injective fun c => (node c).x

/-- A challenge `z`, the message that answers it, and the answers to `n + 1` challenges `δ`. -/
structure ZNode (V : Type) (n : ℕ) where
  z : Fin n → Scalar
  x : Fin n → Scalar
  cZ : V
  gU : V
  cU : V
  node : Fin (n + 1) → DeltaNode V n
  delta_injective : Function.Injective fun b => (node b).delta

/-- A first message, and the answers to `n + 1` affinely independent challenges `z`. -/
structure TranscriptTree (V : Type) (n : ℕ) where
  cPi : V
  cD : V
  gD : V
  node : Fin (n + 1) → ZNode V n
  z_independent : AffineIndependent Scalar fun a => (node a).z

/-- The points of the transcript that ends below a challenge `x`. -/
def TranscriptTree.points {V : Type} {n : ℕ} (T : TranscriptTree V n) (N : ZNode V n)
    (M : PsiNode V n) : ShufflePoints V where
  cPi := T.cPi
  cD := T.cD
  gD := T.gD
  cZ := N.cZ
  gU := N.gU
  cU := N.cU
  psiCD := M.psiCD
  psiCDelta := M.psiCDelta
  psiCA := M.psiCA

/-- The responses of the transcript that ends at a leaf. -/
def ZNode.vectors {V : Type} {n : ℕ} (N : ZNode V n) (L : Leaf n) : ShuffleVectors n where
  x := N.x
  v := L.v
  v2 := L.v2
  f := L.f
  fDelta := L.fDelta
  psiZ := L.psiZ
  psiZDelta := L.psiZDelta

/-- Every transcript of the tree is accepted, on every pair of batching scalars. -/
def TranscriptTree.Accepted {V : Type} [AddCommGroup V] [DecidableEq V] [BasePoint V] {n : ℕ}
    (T : TranscriptTree V n) (pp : PublicParams V) (pk : V) (g h : Fin n → V) : Prop :=
  ∀ a b c k alpha1 alpha2,
    let N := T.node a
    let D := N.node b
    let M := D.node c
    let L := M.leaf k
    checkShuffleAdapted pp pk (List.ofFn g) (List.ofFn h) (T.points N M) (N.vectors L).toScalars
      (List.ofFn N.z) D.delta M.x L.e alpha1 alpha2 = .ok true

/-! ### Extraction -/

/-- The indices `0 … n-1` are distinct scalars. -/
theorem natCast_fin_injective {n : ℕ} (hℓ : n < ℓ) :
    Function.Injective fun i : Fin n => ((i : ℕ) : Scalar) := fun i j h => by
  have hval := congrArg ZMod.val h
  simp only [ZMod.val_natCast, Nat.mod_eq_of_lt (i.2.trans hℓ), Nat.mod_eq_of_lt (j.2.trans hℓ)]
    at hval
  exact Fin.ext hval

section Extraction

variable {V : Type} [AddCommGroup V] [Module Scalar V] {n : ℕ} {f : Fin n → V} {B : V}

/-- **The key.** -/
theorem exists_key {pk : V} (hn : n ≠ 0) (N : ZNode V n) {v : Fin (n + 1) → Scalar}
    (hkey : ∀ b, v b • B = N.gU + (N.node b).delta • pk) : ∃ s : Scalar, pk = s • B := by
  have hlt : 1 < n + 1 := by omega
  have h01 : (N.node 0).delta - (N.node ⟨1, hlt⟩).delta ≠ 0 :=
    sub_ne_zero.mpr (N.delta_injective.ne (Fin.ne_of_val_ne (by simp)))
  refine ⟨((N.node 0).delta - (N.node ⟨1, hlt⟩).delta)⁻¹ * (v 0 - v ⟨1, hlt⟩), ?_⟩
  rw [mul_smul, sub_smul, hkey, hkey, add_sub_add_left_eq_sub, ← sub_smul, smul_smul,
    inv_mul_cancel₀ h01, one_smul]

variable (hlin : LinearIndependent Scalar (Fin.cons B f : Fin (n + 1) → V))

include hlin

/-- **Openings of the shuffled commitment.**  The answers to `n + 1` challenges `e` open it, to
scalars whose product at `x` is the one that the verifier computed. -/
theorem exists_opening (hn : n ≠ 0) {cRho : V} {c : Scalar} (M : PsiNode V n)
    (h₁ : ∀ k, (M.leaf k).e • cRho + M.psiCD = pedersen f B (M.leaf k).f (M.leaf k).psiZ)
    (h₂ : ∀ k, (M.leaf k).e • M.psiCA + M.psiCDelta =
      pedersen f B (M.leaf k).fDelta (M.leaf k).psiZDelta)
    (hprod : ∀ k, foldF (M.leaf k).e M.x (seq (M.leaf k).f) (seq (M.leaf k).fDelta) (n - 1) =
      (M.leaf k).e * c) :
    ∃ (μ : Fin n → Scalar) (r : Scalar), cRho = pedersen f B μ r ∧ ∏ j, (μ j - M.x) = c := by
  have hlt : 1 < n + 1 := by omega
  have h01 : (M.leaf 0).e ≠ (M.leaf ⟨1, hlt⟩).e :=
    M.e_injective.ne (Fin.ne_of_val_ne (by simp))
  obtain ⟨μ, d, r, t, rfl, -, hline⟩ := opening_line hlin h01 (h₁ 0) (h₁ ⟨1, hlt⟩)
  obtain ⟨A, D, rA, rD, -, -, hlineA⟩ := opening_line hlin h01 (h₂ 0) (h₂ ⟨1, hlt⟩)
  refine ⟨μ, r, rfl, ?_⟩
  have hseq : ∀ {w m d : Fin n → Scalar} {e : Scalar}, w = (fun i => e * m i + d i) →
      ∀ i, seq w i = e * seq m i + seq d i := by
    rintro w m d e rfl i
    by_cases hi : i < n
    · simp only [seq_of_lt _ hi]
    · simp [seq, hi]
  have hpartial := partialProduct_eq (x := M.x) (e := fun k => (M.leaf k).e) M.e_injective
    (fun k => (M.leaf k).e_ne_zero) hn (fun k => hseq (hline (h₁ k)).1)
    (fun k => hseq (hlineA (h₂ k)).1) hprod
  rwa [← Function.comp_id μ, ← Equiv.coe_refl, partialProduct_last μ (Equiv.refl _) M.x hn]
    at hpartial

/-- **The scalars of the shuffled commitment.**  With the answers to `n` challenges `x`, they are
the scalars `m` of the verifier in some order. -/
theorem exists_same_factors (hn : n ≠ 0) {cRho : V} {m : Fin n → Scalar} (D : DeltaNode V n)
    (h₁ : ∀ c k, ((D.node c).leaf k).e • cRho + (D.node c).psiCD =
      pedersen f B ((D.node c).leaf k).f ((D.node c).leaf k).psiZ)
    (h₂ : ∀ c k, ((D.node c).leaf k).e • (D.node c).psiCA + (D.node c).psiCDelta =
      pedersen f B ((D.node c).leaf k).fDelta ((D.node c).leaf k).psiZDelta)
    (hprod : ∀ c k, foldF ((D.node c).leaf k).e (D.node c).x (seq ((D.node c).leaf k).f)
      (seq ((D.node c).leaf k).fDelta) (n - 1) =
        ((D.node c).leaf k).e * ∏ i, (m i - (D.node c).x)) :
    ∃ (μ : Fin n → Scalar) (r : Scalar), cRho = pedersen f B μ r ∧
      ∀ t, ∏ j, (μ j - t) = ∏ i, (m i - t) := by
  choose μ r hμ hx using fun c => exists_opening hlin hn (D.node c) (h₁ c) (h₂ c) (hprod c)
  have hsame : ∀ c, μ c = μ ⟨0, by omega⟩ := fun c =>
    ((pedersen_inj hlin).mp ((hμ c).symm.trans (hμ ⟨0, by omega⟩))).1
  refine ⟨μ ⟨0, by omega⟩, r ⟨0, by omega⟩, hμ _, prod_sub_eq D.x_injective fun c => ?_⟩
  rw [← hsame c]
  exact hx c

/-- **The order.**  The answers to `n + 1` challenges `δ` make the first message a commitment to a
permutation, and the second one to the challenges `z` in its order. -/
theorem exists_perm (hn : n ≠ 0) (hℓ : n < ℓ) {cPi : V} (N : ZNode V n)
    (hopen : ∀ b, ∃ (μ : Fin n → Scalar) (r : Scalar),
      N.cZ + (N.node b).delta • cPi = pedersen f B μ r ∧
        ∀ t, ∏ j, (μ j - t) = ∏ i, (zRho N.z (N.node b).delta i - t)) :
    ∃ (π : Equiv.Perm (Fin n)) (rPi rZ : Scalar),
      cPi = pedersen f B (fun i => ((π i : ℕ) : Scalar)) rPi ∧
        N.cZ = pedersen f B (N.z ∘ π) rZ := by
  choose μ r hμ hfactors using hopen
  have hlt : 1 < n + 1 := by omega
  have h01 : (N.node 0).delta ≠ (N.node ⟨1, hlt⟩).delta :=
    N.delta_injective.ne (Fin.ne_of_val_ne (by simp))
  have hμ' : ∀ b, (N.node b).delta • cPi + N.cZ = pedersen f B (μ b) (r b) := fun b => by
    rw [add_comm, hμ]
  obtain ⟨p, ζ, rPi, rZ, hPi, hZ, hline⟩ := opening_line hlin h01 (hμ' 0) (hμ' ⟨1, hlt⟩)
  have hval : ∀ b j, μ b j = ζ j + (N.node b).delta * p j := fun b j => by
    rw [(hline (hμ' b)).1, add_comm]
  have hinto : ∀ j, ∃ i, ζ j = N.z i ∧ p j = ((i : ℕ) : Scalar) := fun j =>
    eq_of_moving N.delta_injective fun b => by
      obtain ⟨i, hi⟩ := exists_factor (fun t => (hfactors b t).symm) j
      exact ⟨i, by rw [← hval, ← hi, zRho]⟩
  have honto : ∀ i : Fin n, ∃ j, N.z i = ζ j ∧ ((i : ℕ) : Scalar) = p j := fun i =>
    eq_of_moving N.delta_injective fun b => by
      obtain ⟨j, hj⟩ := exists_factor (hfactors b) i
      exact ⟨j, by rw [← hval, hj, zRho]⟩
  choose π hζ hp using hinto
  have hsurj : Function.Surjective π := fun i => by
    obtain ⟨j, -, hj⟩ := honto i
    exact ⟨j, natCast_fin_injective hℓ ((hp j).symm.trans hj.symm)⟩
  refine ⟨Equiv.ofBijective π (Finite.injective_iff_bijective.mp
    (Finite.injective_iff_surjective.mpr hsurj)), rPi, rZ, ?_, ?_⟩
  · rw [hPi]
    exact congrArg (pedersen f B · rPi) (funext hp)
  · rw [hZ]
    exact congrArg (pedersen f B · rZ) (funext hζ)

/-- **The blinding of the responses `x`.**  The first message committed to `x - s·z` in the
permuted order. -/
theorem exists_blinding_vector (hn : n ≠ 0) {cD : V} {s rZ : Scalar} (N : ZNode V n)
    {π : Equiv.Perm (Fin n)} (hZ : N.cZ = pedersen f B (N.z ∘ π) rZ) {v v2 : Fin (n + 1) → Scalar}
    (hkey : ∀ b, v b • B = N.gU + (N.node b).delta • s • B)
    (h₃ : ∀ b, v b • N.cZ + (N.node b).delta • cD + N.cU - v2 b • B =
      pedersen f B (fun i => N.x i * (N.node b).delta) 0) :
    ∃ rD, cD = pedersen f B (fun i => N.x i - s * N.z (π i)) rD := by
  have hlt : 1 < n + 1 := by omega
  have h01 : (N.node 0).delta ≠ (N.node ⟨1, hlt⟩).delta :=
    N.delta_injective.ne (Fin.ne_of_val_ne (by simp))
  have hB : B ≠ 0 := hlin.ne_zero 0
  obtain ⟨u, hu⟩ : ∃ u, u = v 0 - (N.node 0).delta * s := ⟨_, rfl⟩
  have hv : ∀ b, v b = (N.node b).delta * s + u := fun b => by
    refine smul_left_injective Scalar hB ?_
    have h₀ := hkey 0
    have hb := hkey b
    rw [eq_comm, ← eq_sub_iff_add_eq] at h₀
    simp only
    rw [hb, h₀, hu]
    module
  have hopen : ∀ b, (N.node b).delta • (s • N.cZ + cD) + (u • N.cZ + N.cU) =
      pedersen f B (fun i => N.x i * (N.node b).delta) (v2 b) := fun b => by
    have h := h₃ b
    rw [hv b, sub_eq_iff_eq_add, ← pedersen_zero (f := f) (v2 b), pedersen_add] at h
    simp only [add_zero, zero_add] at h
    rw [← h]
    module
  obtain ⟨m, d, r, t, hC, -, hline⟩ := opening_line hlin h01 (hopen 0) (hopen ⟨1, hlt⟩)
  have hm : m = N.x := funext fun i => by
    have h₀ := congrFun (hline (hopen 0)).1 i
    have h₁ := congrFun (hline (hopen ⟨1, hlt⟩)).1 i
    have h := mul_eq_zero.mp (show ((N.node 0).delta - (N.node ⟨1, hlt⟩).delta) * (N.x i - m i) = 0
      by linear_combination h₀ - h₁)
    rcases h with h | h
    · exact absurd (sub_eq_zero.mp h) h01
    · exact (sub_eq_zero.mp h).symm
  refine ⟨r - s * rZ, ?_⟩
  rw [← eq_sub_iff_add_eq', hZ, smul_pedersen, hm, pedersen_sub] at hC
  exact hC

end Extraction

section Soundness

variable {V : Type} [AddCommGroup V] [Module Scalar V] [DecidableEq V] [BasePoint V] {n : ℕ}

/-- **Special soundness.**  With generators and basepoint linearly independent, an accepted tree
exists only for a shuffle of `s·g` under the key `s·B`. -/
theorem special_soundness {pp : PublicParams V} {f : Fin n → V} (hf : pp.f = List.ofFn f)
    (hlin : LinearIndependent Scalar (Fin.cons basepoint f : Fin (n + 1) → V)) (hn : 2 ≤ n)
    (hℓ : n < ℓ) {pk : V} {g h : Fin n → V} (T : TranscriptTree V n)
    (haccept : T.Accepted pp pk g h) :
    ∃ (s : Scalar) (π : Equiv.Perm (Fin n)),
      pk = mulBase s ∧ ∀ i, h (π i) = mulScalar (g i) s := by
  have hn₀ : n ≠ 0 := by omega
  have heq : ∀ a b c k, let N := T.node a
      let D := N.node b
      let M := D.node c
      let L := M.leaf k
      ShuffleEquations f basepoint pk g h N.z D.delta M.x L.e (T.points N M) (N.vectors L) :=
    fun a b c k => shuffleEquations_of_accepted (φ := AddMonoidHom.id V) Function.injective_id hf
      rfl hn₀ (haccept a b c k)
  let c₀ : Fin n := ⟨0, by omega⟩
  -- the key, from any branch
  obtain ⟨s, rfl⟩ := exists_key hn₀ (T.node 0) fun b => (heq 0 b c₀ 0).key
  -- the permutation and the blinding, from each branch and then from all alike
  have hopen : ∀ a b, ∃ (μ : Fin n → Scalar) (r : Scalar),
      (T.node a).cZ + ((T.node a).node b).delta • T.cPi = pedersen f basepoint μ r ∧
        ∀ t, ∏ j, (μ j - t) = ∏ i, (zRho (T.node a).z ((T.node a).node b).delta i - t) :=
    fun a b => exists_same_factors hlin hn₀ ((T.node a).node b) (fun c k => (heq a b c k).com1)
      (fun c k => (heq a b c k).com2) fun c k => (heq a b c k).product
  choose π rPi rZ hPi hZ using fun a => exists_perm hlin hn₀ hℓ (T.node a) (hopen a)
  choose rD hD using fun a => exists_blinding_vector hlin hn₀ (T.node a) (hZ a)
    (fun b => (heq a b c₀ 0).key) fun b => (heq a b c₀ 0).com3
  have hπ : ∀ a, π a = π 0 := fun a => Equiv.ext fun i => natCast_fin_injective hℓ
    (congrFun ((pedersen_inj hlin).mp ((hPi a).symm.trans (hPi 0))).1 i)
  have hd : ∀ a i, (T.node a).x i - s * (T.node a).z (π a i) =
      (T.node 0).x i - s * (T.node 0).z (π 0 i) := fun a i =>
    congrFun ((pedersen_inj hlin).mp ((hD a).symm.trans (hD 0))).1 i
  have hconst : ∀ a, ∑ i, (T.node a).z i • (s • g ((π 0)⁻¹ i) - h i) =
      T.gD - ∑ i, ((T.node 0).x i - s * (T.node 0).z (π 0 i)) • g i := fun a => by
    have hshuffle : T.gD = ∑ i, (T.node a).x i • g i - ∑ i, (T.node a).z i • h i :=
      (heq a 0 c₀ 0).shuffle
    have hx : ∀ i, (T.node a).x i =
        s * (T.node a).z (π 0 i) + ((T.node 0).x i - s * (T.node 0).z (π 0 i)) := fun i => by
      rw [← hd a i, hπ a]
      ring
    have hperm : ∑ i, (s * (T.node a).z (π 0 i)) • g i =
        ∑ i, (T.node a).z i • s • g ((π 0)⁻¹ i) := by
      rw [← Equiv.sum_comp (π 0) fun i => (T.node a).z i • s • g ((π 0)⁻¹ i)]
      refine Finset.sum_congr rfl fun i _ => ?_
      rw [show (π 0)⁻¹ (π 0 i) = i from (π 0).symm_apply_apply i, smul_smul, mul_comm]
    have hsum : ∑ i, (T.node a).x i • g i = ∑ i, (T.node a).z i • s • g ((π 0)⁻¹ i) +
        ∑ i, ((T.node 0).x i - s * (T.node 0).z (π 0 i)) • g i := by
      rw [← hperm, ← Finset.sum_add_distrib]
      exact Finset.sum_congr rfl fun i _ => by rw [hx i, add_smul]
    rw [hshuffle, hsum]
    simp only [smul_sub, Finset.sum_sub_distrib]
    abel
  refine ⟨s, π 0, (mulScalar_eq_smul _ _).symm, fun i => ?_⟩
  have hi := eq_zero_of_affineIndependent T.z_independent hconst (π 0 i)
  rw [show (π 0)⁻¹ (π 0 i) = i from (π 0).symm_apply_apply i, sub_eq_zero] at hi
  rw [mulScalar_eq_smul, hi]

end Soundness

/-! ### Honest trees -/

section HonestTree

variable {V : Type} [AddCommGroup V] [Module Scalar V] {n : ℕ}

/-- The challenges of a tree whose branches all answer the same ones. -/
structure TreeChallenges (n : ℕ) where
  z : Fin (n + 1) → Fin n → Scalar
  z_independent : AffineIndependent Scalar z
  delta : Fin (n + 1) → Scalar
  delta_injective : Function.Injective delta
  x : Fin n → Scalar
  x_injective : Function.Injective x
  e : Fin (n + 1) → Scalar
  e_injective : Function.Injective e
  e_ne_zero : ∀ k, e k ≠ 0

/-- The tree of the answers that an honest prover gives on fixed coins. -/
def honestTree (f : Fin n → V) (B : V) (g : Fin n → V) (s : Scalar) (π : Equiv.Perm (Fin n))
    (coins : AdaptedShuffleCoins n) (ch : TreeChallenges n) : TranscriptTree V n where
  cPi := pedersen f B (fun i => ((π i : ℕ) : Scalar)) coins.rPi
  cD := pedersen f B coins.d coins.rD
  gD := ∑ i, coins.d i • g i
  z_independent := ch.z_independent
  node a :=
    { z := ch.z a
      x := fun i => s * ch.z a (π i) + coins.d i
      cZ := pedersen f B (ch.z a ∘ π) coins.rZ
      gU := coins.u • B
      cU := -coins.u • pedersen f B (ch.z a ∘ π) coins.rZ + coins.u2 • B
      delta_injective := ch.delta_injective
      node := fun b =>
        { delta := ch.delta b
          x_injective := ch.x_injective
          node := fun c =>
            { x := ch.x c
              psiCD := pedersen f B coins.hint2.d coins.hint2.rD
              psiCDelta := pedersen f B (padLast (honestProducts coins)) coins.hint2.rDelta
              psiCA := pedersen f B (padLast (honestCross π coins (ch.z a) (ch.delta b) (ch.x c)))
                coins.hint2.rA
              e_injective := ch.e_injective
              leaf := fun k =>
                let S := honestVectors s π coins (ch.z a) (ch.delta b) (ch.x c) (ch.e k)
                { e := ch.e k
                  e_ne_zero := ch.e_ne_zero k
                  v := S.v
                  v2 := S.v2
                  f := S.f
                  fDelta := S.fDelta
                  psiZ := S.psiZ
                  psiZDelta := S.psiZDelta } } } }

/-- **Every true statement has an accepted tree.** -/
theorem honestTree_accepted [DecidableEq V] [BasePoint V] {pp : PublicParams V} {f : Fin n → V}
    (hf : pp.f = List.ofFn f) (hn : 2 ≤ n) (g : Fin n → V) (s : Scalar) (π : Equiv.Perm (Fin n))
    (coins : AdaptedShuffleCoins n) (ch : TreeChallenges n) :
    (honestTree f basepoint g s π coins ch).Accepted pp (s • basepoint) g
      fun i => s • g (π⁻¹ i) := by
  intro a b c k alpha1 alpha2
  have h := (checkShuffleAdapted_honest_iff (φ := AddMonoidHom.id V) hf rfl (by omega) g s π coins
    (ch.z a) (ch.delta b) (ch.x c) (ch.e k) alpha1 alpha2 []).mpr fun h => by omega
  simp only [List.length_nil, ShuffleScalars.pad, List.replicate_zero, List.append_nil,
    List.nil_append] at h
  exact h

/-- The origin and the unit vectors. -/
theorem affineIndependent_unit (n : ℕ) : AffineIndependent Scalar
    (Fin.cons 0 fun i => Pi.single i 1 : Fin (n + 1) → Fin n → Scalar) := by
  rw [affineIndependent_iff_linearIndependent_vsub Scalar _ 0,
    ← linearIndependent_equiv (finSuccAboveEquiv 0)]
  have hunit : (fun a : {a // a ≠ (0 : Fin (n + 1))} =>
      (Fin.cons 0 fun i => Pi.single i 1 : Fin (n + 1) → Fin n → Scalar) a -ᵥ
        (Fin.cons 0 fun i => Pi.single i 1 : Fin (n + 1) → Fin n → Scalar) 0) ∘
      finSuccAboveEquiv 0 = fun i => Pi.single i 1 := by
    funext i
    simp [finSuccAboveEquiv_apply]
  rw [hunit]
  exact Pi.linearIndependent_single_one (Fin n) Scalar

end HonestTree

/-- A module in which a basepoint and two generators are independent. -/
abbrev Triple := Fin 3 → Scalar

instance : BasePoint Triple := ⟨Pi.single 0 1, mem_primeSubgroup_of_module _⟩

/-- The challenges of a tree for two points. -/
def twoChallenges : TreeChallenges 2 where
  z := Fin.cons 0 fun i => Pi.single i 1
  z_independent := affineIndependent_unit 2
  delta := ![0, 1, (2 : ℕ)]
  delta_injective := by decide +kernel
  x := ![0, 1]
  x_injective := by decide +kernel
  e := ![1, (2 : ℕ), 3]
  e_injective := by decide +kernel
  e_ne_zero := by decide +kernel

/-- The honest tree for two swapped points. -/
theorem special_soundness_swap :
    let pp : PublicParams Triple := ⟨[Pi.single 1 1, Pi.single 2 1], fun P _ =>
      mem_primeSubgroup_of_module P⟩
    let g : Fin 2 → Triple := ![Pi.single 0 5, Pi.single 0 6]
    let π := Equiv.swap (0 : Fin 2) 1
    let h := fun i => (3 : Scalar) • g (π⁻¹ i)
    ∃ T : TranscriptTree Triple 2, T.Accepted pp ((3 : Scalar) • basepoint) g h ∧
      ∃ (s : Scalar) (π : Equiv.Perm (Fin 2)),
        (3 : Scalar) • (basepoint : Triple) = mulBase s ∧ ∀ i, h (π i) = mulScalar (g i) s := by
  intro pp g π h
  have hf : pp.f = List.ofFn fun i : Fin 2 => (Pi.single i.succ 1 : Triple) := rfl
  have hlin : LinearIndependent Scalar
      (Fin.cons basepoint fun i => Pi.single i.succ 1 : Fin 3 → Triple) := by
    have hunit : (Fin.cons basepoint fun i => Pi.single i.succ 1 : Fin 3 → Triple) =
        fun i => Pi.single i 1 := by
      funext i
      cases i using Fin.cases with
      | zero => rfl
      | succ i => rfl
    rw [hunit]
    exact Pi.linearIndependent_single_one (Fin 3) Scalar
  have haccept := honestTree_accepted hf le_rfl g 3 π (.zero 2) twoChallenges
  exact ⟨_, haccept, special_soundness hf hlin le_rfl (by decide) _ haccept⟩

end MaliciousPsu
