import MaliciousPsu.Aok.Adapted
import Mathlib.Tactic.Module

/-!
# The honest prover of the adapted shuffle

The proof that an honest prover sends, as points and scalars of a `ℤ/ℓ`-module `V` that the points
of the protocol come from (`φ : V →+ G`).

* `honestPoints`, `honestScalars`: the proof, entry by entry, for challenges `z`, `δ`, `x`, `e`.
* `proveShuffleAdaptedWith_eq`: the source's prover sends exactly these.
* `honest_product_iff`: the recursion `F_i` ends at `e·Π (z_ρ,i - x)`, also at `e = 0`, except for a
  single scalar.
* `honest_com1`, `honest_com2`, `honest_com3`: the three commitment equations that are batched.
-/

namespace MaliciousPsu

/-- The proof that encodes these points and carries these scalars. -/
def encodeProof {G : Type} [PointEncoding G] (P : ShufflePoints G) (S : ShuffleScalars) :
    AdaptedShuffleProof where
  _cPi := compress P.cPi
  _cD := compress P.cD
  _gD := compress P.gD
  _cZ := compress P.cZ
  _gU := compress P.gU
  _cU := compress P.cU
  x := S.x
  v := S.v
  v2 := S.v2
  psi :=
    { _cD := compress P.psiCD
      _cDelta := compress P.psiCDelta
      _cA := compress P.psiCA
      f := S.f
      fDelta := S.fDelta
      z := S.psiZ
      zDelta := S.psiZDelta }

/-- The image of each point. -/
def ShufflePoints.map {V G : Type} (φ : V → G) (P : ShufflePoints V) : ShufflePoints G where
  cPi := φ P.cPi
  cD := φ P.cD
  gD := φ P.gD
  cZ := φ P.cZ
  gU := φ P.gU
  cU := φ P.cU
  psiCD := φ P.psiCD
  psiCDelta := φ P.psiCDelta
  psiCA := φ P.psiCA

/-- `z_rho`, as a vector. -/
def zRho {n : ℕ} (z : Fin n → Scalar) (delta : Scalar) (i : Fin n) : Scalar :=
  z i + delta * ((i : ℕ) : Scalar)

theorem zRhoList_ofFn {n : ℕ} (z : Fin n → Scalar) (delta : Scalar) :
    zRhoList n (List.ofFn z) delta = .ok (List.ofFn (zRho z delta)) :=
  mapM_range fun i => by simp [zRho]

section Honest

variable {V : Type} [AddCommGroup V] [Module Scalar V] {n : ℕ} (f : Fin n → V) (B : V)
  (g : Fin n → V) (s : Scalar) (π : Equiv.Perm (Fin n)) (coins : AdaptedShuffleCoins n)
  (z : Fin n → Scalar) (delta x e : Scalar)

/-- The cross terms of the inner argument on the scalars `z_rho`. -/
def honestCross (i : ℕ) : Scalar :=
  crossSeq x (seq (zRho z delta ∘ π)) (seq coins.hint2.d) (seq coins.hint2.blind) i

/-- The products `-Δ_i·d_{i+1}`. -/
def honestProducts (i : ℕ) : Scalar :=
  -seq coins.hint2.blind i * seq coins.hint2.d (i + 1)

/-- The points of an honest proof. -/
def honestPoints : ShufflePoints V where
  cPi := pedersen f B (fun i => ((π i : ℕ) : Scalar)) coins.rPi
  cD := pedersen f B coins.d coins.rD
  gD := ∑ i, coins.d i • g i
  cZ := pedersen f B (z ∘ π) coins.rZ
  gU := coins.u • B
  cU := -coins.u • pedersen f B (z ∘ π) coins.rZ + coins.u2 • B
  psiCD := pedersen f B coins.hint2.d coins.hint2.rD
  psiCDelta := pedersen f B (padLast (honestProducts coins)) coins.hint2.rDelta
  psiCA := pedersen f B (padLast (honestCross π coins z delta x)) coins.hint2.rA

/-- The scalars of an honest proof. -/
def honestScalars : ShuffleScalars where
  x := List.ofFn fun i => s * z (π i) + coins.d i
  v := s * delta + coins.u
  v2 := (s * coins.rZ + coins.rD) * delta + coins.u2
  f := List.ofFn fun i => e * zRho z delta (π i) + coins.hint2.d i
  fDelta := List.ofFn (n := n) (padLast fun i =>
    e * honestCross π coins z delta x i - seq coins.hint2.blind i * seq coins.hint2.d (i + 1))
  psiZ := e * (coins.rZ + coins.rPi * delta) + coins.hint2.rD
  psiZDelta := e * coins.hint2.rA + coins.hint2.rDelta

end Honest

/-! ### The source's prover -/

section Prover

variable {G : Type} [AddCommGroup G] [BasePoint G] {V : Type} [AddCommGroup V] [Module Scalar V]
  {φ : V →+ G} {B : V} {n : ℕ} {pp : PublicParams G} {f : Fin n → V}

/-- The hint on the coins `coins`. -/
theorem proveShuffleAdaptedPreprocess_eq (hf : pp.f = List.ofFn fun i => φ (f i))
    (hB : φ B = basepoint) (hn : n ≠ 0) (π : Equiv.Perm (Fin n)) (coins : AdaptedShuffleCoins n) :
    proveShuffleAdaptedPreprocess pp (permList π) n coins = .ok
      { cPi := φ (pedersen f B (fun i => ((π i : ℕ) : Scalar)) coins.rPi)
        cD := φ (pedersen f B coins.d coins.rD)
        d := List.ofFn coins.d
        rD := coins.rD
        rPi := coins.rPi
        rZ := coins.rZ
        u := coins.u
        u2 := coins.u2
        hint2 :=
          { d := List.ofFn coins.hint2.d
            delta := List.ofFn coins.hint2.blind
            rD := coins.hint2.rD
            rDelta := coins.hint2.rDelta
            rA := coins.hint2.rA
            cD := φ (pedersen f B coins.hint2.d coins.hint2.rD)
            cDelta := φ (pedersen f B (padLast (honestProducts coins)) coins.hint2.rDelta) } } := by
  have hpi : (permList π).map (fun i : ℕ => (i : Scalar)) =
      List.ofFn fun i => ((π i : ℕ) : Scalar) := by
    rw [permList, List.map_ofFn]
    rfl
  simp only [proveShuffleAdaptedPreprocess, hpi, commit_map φ hf hB, ok_bind,
    proveShuffleKnownPreprocess_eq hf hB hn, pure_eq_ok]
  rfl

variable [PointEncoding G]

/-- **The honest prover**: preprocessing and proving, on points `φ (g i)`, for the challenges that
`ch` gives to the messages sent. -/
theorem proveShuffleAdaptedWith_eq (hf : pp.f = List.ofFn fun i => φ (f i))
    (hB : φ B = basepoint) (hn : n ≠ 0) (ch : Challenger n) (g : Fin n → V) (s : Scalar)
    (π : Equiv.Perm (Fin n)) (coins : AdaptedShuffleCoins n) :
    ∃ z delta x e, let P := (honestPoints f B g π coins z delta x).map φ
      let S := honestScalars s π coins z delta x e
      (do
        let hint ← proveShuffleAdaptedPreprocess pp (permList π) n coins
        proveShuffleAdaptedWith ch pp hint (List.ofFn fun i => φ (g i)) s (permList π)) =
          .ok (encodeProof P S) ∧
      z = ch.z (compress P.cPi) (compress P.cD) (compress P.gD) ∧
      delta = ch.delta (compress P.cPi) (compress P.cD) (compress P.gD) S.x (compress P.cZ)
        (compress P.gU) (compress P.cU) ∧
      x = ch.psi.x (compress (P.cZ + mulScalar P.cPi delta)) (List.ofFn (zRho z delta)) ∧
      e = ch.psi.e (compress (P.cZ + mulScalar P.cPi delta)) (List.ofFn (zRho z delta))
        (compress P.psiCD) (compress P.psiCDelta) (compress P.psiCA) := by
  obtain ⟨z, hz⟩ : ∃ z, z = ch.z (compress (φ (pedersen f B (fun i => ((π i : ℕ) : Scalar))
    coins.rPi))) (compress (φ (pedersen f B coins.d coins.rD)))
    (compress (φ (∑ i, coins.d i • g i))) := ⟨_, rfl⟩
  have hx : (List.range n).mapM (fun i => do
      return s * (← idx (List.ofFn z) (← idx (permList π) i)) + (← idx (List.ofFn coins.d) i)) =
      .ok (List.ofFn fun i => s * z (π i) + coins.d i) := mapM_range fun i => by simp [permList]
  have hzπ : (permList π).mapM (idx (List.ofFn z)) = .ok (List.ofFn (z ∘ π)) :=
    mapM_ofFn fun i => by simp
  simp only [pure_eq_ok] at hx
  simp only [proveShuffleAdaptedPreprocess_eq hf hB hn, ok_bind, proveShuffleAdaptedWith,
    List.length_ofFn, vartimeMultiscalarMul_map, ← hz, hx, hzπ, commit_map φ hf hB,
    mulBase_map φ hB, mulScalar_map, ← map_add, zRhoList_ofFn, pure_eq_ok]
  obtain ⟨delta, hdelta⟩ : ∃ delta, delta =
      ch.delta (compress (φ (pedersen f B (fun i => ((π i : ℕ) : Scalar)) coins.rPi)))
        (compress (φ (pedersen f B coins.d coins.rD))) (compress (φ (∑ i, coins.d i • g i)))
        (List.ofFn fun i => s * z (π i) + coins.d i) (compress (φ (pedersen f B (z ∘ π) coins.rZ)))
        (compress (φ (coins.u • B)))
        (compress (φ (-coins.u • pedersen f B (z ∘ π) coins.rZ + coins.u2 • B))) := ⟨_, rfl⟩
  simp only [← hdelta]
  rw [proveShuffleKnownWith_eq hf hB hn ch.psi rfl rfl]
  refine ⟨z, delta, _, _, rfl, hz, hdelta, ?_, ?_⟩
  · simp only [ShufflePoints.map, honestPoints, mulScalar_map, ← map_add]
  · simp only [ShufflePoints.map, honestPoints, mulScalar_map, ← map_add]
    rfl

end Prover

/-! ### The equations of the verifier -/

section Equations

variable {V : Type} [AddCommGroup V] [Module Scalar V] {n : ℕ} {f : Fin n → V} {B : V}
  {g : Fin n → V} {s : Scalar} {π : Equiv.Perm (Fin n)} {coins : AdaptedShuffleCoins n}
  {z : Fin n → Scalar} {delta x e : Scalar}

theorem partialProduct_last (m : Fin n → Scalar) (π : Equiv.Perm (Fin n)) (x : Scalar)
    (hn : n ≠ 0) : partialProduct (seq (m ∘ π)) x (n - 1) = ∏ i, (m i - x) := by
  have hn' : n - 1 + 1 = n := by omega
  rw [partialProduct, hn', ← Equiv.prod_comp π, Finset.prod_range]
  exact Finset.prod_congr rfl fun i _ => by rw [seq_coe, Function.comp_apply]

variable (s π coins z delta x) in
/-- **The blinding values are what the recursion leaves.** -/
theorem seq_blind (hn : 2 ≤ n) (he : e ≠ 0) {i : ℕ} (hi : i < n) :
    let S := honestScalars s π coins z delta x e
    seq coins.hint2.blind i = foldF e x (S.f.getD · 0) (S.fDelta.getD · 0) i -
      e * partialProduct (seq (zRho z delta ∘ π)) x i := by
  have hfirst : seq coins.hint2.blind 0 = seq coins.hint2.d 0 := by
    rw [seq_of_lt _ (by omega), seq_of_lt _ (by omega)]
    simp [KnownContentCoins.blind, show (1 : ℕ) ≠ n by omega]
  have hfold := foldF_honest (x := x) (m := seq (zRho z delta ∘ π)) (d := seq coins.hint2.d)
    (a := partialProduct (seq (zRho z delta ∘ π)) x) he hfirst (by simp [partialProduct])
    (fun i => Finset.prod_range_succ _ _) i
  rw [eq_sub_iff_add_eq', ← hfold]
  refine foldF_congr (fun j hj => ?_) fun j hj => ?_
  · have hj' : j < n := by omega
    simp only [seq_of_lt _ hj', Function.comp_apply]
    exact Eq.symm (seq_of_lt (fun i => e * zRho z delta (π i) + coins.hint2.d i) hj')
  · have hj' : j < n := by omega
    refine Eq.symm ((seq_of_lt _ hj').trans ?_)
    rw [padLast, if_neg (by simp only; omega)]
    rfl

theorem seq_blind_last (hn : n ≠ 0) : seq coins.hint2.blind (n - 1) = 0 := by
  rw [seq_of_lt _ (by omega)]
  simp [KnownContentCoins.blind, Nat.sub_add_cancel (by omega : 1 ≤ n)]

/-- For one scalar the recursion takes no step, and leaves `d` where `0` should be. -/
theorem single_product {coins : AdaptedShuffleCoins 1} {π : Equiv.Perm (Fin 1)}
    {z : Fin 1 → Scalar} :
    let S := honestScalars s π coins z delta x e
    recomputeF e x S.f S.fDelta 0 = .ok (e * knownProduct (List.ofFn (zRho z delta)) x) ↔
      ∀ i, coins.hint2.d i = 0 := by
  have hπ : π 0 = 0 := Subsingleton.elim _ _
  have hfold : e * z 0 + coins.hint2.d 0 - e * x = e * (z 0 - x) ↔ coins.hint2.d 0 = 0 := by
    constructor
    · intro h
      linear_combination h
    · intro h
      rw [h]
      ring
  simpa [recomputeF, honestScalars, zRho, knownProduct, idx, hπ, Fin.forall_fin_one] using hfold

variable (s π coins z delta x e) in
/-- **The product check.**  The recursion starts from `Δ_0 = d_0` and ends at `Δ_{n-1} = 0`, which
for one scalar are the same entry.  When `e` is `0` it ends at `0` as soon as it takes a step. -/
theorem honest_product_iff (hn : n ≠ 0) :
    let S := honestScalars s π coins z delta x e
    recomputeF e x S.f S.fDelta (n - 1) = .ok (e * knownProduct (List.ofFn (zRho z delta)) x) ↔
      (n = 1 → ∀ i, coins.hint2.d i = 0) := by
  intro S
  by_cases hn₁ : n = 1
  · subst hn₁
    exact single_product.trans (by simp)
  have hprod : knownProduct (List.ofFn (zRho z delta)) x = ∏ i, (zRho z delta i - x) := by
    simp [knownProduct, List.map_ofFn, List.prod_ofFn]
  refine iff_of_true ?_ fun h => absurd h hn₁
  rw [recomputeF_eq_ok, hprod]
  simp only [S, honestScalars, List.length_ofFn]
  refine ⟨by omega, by omega, ?_⟩
  by_cases he : e = 0
  · subst he
    obtain ⟨k, hk⟩ : ∃ k, n - 1 = k + 1 := ⟨n - 2, by omega⟩
    rw [hk, foldF_zero, zero_mul]
  · have hlast := seq_blind s π coins z delta x (by omega : 2 ≤ n) he (by omega : n - 1 < n)
    simp only [seq_blind_last hn, partialProduct_last _ _ _ hn] at hlast
    exact (sub_eq_zero.mp hlast.symm)

/-- The commitment to `z_rho`, shuffled, opens to the responses of the inner argument. -/
theorem honest_com1 : let P := honestPoints f B g π coins z delta x
    e • (P.cZ + delta • P.cPi) + P.psiCD =
      pedersen f B (fun i => e * zRho z delta (π i) + coins.hint2.d i)
        (honestScalars s π coins z delta x e).psiZ := by
  simp only [honestPoints, honestScalars, smul_pedersen, pedersen_add, Function.comp_apply, zRho]
  congr 1
  ring

/-- The cross terms open to the responses `f_Δ`. -/
theorem honest_com2 : let P := honestPoints f B g π coins z delta x
    e • P.psiCA + P.psiCDelta =
      pedersen f B (padLast fun i => e * honestCross π coins z delta x i -
          seq coins.hint2.blind i * seq coins.hint2.d (i + 1))
        (honestScalars s π coins z delta x e).psiZDelta := by
  simp only [honestPoints, honestScalars, smul_pedersen, pedersen_add]
  congr 1
  funext i
  simp only [padLast, honestProducts]
  split <;> ring

/-- The responses `x` open the combination of `c_z`, `c_d` and `c_u`. -/
theorem honest_com3 : let P := honestPoints f B g π coins z delta x
    let S := honestScalars s π coins z delta x e
    S.v • P.cZ + delta • P.cD + P.cU - S.v2 • B =
      pedersen f B (fun i => (s * z (π i) + coins.d i) * delta) 0 := by
  simp only [honestPoints, honestScalars]
  have h : (s * delta + coins.u) • pedersen f B (z ∘ π) coins.rZ
      + delta • pedersen f B coins.d coins.rD
      + (-coins.u • pedersen f B (z ∘ π) coins.rZ + coins.u2 • B)
      - ((s * coins.rZ + coins.rD) * delta + coins.u2) • B =
      (s * delta) • pedersen f B (z ∘ π) coins.rZ + delta • pedersen f B coins.d coins.rD
      - ((s * coins.rZ + coins.rD) * delta) • B := by module
  rw [h, smul_pedersen, smul_pedersen, pedersen_add, ← pedersen_zero (f := f) (B := B),
    pedersen_sub]
  congr 1
  · funext i
    simp only [Function.comp_apply]
    ring
  · ring

variable (g s π coins z) in
/-- The responses `x` on `g` and the challenges `z` on the shuffled points leave `g_d`. -/
theorem honest_shuffle : ∑ i, (s * z (π i) + coins.d i) • g i + ∑ i, -z i • s • g (π⁻¹ i) =
    ∑ i, coins.d i • g i := by
  have h : ∑ i, -z i • s • g (π⁻¹ i) = ∑ i, -z (π i) • s • g i := by
    rw [← Equiv.sum_comp π]
    simp
  rw [h, ← Finset.sum_add_distrib]
  refine Finset.sum_congr rfl fun i _ => ?_
  module

end Equations

end MaliciousPsu
