import MaliciousPsu.Aok.Completeness
import MaliciousPsu.Aok.Ddh
import MaliciousPsu.Aok.Equations

/-!
# Zero knowledge of the adapted shuffle

For challenges fixed in advance, the prover's coins and the proofs that satisfy the verifier's
equations are in bijection, whatever witness the prover holds.

* `honest_injective`: the proof determines the coins.
* `exists_coins`: every proof that satisfies the equations comes from some coins.  The blinding
  values are read off the recursion `F_i`; the product check makes the last of them `0`.
* `honestRun_bijOn`: the bijection, and with it the equality of the distributions that two
  witnesses of one statement give.
-/

namespace MaliciousPsu

section Module

variable {V : Type} [AddCommGroup V] [Module Scalar V] {n : ℕ} {f : Fin n → V} {B : V}
  {g : Fin n → V} {s : Scalar} {π : Equiv.Perm (Fin n)} {z : Fin n → Scalar} {delta x e : Scalar}

/-- Two blindings of one vector that give the same commitment. -/
theorem blinding_unique (hB : B ≠ 0) {m : Fin n → Scalar} {r r' : Scalar}
    (h : pedersen f B m r = pedersen f B m r') : r = r' :=
  smul_left_injective Scalar hB (add_left_cancel h)

theorem exists_blinding (hgen : ∀ P : V, ∃ r : Scalar, P = r • B) (m : Fin n → Scalar) (C : V) :
    ∃ r, pedersen f B m r = C := by
  obtain ⟨r, hr⟩ := hgen (C - ∑ i, m i • f i)
  exact ⟨r, by rw [pedersen, ← hr, add_sub_cancel]⟩

/-- **The proof determines the coins.** -/
theorem honest_injective (hB : B ≠ 0) (hn : 2 ≤ n) (he : e ≠ 0) {c c' : AdaptedShuffleCoins n}
    (hP : honestPoints f B g π c z delta x = honestPoints f B g π c' z delta x)
    (hS : honestVectors s π c z delta x e = honestVectors s π c' z delta x e) : c = c' := by
  have hd : c.d = c'.d := funext fun i => add_left_cancel (congrFun (congrArg (·.x) hS) i)
  have hu : c.u = c'.u := add_left_cancel (congrArg (·.v) hS)
  have hd₂ : c.hint2.d = c'.hint2.d :=
    funext fun i => add_left_cancel (congrFun (congrArg (·.f) hS) i)
  have hrZ : c.rZ = c'.rZ := blinding_unique hB (congrArg (·.cZ) hP)
  have hrPi : c.rPi = c'.rPi := blinding_unique hB (congrArg (·.cPi) hP)
  have hrD : c.rD = c'.rD := by
    have h : pedersen f B c.d c.rD = pedersen f B c'.d c'.rD := congrArg (·.cD) hP
    rw [hd] at h
    exact blinding_unique hB h
  have hu₂ : c.u2 = c'.u2 := by
    have h : (s * c.rZ + c.rD) * delta + c.u2 = (s * c'.rZ + c'.rD) * delta + c'.u2 :=
      congrArg (·.v2) hS
    rw [hrZ, hrD] at h
    exact add_left_cancel h
  have hrD₂ : c.hint2.rD = c'.hint2.rD := by
    have h : e * (c.rZ + c.rPi * delta) + c.hint2.rD = e * (c'.rZ + c'.rPi * delta) + c'.hint2.rD :=
      congrArg (·.psiZ) hS
    rw [hrZ, hrPi] at h
    exact add_left_cancel h
  have hblind : c.hint2.blind = c'.hint2.blind := funext fun i => by
    have h := seq_blind s π c z delta x hn he i.2
    have h' := seq_blind s π c' z delta x hn he i.2
    simp only [← honestVectors_toScalars] at h h'
    rw [hS, ← h', seq_coe, seq_coe] at h
    exact h
  have hdelta : c.hint2.delta = c'.hint2.delta := funext fun j => by
    have h := congrFun hblind ⟨j + 1, by omega⟩
    have hj : (j : ℕ) + 1 + 1 ≠ n := by omega
    simpa [KnownContentCoins.blind, hj] using h
  have hcross : honestCross π c z delta x = honestCross π c' z delta x := by
    unfold honestCross
    rw [hblind, hd₂]
  have hrA : c.hint2.rA = c'.hint2.rA := by
    have h : pedersen f B (padLast (honestCross π c z delta x)) c.hint2.rA =
        pedersen f B (padLast (honestCross π c' z delta x)) c'.hint2.rA := congrArg (·.psiCA) hP
    rw [hcross] at h
    exact blinding_unique hB h
  have hrDelta : c.hint2.rDelta = c'.hint2.rDelta := by
    have h : e * c.hint2.rA + c.hint2.rDelta = e * c'.hint2.rA + c'.hint2.rDelta :=
      congrArg (·.psiZDelta) hS
    rw [hrA] at h
    exact add_left_cancel h
  exact AdaptedShuffleCoins.ext hd hrD hrPi hrZ hu hu₂
    (KnownContentCoins.ext hd₂ hdelta hrD₂ hrDelta hrA)

/-- Coins of the inner argument whose blinding values are what the recursion leaves. -/
def recoveredHint (π : Equiv.Perm (Fin n)) (z : Fin n → Scalar) (delta x e : Scalar)
    (S : ShuffleVectors n) (rD rDelta rA : Scalar) : KnownContentCoins n where
  d i := S.f i - e * zRho z delta (π i)
  delta j := foldF e x (seq S.f) (seq S.fDelta) (j + 1) -
    e * partialProduct (seq (zRho z delta ∘ π)) x (j + 1)
  rD := rD
  rDelta := rDelta
  rA := rA

theorem recoveredHint_blind (hn : 2 ≤ n) {S : ShuffleVectors n} {rD rDelta rA : Scalar}
    (hprod : foldF e x (seq S.f) (seq S.fDelta) (n - 1) = e * ∏ i, (zRho z delta i - x)) {i : ℕ}
    (hi : i < n) : seq (recoveredHint π z delta x e S rD rDelta rA).blind i =
      foldF e x (seq S.f) (seq S.fDelta) i -
        e * partialProduct (seq (zRho z delta ∘ π)) x i := by
  rw [seq_of_lt _ hi, KnownContentCoins.blind]
  split
  · rename_i hlast
    obtain rfl : i = n - 1 := by simp only at hlast; omega
    rw [hprod, partialProduct_last _ _ _ (by omega), sub_self]
  · split
    · rename_i hfirst
      simp only at hfirst
      subst hfirst
      simp only [recoveredHint, foldF, partialProduct, zero_add, Finset.range_one,
        Finset.prod_singleton, seq_of_lt _ hi, Function.comp_apply]
      ring
    · rename_i hfirst
      simp only [recoveredHint, Nat.sub_add_cancel (Nat.pos_of_ne_zero hfirst)]

/-- The responses `f_Δ` that the recovered blinding values give. -/
theorem recoveredHint_cross (hn : 2 ≤ n) (he : e ≠ 0) {S : ShuffleVectors n}
    {rD rDelta rA : Scalar}
    (hprod : foldF e x (seq S.f) (seq S.fDelta) (n - 1) = e * ∏ i, (zRho z delta i - x)) {i : ℕ}
    (hi : i + 1 < n) :
    let hint := recoveredHint π z delta x e S rD rDelta rA
    e * crossSeq x (seq (zRho z delta ∘ π)) (seq hint.d) (seq hint.blind) i
      - seq hint.blind i * seq hint.d (i + 1) = seq S.fDelta i := by
  intro hint
  have hd : seq hint.d (i + 1) = seq S.f (i + 1) - e * seq (zRho z delta ∘ π) (i + 1) := by
    rw [seq_of_lt _ hi, seq_of_lt _ hi, seq_of_lt _ hi]
    rfl
  have hstep : partialProduct (seq (zRho z delta ∘ π)) x (i + 1) =
      partialProduct (seq (zRho z delta ∘ π)) x i * (seq (zRho z delta ∘ π) (i + 1) - x) :=
    Finset.prod_range_succ _ _
  rw [crossSeq, hd, recoveredHint_blind hn hprod hi, recoveredHint_blind hn hprod (by omega), foldF,
    hstep]
  field_simp
  ring

/-- **Every proof comes from some coins.** -/
theorem exists_coins (hgen : ∀ P : V, ∃ r : Scalar, P = r • B) (hn : 2 ≤ n) (he : e ≠ 0)
    {P : ShufflePoints V} {S : ShuffleVectors n}
    (heq : ShuffleEquations f B (s • B) g (fun i => s • g (π⁻¹ i)) z delta x e P S)
    (hlast : seq S.fDelta (n - 1) = 0) :
    ∃ coins, honestPoints f B g π coins z delta x = P ∧
      honestVectors s π coins z delta x e = S := by
  obtain ⟨rZ, hrZ⟩ := exists_blinding (f := f) hgen (z ∘ π) P.cZ
  obtain ⟨rPi, hrPi⟩ := exists_blinding (f := f) hgen (fun i => ((π i : ℕ) : Scalar)) P.cPi
  obtain ⟨rD, hrD⟩ := exists_blinding (f := f) hgen (fun i => S.x i - s * z (π i)) P.cD
  obtain ⟨rA, hrA⟩ := exists_blinding (f := f) hgen (padLast (crossSeq x (seq (zRho z delta ∘ π))
    (seq (recoveredHint π z delta x e S 0 0 0).d)
    (seq (recoveredHint π z delta x e S 0 0 0).blind))) P.psiCA
  let coins : AdaptedShuffleCoins n :=
    { d := fun i => S.x i - s * z (π i)
      rD := rD
      rPi := rPi
      rZ := rZ
      u := S.v - s * delta
      u2 := S.v2 - (s * rZ + rD) * delta
      hint2 := recoveredHint π z delta x e S (S.psiZ - e * (rZ + rPi * delta))
        (S.psiZDelta - e * rA) rA }
  have hS : honestVectors s π coins z delta x e = S := by
    refine ShuffleVectors.ext ?_ ?_ ?_ ?_ ?_ ?_ ?_
    · exact funext fun i => add_sub_cancel _ _
    · exact add_sub_cancel _ _
    · exact add_sub_cancel _ _
    · exact funext fun i => add_sub_cancel _ _
    · funext i
      simp only [honestVectors, padLast]
      split
      · rename_i hi
        rw [← seq_coe S.fDelta i, ← hlast]
        exact congrArg _ (by omega)
      · rw [← seq_coe S.fDelta i]
        exact recoveredHint_cross hn he heq.product (by omega)
    · exact add_sub_cancel _ _
    · exact add_sub_cancel _ _
  have hhonest : ShuffleEquations f B (s • B) g (fun i => s • g (π⁻¹ i)) z delta x e
      (honestPoints f B g π coins z delta x) (honestVectors s π coins z delta x e) :=
    honest_shuffleEquations s π coins hn
  rw [hS] at hhonest
  -- the points left are the ones that the equations determine
  have hcPi : (honestPoints f B g π coins z delta x).cPi = P.cPi := hrPi
  have hcD : (honestPoints f B g π coins z delta x).cD = P.cD := hrD
  have hcZ : (honestPoints f B g π coins z delta x).cZ = P.cZ := hrZ
  have hcA : (honestPoints f B g π coins z delta x).psiCA = P.psiCA := hrA
  refine ⟨coins, ShufflePoints.ext hcPi hcD ?_ hcZ ?_ ?_ ?_ ?_ hcA, hS⟩
  · exact hhonest.shuffle.trans heq.shuffle.symm
  · exact add_right_cancel (hhonest.key.symm.trans heq.key)
  · have h := hhonest.com3.trans heq.com3.symm
    rw [hcZ, hcD] at h
    exact add_left_cancel (sub_left_inj.mp h)
  · have h := hhonest.com1.trans heq.com1.symm
    rw [hcZ, hcPi] at h
    exact add_left_cancel h
  · have h := hhonest.com2.trans heq.com2.symm
    rw [hcA] at h
    exact add_left_cancel h

end Module

/-! ### The source's prover -/

theorem encodeProof_injective {G : Type} [PointEncoding G] {P P' : ShufflePoints G}
    {S S' : ShuffleScalars}
    (h : encodeProof P S = encodeProof P' S') : P = P' ∧ S = S' := by
  simp only [encodeProof, AdaptedShuffleProof.mk.injEq, KnownContentProof.mk.injEq,
    compress_injective.eq_iff] at h
  obtain ⟨h₁, h₂, h₃, h₄, h₅, h₆, h₇, h₈, h₉, h₁₀, h₁₁, h₁₂, h₁₃, h₁₄, h₁₅, h₁₆⟩ := h
  exact ⟨ShufflePoints.ext h₁ h₂ h₃ h₄ h₅ h₆ h₁₀ h₁₁ h₁₂,
    ShuffleScalars.ext h₇ h₈ h₉ h₁₃ h₁₄ h₁₅ h₁₆⟩

section Source

variable {G : Type} [AddCommGroup G] [BasePoint G] [PointEncoding G] {n : ℕ}

/-- Preprocessing and proving, for challenges fixed in advance. -/
def honestRun (pp : PublicParams G) (g : Fin n → G) (s : Scalar) (π : Equiv.Perm (Fin n))
    (z : Fin n → Scalar) (delta x e : Scalar) (coins : AdaptedShuffleCoins n) :
    Run AdaptedShuffleProof := do
  let hint ← proveShuffleAdaptedPreprocess pp (permList π) n coins
  proveShuffleAdaptedWith (Challenger.fixed z delta x e) pp hint (List.ofFn g) s (permList π)

/-- The proofs of a statement whose points and scalars satisfy the unbatched equations, with
`psi.f_delta[n-1] = 0`. -/
def satisfyingProofs (pp : PublicParams G) (pk : G) (g h : List G) (z : List Scalar)
    (delta x e : Scalar) : Set AdaptedShuffleProof :=
  {proof | ∃ (P : ShufflePoints G) (S : ShuffleScalars), proof = encodeProof P S ∧
    UnbatchedEquations pp pk g h z delta x e P S ∧ S.fDelta[g.length - 1]? = some 0}

theorem honestRun_eq [Module Scalar G] {pp : PublicParams G} {f : Fin n → G}
    (hf : pp.f = List.ofFn f) (hn : n ≠ 0) (g : Fin n → G) (s : Scalar) (π : Equiv.Perm (Fin n))
    (z : Fin n → Scalar) (delta x e : Scalar) (coins : AdaptedShuffleCoins n) :
    honestRun pp g s π z delta x e coins =
      .ok (encodeProof (honestPoints f basepoint g π coins z delta x)
        (honestScalars s π coins z delta x e)) := by
  obtain ⟨z', delta', x', e', hrun, rfl, rfl, rfl, rfl⟩ := proveShuffleAdaptedWith_eq
    (φ := AddMonoidHom.id G) hf rfl hn (Challenger.fixed z delta x e) g s π coins
  exact hrun

/-- The coins and the satisfying proofs are in bijection. -/
theorem bijOn_honestRun [Module Scalar G] (hgen : ∀ P : G, ∃ r : Scalar, P = r • basepoint)
    (hB : (basepoint : G) ≠ 0) {pp : PublicParams G} (hf : pp.f.length = n) (hn : 2 ≤ n)
    (g : Fin n → G) (s : Scalar) (π : Equiv.Perm (Fin n)) (z : Fin n → Scalar) (delta x : Scalar)
    {e : Scalar} (he : e ≠ 0) :
    Set.BijOn (honestRun pp g s π z delta x e) Set.univ (Except.ok '' satisfyingProofs pp
      (mulBase s) (List.ofFn g) (shuffled s π g) (List.ofFn z) delta x e) := by
  obtain ⟨f, hf⟩ : ∃ f : Fin n → G, pp.f = List.ofFn f := by
    subst hf
    exact ⟨fun i => pp.f[i], by simp⟩
  have hiff : ∀ (P : ShufflePoints G) (S : ShuffleVectors n),
      UnbatchedEquations pp (s • basepoint) (List.ofFn g) (List.ofFn fun i => s • g (π⁻¹ i))
        (List.ofFn z) delta x e P S.toScalars ↔
      ShuffleEquations f basepoint (s • basepoint) g (fun i => s • g (π⁻¹ i)) z delta x e P S :=
    fun P S => unbatchedEquations_iff (φ := AddMonoidHom.id G) Function.injective_id hf rfl
      (by omega)
  have hpk : (mulBase s : G) = s • basepoint := mulScalar_eq_smul _ _
  have hh : shuffled s π g = List.ofFn fun i => s • g (π⁻¹ i) :=
    congrArg List.ofFn (funext fun i => mulScalar_eq_smul _ _)
  rw [hpk, hh]
  refine ⟨fun coins _ => ?_, fun c _ c' _ h => ?_, ?_⟩
  · rw [honestRun_eq hf (by omega)]
    refine ⟨_, ⟨_, _, rfl, (hiff _ _).mpr (honest_shuffleEquations s π coins hn), ?_⟩, rfl⟩
    have hlast : (⟨n - 1, by omega⟩ : Fin n).val + 1 = n := by simp only; omega
    simp [honestVectors, ShuffleVectors.toScalars, padLast, Nat.sub_add_cancel (by omega : 1 ≤ n),
      (by omega : 0 < n)]
  · rw [honestRun_eq hf (by omega), honestRun_eq hf (by omega), Except.ok.injEq] at h
    obtain ⟨hP, hS⟩ := encodeProof_injective h
    exact honest_injective hB hn he hP (toScalars_injective hS)
  · rintro _ ⟨_, ⟨P, S, rfl, heq, hlast⟩, rfl⟩
    obtain ⟨hx, hSf, hd⟩ := heq.lengths
    have hlen : pp.f.length = n := by rw [hf, List.length_ofFn]
    obtain ⟨S, rfl⟩ := exists_toScalars (hx.trans hlen) (hSf.trans hlen) (hd.trans hlen)
    have hlast' : seq S.fDelta (n - 1) = 0 := by
      rw [List.length_ofFn] at hlast
      rw [seq, List.getD_eq_getElem?_getD]
      exact congrArg (·.getD 0) hlast
    obtain ⟨coins, rfl, rfl⟩ := exists_coins hgen hn he ((hiff P S).mp heq) hlast'
    exact ⟨coins, trivial, honestRun_eq hf (by omega) g s π z delta x e coins⟩

/-- **Perfect zero knowledge.**  In a group of order `ℓ` that `B` generates, and for challenges with
`e ≠ 0`, the prover's coins and the proofs that satisfy the verifier's equations are in bijection.
So two witnesses of one statement give the same proofs, up to a permutation of the coins. -/
theorem honestRun_bijOn (hcard : Nat.card G = ℓ) (hB : (basepoint : G) ≠ 0) {pp : PublicParams G}
    (hf : pp.f.length = n) (hn : 2 ≤ n) (g : Fin n → G) (s : Scalar) (π : Equiv.Perm (Fin n))
    (z : Fin n → Scalar) (delta x : Scalar) {e : Scalar} (he : e ≠ 0) :
    Set.BijOn (honestRun pp g s π z delta x e) Set.univ (Except.ok '' satisfyingProofs pp
      (mulBase s) (List.ofFn g) (shuffled s π g) (List.ofFn z) delta x e) ∧
    ∀ (s' : Scalar) (π' : Equiv.Perm (Fin n)), (mulBase s' : G) = mulBase s →
      shuffled s' π' g = shuffled s π g →
      ∃ σ : Equiv.Perm (AdaptedShuffleCoins n), ∀ coins,
        honestRun pp g s' π' z delta x e coins = honestRun pp g s π z delta x e (σ coins) := by
  let _ : Module Scalar G := AddCommGroup.zmodModule fun P => by
    rw [← hcard]
    exact card_nsmul_eq_zero'
  have hbij := fun s π => bijOn_honestRun (exists_smul_eq hcard hB) hB hf hn g s π z delta x he
  refine ⟨hbij s π, fun s' π' hpk hh => ?_⟩
  have h := hbij s π
  have h' := hbij s' π'
  rw [hpk, hh] at h'
  refine ⟨(Equiv.Set.univ _).symm.trans
    ((h'.equiv _).trans ((h.equiv _).symm.trans (Equiv.Set.univ _))), fun coins => ?_⟩
  have hσ := (h.equiv _).apply_symm_apply ((h'.equiv _) ⟨coins, trivial⟩)
  exact (congrArg Subtype.val hσ).symm

end Source

/-- The points and generators of a run on two points. -/
theorem honestRun_bijOn_two :
    let pp : PublicParams (primeSubgroup EdwardsPoint) := setupParams [1, 2]
    let g : Fin 2 → primeSubgroup EdwardsPoint := ![basepoint, basepoint]
    Set.BijOn (honestRun pp g 3 1 ![4, 5] 6 7 1) Set.univ (Except.ok '' satisfyingProofs pp
      (mulBase 3) (List.ofFn g) (shuffled 3 1 g) (List.ofFn ![4, 5]) 6 7 1) ∧
    ∀ (s' : Scalar) (π' : Equiv.Perm (Fin 2)),
      (mulBase s' : primeSubgroup EdwardsPoint) = mulBase 3 →
      shuffled s' π' g = shuffled 3 1 g →
      ∃ σ : Equiv.Perm (AdaptedShuffleCoins 2), ∀ coins,
        honestRun pp g s' π' ![4, 5] 6 7 1 coins = honestRun pp g 3 1 ![4, 5] 6 7 1 (σ coins) :=
  honestRun_bijOn EdwardsPoint.card_primeSubgroup basepoint_ne_zero_subgroup rfl le_rfl _ _ _ _ _ _
    one_ne_zero

end MaliciousPsu
