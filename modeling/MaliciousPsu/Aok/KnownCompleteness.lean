import MaliciousPsu.Aok.Honest
import MaliciousPsu.Edwards

/-!
# Completeness of the known-content argument

What `verify_shuffle_known` accepts, and that it accepts an honest proof.  The commitments of an
honest proof open at every size; the recursion `F_i` starts from `Δ_0 = d_0` and ends at
`Δ_{n-1} = 0`, which for one scalar are the same entry, the second assignment the one that stays.

* `verifyShuffleKnownWith_iff`: what one batching scalar accepts.
* `verifyShuffleKnown_iff`: what every batching scalar accepts.
* `knownRun_iff`: an honest proof is accepted, except for a single scalar whose `d` is not `0`.
-/

namespace MaliciousPsu

section Verifier

variable {G : Type} [AddCommGroup G] [BasePoint G] [DecidableEq G] [PointEncoding G] {V : Type}
  [AddCommGroup V] [Module Scalar V] {φ : V →+ G} {B : V} {n : ℕ} {pp : PublicParams G}
  {f : Fin n → V} {ch : KnownChallenger} {m : Fin n → Scalar} {c : V} {proof : KnownContentProof}
  {F FDelta : Fin n → Scalar} {cD cDelta cA : V}

variable (ch m c) in
/-- What the verifier accepts under one batching scalar. -/
theorem verifyShuffleKnownWith_iff (hφ : Function.Injective φ)
    (hf : pp.f = List.ofFn fun i => φ (f i)) (hB : φ B = basepoint) (hF : proof.f = List.ofFn F)
    (hFDelta : proof.fDelta = List.ofFn FDelta) (hcD : decompress proof._cD = some (φ cD))
    (hcDelta : decompress proof._cDelta = some (φ cDelta))
    (hcA : decompress proof._cA = some (φ cA)) (alpha : Scalar) :
    let x := ch.x (compress (φ c)) (List.ofFn m)
    let e := ch.e (compress (φ c)) (List.ofFn m) proof._cD proof._cDelta proof._cA
    verifyShuffleKnownWith ch pp (List.ofFn m) (φ c) proof alpha = .ok true ↔
      alpha • (e • c + cD) + (e • cA + cDelta) =
        pedersen f B (fun i => alpha * F i + FDelta i) (proof.z * alpha + proof.zDelta) ∧
      recomputeF e x proof.f proof.fDelta (n - 1) = .ok (e * knownProduct (List.ofFn m) x) := by
  intro x e
  have hsum : List.zipWith (fun fi fDeltai => alpha * fi + fDeltai) proof.f proof.fDelta =
      List.ofFn fun i => alpha * F i + FDelta i := by
    rw [hF, hFDelta]
    exact List.ext_getElem (by simp) fun i _ _ => by simp
  have hlhs : mulScalar (mulScalar (φ c) e + φ cD) alpha + mulScalar (φ cA) e + φ cDelta =
      φ (alpha • (e • c + cD) + (e • cA + cDelta)) := by
    rw [mulScalar_map, ← map_add, mulScalar_map, mulScalar_map, ← map_add, ← map_add, add_assoc]
  simp only [verifyShuffleKnownWith, hcD, hcDelta, hcA, unwrap_some, ok_bind, hsum,
    commit_map φ hf hB, List.length_ofFn]
  rw [hlhs]
  constructor
  · intro h
    split at h
    · cases h
    rename_i hlhs
    obtain ⟨_f, hrec, h⟩ := bind_eq_ok.mp h
    split at h
    · cases h
    rename_i hprod
    rw [not_not] at hlhs hprod
    exact ⟨hφ hlhs, hprod ▸ hrec⟩
  · rintro ⟨hlhs, hrec⟩
    rw [if_neg (not_not.mpr (congrArg φ hlhs)), show recomputeF _ _ _ _ _ = _ from hrec, ok_bind,
      if_neg (not_not.mpr rfl)]
    rfl

/-- **What the verifier accepts under every batching scalar.** -/
theorem verifyShuffleKnown_iff (hφ : Function.Injective φ)
    (hf : pp.f = List.ofFn fun i => φ (f i)) (hB : φ B = basepoint) (hF : proof.f = List.ofFn F)
    (hFDelta : proof.fDelta = List.ofFn FDelta) (hcD : decompress proof._cD = some (φ cD))
    (hcDelta : decompress proof._cDelta = some (φ cDelta))
    (hcA : decompress proof._cA = some (φ cA)) :
    let x := ch.x (compress (φ c)) (List.ofFn m)
    let e := ch.e (compress (φ c)) (List.ofFn m) proof._cD proof._cDelta proof._cA
    (∀ alpha, verifyShuffleKnownWith ch pp (List.ofFn m) (φ c) proof alpha = .ok true) ↔
      e • c + cD = pedersen f B F proof.z ∧ e • cA + cDelta = pedersen f B FDelta proof.zDelta ∧
      recomputeF e x proof.f proof.fDelta (n - 1) = .ok (e * knownProduct (List.ofFn m) x) := by
  intro x e
  have hone := verifyShuffleKnownWith_iff ch m c hφ hf hB hF hFDelta hcD hcDelta hcA
  constructor
  · intro h
    obtain ⟨h₀, hrec⟩ := (hone 0).mp (h 0)
    obtain ⟨h₁, -⟩ := (hone 1).mp (h 1)
    -- the scalar 0 leaves the second equation, and 1 adds the first to it
    simp only [zero_smul, zero_add, zero_mul, mul_zero] at h₀
    rw [h₀, ← eq_sub_iff_add_eq, pedersen_sub] at h₁
    exact ⟨by simpa using h₁, h₀, hrec⟩
  · rintro ⟨h₁, h₂, hrec⟩ alpha
    refine (hone alpha).mpr ⟨?_, hrec⟩
    rw [show e • c + cD = _ from h₁, show e • cA + cDelta = _ from h₂, smul_pedersen, pedersen_add,
      mul_comm proof.z]

end Verifier

/-! ### The honest run -/

/-- `prove_shuffle_known_preprocess`, the commitment to the shuffled scalars, `prove_shuffle_known`
and `verify_shuffle_known`, on the coins of the prover and the batching scalar of the verifier. -/
def knownRun {G : Type} [AddCommGroup G] [BasePoint G] [DecidableEq G] [PointEncoding G]
    (O : Oracles) (pp : PublicParams G) {n : ℕ} (m : List Scalar) (pi : List ℕ) (r : Scalar)
    (coins : KnownContentCoins n) (alpha : Scalar) : Run Bool := do
  let hint ← proveShuffleKnownPreprocess pp n coins
  let c ← commit pp (← pi.mapM (idx m)) r
  let proof ← proveShuffleKnown O pp hint m c pi r
  verifyShuffleKnown O pp m c proof alpha

section Honest

variable {G : Type} [AddCommGroup G] [BasePoint G] [DecidableEq G] [PointEncoding G]
  {pp : PublicParams G} {n : ℕ}

/-- The commitments of an honest proof open, so that the recursion decides. -/
theorem knownRun_eq_ok (O : Oracles) (hf : pp.f.length = n) (hn : n ≠ 0) (m : Fin n → Scalar)
    (π : Equiv.Perm (Fin n)) (r : Scalar) (coins : KnownContentCoins n) (alpha : Scalar) :
    ∃ x e, let S := honestScalars 0 π { AdaptedShuffleCoins.zero n with hint2 := coins } m 0 x e
      knownRun O pp (List.ofFn m) (permList π) r coins alpha = .ok true ↔
        recomputeF e x S.f S.fDelta (n - 1) = .ok (e * knownProduct (List.ofFn m) x) := by
  obtain ⟨f, hf⟩ := exists_ofFn_of_mem hf pp.f_mem
  let φ := (primeSubgroup G).subtype
  have hφ : Function.Injective φ := Subtype.val_injective
  have hB : φ basepoint = basepoint := rfl
  have hpi : (permList π).mapM (idx (List.ofFn m)) = .ok (List.ofFn (m ∘ π)) :=
    mapM_ofFn fun i => by simp
  have hzRho : zRho m 0 = m := by
    funext i
    simp [zRho]
  let ch := KnownChallenger.hash O
  let c := pedersen f basepoint (m ∘ π) r
  let cD := pedersen f basepoint coins.d coins.rD
  let cDelta := pedersen f basepoint
    (padLast fun i => -seq coins.blind i * seq coins.d (i + 1)) coins.rDelta
  let x := ch.x (compress (φ c)) (List.ofFn m)
  let cross := crossSeq x (seq (m ∘ π)) (seq coins.d) (seq coins.blind)
  let cA := pedersen f basepoint (padLast cross) coins.rA
  let e := ch.e (compress (φ c)) (List.ofFn m) (compress (φ cD)) (compress (φ cDelta))
    (compress (φ cA))
  refine ⟨x, e, ?_⟩
  have hrun : knownRun O pp (List.ofFn m) (permList π) r coins alpha =
      verifyShuffleKnown O pp (List.ofFn m) (φ c)
        { _cD := compress (φ cD)
          _cDelta := compress (φ cDelta)
          _cA := compress (φ cA)
          f := List.ofFn fun i => e * m (π i) + coins.d i
          fDelta := List.ofFn (n := n) (padLast fun i =>
            e * cross i - seq coins.blind i * seq coins.d (i + 1))
          z := e * r + coins.rD
          zDelta := e * coins.rA + coins.rDelta } alpha := by
    simp only [knownRun, hpi, proveShuffleKnownPreprocess_eq hf hB hn, ok_bind, commit_map _ hf hB,
      proveShuffleKnown]
    rw [proveShuffleKnownWith_eq hf hB hn _ rfl rfl]
    rfl
  have hdecompress : ∀ P : primeSubgroup G, decompress (compress (φ P)) = some (φ P) :=
    fun P => PointEncoding.decompress_compress _
  have hopen : alpha • (e • c + cD) + (e • cA + cDelta) = pedersen f basepoint
      (fun i => alpha * (e * m (π i) + coins.d i) + (padLast fun i =>
        e * cross i - seq coins.blind i * seq coins.d (i + 1)) i)
      ((e * r + coins.rD) * alpha + (e * coins.rA + coins.rDelta)) := by
    simp only [c, cD, cA, cDelta, smul_pedersen, pedersen_add]
    congr 1
    · funext i
      simp only [padLast, Function.comp_apply]
      split <;> ring
    · ring
  rw [hrun]
  refine (verifyShuffleKnownWith_iff _ _ _ hφ hf hB rfl rfl (hdecompress cD) (hdecompress cDelta)
    (hdecompress cA) alpha).trans ((and_iff_right hopen).trans ?_)
  simp only [honestScalars, honestCross, hzRho]
  rfl

/-- **Completeness, and the size at which it fails.**  An honest proof of `n ≥ 1` scalars is
accepted exactly when `n` is not `1` or the one scalar `d` of the hint is `0`. -/
theorem knownRun_iff (O : Oracles) (hf : pp.f.length = n) (hn : 1 ≤ n) (m : Fin n → Scalar)
    (π : Equiv.Perm (Fin n)) (r : Scalar) (coins : KnownContentCoins n) (alpha : Scalar) :
    knownRun O pp (List.ofFn m) (permList π) r coins alpha = .ok true ↔
      (n = 1 → ∀ i, coins.d i = 0) := by
  obtain ⟨x, e, hrun⟩ := knownRun_eq_ok O hf (by omega) m π r coins alpha
  have hprod := honest_product_iff 0 π { AdaptedShuffleCoins.zero n with hint2 := coins } m 0 x e
    (by omega)
  have hzRho : zRho m 0 = m := by
    funext i
    simp [zRho]
  rw [hzRho] at hprod
  exact hrun.trans hprod

end Honest

/-- Two scalars, swapped. -/
theorem knownRun_iff_two :
    let coins : KnownContentCoins 2 := ⟨fun _ => 1, fun _ => 0, 0, 0, 0⟩
    knownRun Oracles.reading (setupParams [1, 2] : PublicParams EdwardsPoint)
      (List.ofFn ![7, 9]) (permList (Equiv.swap (0 : Fin 2) 1)) 5 coins 6 = .ok true ↔
      (2 = 1 → ∀ i, coins.d i = 0) :=
  knownRun_iff Oracles.reading rfl (by decide) _ _ _ _ _

/-- **A single scalar** blinded by `d = 1`. -/
theorem knownRun_single :
    let coins : KnownContentCoins 1 := ⟨fun _ => 1, fun _ => 0, 0, 0, 0⟩
    knownRun Oracles.reading (setupParams [1] : PublicParams EdwardsPoint)
      [7] [0] 5 coins 6 ≠ .ok true := by
  intro coins haccept
  obtain ⟨x, e, hrun⟩ := knownRun_eq_ok Oracles.reading
    (show (setupParams [1] : PublicParams EdwardsPoint).f.length = 1 from rfl) one_ne_zero
    (fun _ => 7) 1 5 coins 6
  have hprod := honest_product_iff 0 1 { AdaptedShuffleCoins.zero 1 with hint2 := coins }
    (fun _ => 7) 0 x e one_ne_zero
  have hzRho : zRho (fun _ : Fin 1 => (7 : Scalar)) 0 = fun _ => 7 := by
    funext i
    simp [zRho]
  rw [hzRho] at hprod
  have hd : coins.d 0 = 0 := hprod.mp (hrun.mp haccept) rfl 0
  exact one_ne_zero hd

end MaliciousPsu
