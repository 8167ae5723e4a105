import MaliciousPsu.Aok.Completeness
import MaliciousPsu.Aok.Equations
import MaliciousPsu.Aok.KnownCompleteness
import MaliciousPsu.Lib.Hyperplane

/-!
# Batching and inlining

`verify_shuffle_adapted` runs `verify_shuffle_known` inline, with a transcript of its own, and
merges the two commitment equations of that argument with the one of the outer argument under two
random scalars, the last with coefficient 1 and its response on the other side.

* `verifyShuffleAdapted_iff`: what the verifier accepts under one pair of batching scalars.
* `plainChecks_iff`: what the plain checks say, one equation at a time.
* `verifyShuffleAdapted_batching`: plain checks that hold are accepted under every pair, and one
  that fails under `ℓ` of the `ℓ²` pairs at most.
* `plainChecks_spoil`: a proof that fails them and is accepted under some pairs.
-/

namespace MaliciousPsu

/-- The nine points of a proof decompress. -/
structure Decompresses {G : Type} [PointEncoding G] (proof : AdaptedShuffleProof)
    (P : ShufflePoints G) : Prop where
  cPi : decompress proof._cPi = some P.cPi
  cD : decompress proof._cD = some P.cD
  gD : decompress proof._gD = some P.gD
  cZ : decompress proof._cZ = some P.cZ
  gU : decompress proof._gU = some P.gU
  cU : decompress proof._cU = some P.cU
  psiCD : decompress proof.psi._cD = some P.psiCD
  psiCDelta : decompress proof.psi._cDelta = some P.psiCDelta
  psiCA : decompress proof.psi._cA = some P.psiCA

/-- The points that decompression finds are the only ones. -/
theorem Decompresses.unique {G : Type} [PointEncoding G] {proof : AdaptedShuffleProof}
    {P P' : ShufflePoints G} (hP : Decompresses proof P) (hP' : Decompresses proof P') : P' = P :=
  ShufflePoints.ext (Option.some.inj (hP'.cPi.symm.trans hP.cPi))
    (Option.some.inj (hP'.cD.symm.trans hP.cD)) (Option.some.inj (hP'.gD.symm.trans hP.gD))
    (Option.some.inj (hP'.cZ.symm.trans hP.cZ)) (Option.some.inj (hP'.gU.symm.trans hP.gU))
    (Option.some.inj (hP'.cU.symm.trans hP.cU)) (Option.some.inj (hP'.psiCD.symm.trans hP.psiCD))
    (Option.some.inj (hP'.psiCDelta.symm.trans hP.psiCDelta))
    (Option.some.inj (hP'.psiCA.symm.trans hP.psiCA))

section Plain

variable {G : Type} [AddCommGroup G] [DecidableEq G] [BasePoint G] [PointEncoding G]

/-- The checks one by one, for the challenges `z` and `delta`: the inner argument by
`verify_shuffle_known` itself, under every batching scalar. -/
structure PlainChecks (O : Oracles) (pp : PublicParams G) (pk : G) (g h : List G)
    (proof : AdaptedShuffleProof) (P : ShufflePoints G) (z zRho : List Scalar) (delta : Scalar) :
    Prop where
  known : ∀ alpha, verifyShuffleKnown O pp zRho (P.cZ + mulScalar P.cPi delta) proof.psi alpha =
    .ok true
  key : mulBase proof.v = P.gU + mulScalar pk delta
  opening : ∃ X, vartimeMultiscalarMul proof.x pp.f = .ok X ∧
    mulScalar P.cZ proof.v + mulScalar P.cD delta + P.cU = mulBase proof.v2 + mulScalar X delta
  shuffle : ∃ X Y, vartimeMultiscalarMul proof.x g = .ok X ∧ vartimeMultiscalarMul z h = .ok Y ∧
    P.gD = X - Y

end Plain

/-! ### On a module -/

section Module

variable {G : Type} [AddCommGroup G] [Module Scalar G] {n : ℕ}

theorem vartimeMultiscalarMul_ofFn (a : Fin n → Scalar) (v : Fin n → G) :
    vartimeMultiscalarMul (List.ofFn a) (List.ofFn v) = .ok (∑ i, a i • v i) :=
  vartimeMultiscalarMul_map (AddMonoidHom.id G) a v

variable [BasePoint G] {pp : PublicParams G} {f : Fin n → G}

theorem mulBase_eq_smul (s : Scalar) : (mulBase s : G) = s • basepoint := mulScalar_eq_smul _ s

theorem commit_ofFn (hf : pp.f = List.ofFn f) (m : Fin n → Scalar) (r : Scalar) :
    commit pp (List.ofFn m) r = .ok (pedersen f basepoint m r) :=
  commit_map (AddMonoidHom.id G) hf rfl m r

end Module

/-! ### The outer argument -/

section Outer

variable {G : Type} [AddCommGroup G] [Module Scalar G] [BasePoint G] [DecidableEq G]
  [PointEncoding G] {n : ℕ} {pp : PublicParams G} {f : Fin n → G} {ch : Challenger n} {pk : G}
  {g h : Fin n → G} {proof : AdaptedShuffleProof} {P : ShufflePoints G}
  {X F FDelta : Fin n → Scalar}

/-- What the three commitment equations are off by. -/
def excess (f : Fin n → G) (P : ShufflePoints G) (proof : AdaptedShuffleProof)
    (X F FDelta : Fin n → Scalar) (delta e : Scalar) : G × G × G :=
  (e • (P.cZ + delta • P.cPi) + P.psiCD - pedersen f basepoint F proof.psi.z,
    e • P.psiCA + P.psiCDelta - pedersen f basepoint FDelta proof.psi.zDelta,
    proof.v • P.cZ + delta • P.cD + P.cU - proof.v2 • basepoint -
      pedersen f basepoint (fun i => X i * delta) 0)

variable (ch pk g h) in
/-- **What the outer argument accepts under one pair of batching scalars.** -/
theorem verifyShuffleAdapted_iff (hf : pp.f = List.ofFn f)
    (hP : Decompresses proof P) (hX : proof.x = List.ofFn X) (hF : proof.psi.f = List.ofFn F)
    (hFDelta : proof.psi.fDelta = List.ofFn FDelta) (alpha1 alpha2 : Scalar) :
    let z := ch.z proof._cPi proof._cD proof._gD
    let delta := ch.delta proof._cPi proof._cD proof._gD proof.x proof._cZ proof._gU proof._cU
    let _cRho := compress (P.cZ + mulScalar P.cPi delta)
    let x := ch.psi.x _cRho (List.ofFn (zRho z delta))
    let e := ch.psi.e _cRho (List.ofFn (zRho z delta)) proof.psi._cD proof.psi._cDelta proof.psi._cA
    let E := excess f P proof X F FDelta delta e
    verifyShuffleAdaptedWith ch pp pk (List.ofFn g) (List.ofFn h) proof alpha1 alpha2 = .ok true ↔
      recomputeF e x proof.psi.f proof.psi.fDelta (n - 1) =
        .ok (e * knownProduct (List.ofFn (zRho z delta)) x) ∧
      mulBase proof.v = P.gU + mulScalar pk delta ∧
      alpha1 • E.1 + alpha2 • E.2.1 + E.2.2 = 0 ∧
      P.gD = ∑ i, X i • g i - ∑ i, z i • h i := by
  intro z delta _cRho x e E
  have hbatch : commit pp (fSum alpha1 alpha2 delta proof.psi.f proof.psi.fDelta proof.x)
      (proof.psi.z * alpha1 + proof.psi.zDelta * alpha2) =
    .ok (mulScalar (mulScalar (P.cZ + mulScalar P.cPi delta) e + P.psiCD) alpha1
      + mulScalar (mulScalar P.psiCA e + P.psiCDelta) alpha2
      + (mulScalar P.cZ proof.v + mulScalar P.cD delta + P.cU - mulBase proof.v2)) ↔
      alpha1 • E.1 + alpha2 • E.2.1 + E.2.2 = 0 := by
    rw [hX, hF, hFDelta, fSum_ofFn, commit_ofFn hf, Except.ok.injEq, eq_comm, ← sub_eq_zero]
    have hsplit : pedersen f basepoint
        (fun i => alpha1 * F i + alpha2 * FDelta i + X i * delta)
        (proof.psi.z * alpha1 + proof.psi.zDelta * alpha2) =
        alpha1 • pedersen f basepoint F proof.psi.z +
          alpha2 • pedersen f basepoint FDelta proof.psi.zDelta +
          pedersen f basepoint (fun i => X i * delta) 0 := by
      rw [smul_pedersen, smul_pedersen, pedersen_add, pedersen_add, add_zero, mul_comm alpha1,
        mul_comm alpha2]
    rw [hsplit]
    simp only [mulScalar_eq_smul, mulBase_eq_smul, E, excess, smul_sub]
    refine Eq.congr ?_ rfl
    abel
  have hshuffle : vartimeMultiscalarMul (proof.x ++ (List.ofFn z).map fun zi => -zi)
      (List.ofFn g ++ List.ofFn h) = .ok P.gD ↔ P.gD = ∑ i, X i • g i - ∑ i, z i • h i := by
    have hneg : (List.ofFn z).map (fun zi => -zi) = List.ofFn fun i => -z i := by
      rw [List.map_ofFn]
      rfl
    rw [hX, hneg, vartimeMultiscalarMul_append (vartimeMultiscalarMul_ofFn X g)
      (vartimeMultiscalarMul_ofFn _ h), Except.ok.injEq, eq_comm, sub_eq_add_neg,
      ← Finset.sum_neg_distrib]
    simp only [neg_smul]
  constructor
  · intro haccept
    obtain ⟨P', h₁, h₂, h₃, h₄, h₅, h₆, h₇, h₈, h₉, zr, hzr, hcheck⟩ :=
      verifyShuffleAdaptedWith_eq_ok.mp haccept
    obtain rfl := hP.unique ⟨h₁, h₂, h₃, h₄, h₅, h₆, h₇, h₈, h₉⟩
    rw [List.length_ofFn, zRhoList_ofFn, Except.ok.injEq] at hzr
    subst hzr
    obtain ⟨zr, hacc⟩ := checkShuffleAdapted_eq_ok.mp hcheck
    have hzr := hacc.zRho_eq
    rw [List.length_ofFn, zRhoList_ofFn, Except.ok.injEq] at hzr
    subst hzr
    have hprod := hacc.product
    rw [List.length_ofFn] at hprod
    exact ⟨hprod, hacc.key, hbatch.mp hacc.batch, hshuffle.mp hacc.shuffle⟩
  · rintro ⟨hprod, hkey, hzero, hgD⟩
    refine verifyShuffleAdaptedWith_eq_ok.mpr ⟨P, hP.cPi, hP.cD, hP.gD, hP.cZ, hP.gU, hP.cU,
      hP.psiCD, hP.psiCDelta, hP.psiCA, List.ofFn (zRho z delta), ?_, ?_⟩
    · rw [List.length_ofFn, zRhoList_ofFn]
    · refine checkShuffleAdapted_eq_ok.mpr ⟨List.ofFn (zRho z delta), ?_, ?_, hkey,
        hbatch.mpr hzero, hshuffle.mpr hgD⟩
      · rw [List.length_ofFn, zRhoList_ofFn]
      · rw [List.length_ofFn]
        exact hprod

/-- **The plain checks, one equation at a time.** -/
theorem plainChecks_iff {O : Oracles} {z : Fin n → Scalar} {delta : Scalar}
    (hf : pp.f = List.ofFn f) (hP : Decompresses proof P) (hX : proof.x = List.ofFn X)
    (hF : proof.psi.f = List.ofFn F) (hFDelta : proof.psi.fDelta = List.ofFn FDelta) :
    let _cRho := compress (P.cZ + mulScalar P.cPi delta)
    let ch := KnownChallenger.hash O
    let x := ch.x _cRho (List.ofFn (zRho z delta))
    let e := ch.e _cRho (List.ofFn (zRho z delta)) proof.psi._cD proof.psi._cDelta proof.psi._cA
    let E := excess f P proof X F FDelta delta e
    PlainChecks O pp pk (List.ofFn g) (List.ofFn h) proof P (List.ofFn z)
      (List.ofFn (zRho z delta)) delta ↔
      recomputeF e x proof.psi.f proof.psi.fDelta (n - 1) =
        .ok (e * knownProduct (List.ofFn (zRho z delta)) x) ∧
      mulBase proof.v = P.gU + mulScalar pk delta ∧
      (E.1 = 0 ∧ E.2.1 = 0 ∧ E.2.2 = 0) ∧
      P.gD = ∑ i, X i • g i - ∑ i, z i • h i := by
  intro _cRho ch x e E
  have hknown : (∀ alpha, verifyShuffleKnown O pp (List.ofFn (zRho z delta))
      (P.cZ + mulScalar P.cPi delta) proof.psi alpha = .ok true) ↔
      (E.1 = 0 ∧ E.2.1 = 0) ∧ recomputeF e x proof.psi.f proof.psi.fDelta (n - 1) =
        .ok (e * knownProduct (List.ofFn (zRho z delta)) x) := by
    have hcRho : P.cZ + delta • P.cPi = P.cZ + mulScalar P.cPi delta := by rw [mulScalar_eq_smul]
    refine (verifyShuffleKnown_iff (φ := AddMonoidHom.id G) (fun _ _ h => h) hf rfl hF hFDelta
      hP.psiCD hP.psiCDelta hP.psiCA).trans ?_
    simp only [E, excess, sub_eq_zero, and_assoc, hcRho]
    rfl
  have hopening : (∃ Y, vartimeMultiscalarMul proof.x pp.f = .ok Y ∧
      mulScalar P.cZ proof.v + mulScalar P.cD delta + P.cU =
        mulBase proof.v2 + mulScalar Y delta) ↔ E.2.2 = 0 := by
    have hsum : pedersen f basepoint (fun i => X i * delta) 0 = delta • ∑ i, X i • f i := by
      rw [pedersen, zero_smul, add_zero, Finset.smul_sum]
      exact Finset.sum_congr rfl fun i _ => by rw [smul_smul, mul_comm]
    rw [hX, hf, vartimeMultiscalarMul_ofFn]
    simp only [Except.ok.injEq, exists_eq_left', E, excess, hsum, mulScalar_eq_smul,
      mulBase_eq_smul]
    rw [sub_sub, sub_eq_zero]
  have hshuffle : (∃ Y Z, vartimeMultiscalarMul proof.x (List.ofFn g) = .ok Y ∧
      vartimeMultiscalarMul (List.ofFn z) (List.ofFn h) = .ok Z ∧ P.gD = Y - Z) ↔
      P.gD = ∑ i, X i • g i - ∑ i, z i • h i := by
    rw [hX, vartimeMultiscalarMul_ofFn, vartimeMultiscalarMul_ofFn]
    constructor
    · rintro ⟨Y, Z, hY, hZ, hgD⟩
      cases hY
      cases hZ
      exact hgD
    · intro hgD
      exact ⟨_, _, rfl, rfl, hgD⟩
  constructor
  · rintro ⟨h₁, hkey, h₂, h₃⟩
    obtain ⟨⟨e₁, e₂⟩, hrec⟩ := hknown.mp h₁
    exact ⟨hrec, hkey, ⟨e₁, e₂, hopening.mp h₂⟩, hshuffle.mp h₃⟩
  · rintro ⟨hrec, hkey, ⟨e₁, e₂, e₃⟩, h₃⟩
    exact ⟨hknown.mpr ⟨⟨e₁, e₂⟩, hrec⟩, hkey, hopening.mpr e₃, hshuffle.mpr h₃⟩

end Outer

/-! ### How many pairs accept -/

/-- An equation in a pair of scalars that does not vanish holds for `ℓ` of the `ℓ²` pairs at
most. -/
theorem ncard_pairs_le {V : Type} [AddCommGroup V] [Module Scalar V] {E : V × V × V} (hE : E ≠ 0) :
    {a : Scalar × Scalar | a.1 • E.1 + a.2 • E.2.1 + E.2.2 = 0}.ncard ≤ ℓ := by
  have hpairs : {a : Scalar × Scalar | a.1 • E.1 + a.2 • E.2.1 + E.2.2 = 0} =
      finTwoArrowEquiv Scalar ''
        {a : Fin 2 → Scalar | ∑ i, a i • ![E.1, E.2.1] i = -E.2.2} := by
    ext a
    rw [Set.mem_image_equiv]
    simp [finTwoArrowEquiv, eq_neg_iff_add_eq_zero]
  have hcount : ℓ * {a : Fin 2 → Scalar | ∑ i, a i • ![E.1, E.2.1] i = -E.2.2}.ncard ≤ ℓ ^ 2 := by
    have hcard : Fintype.card Scalar = ℓ := ZMod.card ℓ
    by_cases h₃ : E.2.2 = 0
    · -- the constant term vanishes, so a coefficient does not
      obtain ⟨j, hj⟩ : ∃ j : Fin 2, ![E.1, E.2.1] j ≠ 0 := by
        by_contra hall
        rw [not_exists] at hall
        exact hE (Prod.ext (not_not.mp (hall 0)) (Prod.ext (not_not.mp (hall 1)) h₃))
      have hle := card_mul_ncard_le (K := Scalar) (v := ![E.1, E.2.1]) hj (-E.2.2)
      rwa [hcard, Fintype.card_fin] at hle
    · have hle := card_mul_ncard_le_of_ne_zero (K := Scalar) (v := ![E.1, E.2.1])
        (neg_ne_zero.mpr h₃)
      rwa [hcard, Fintype.card_fin] at hle
  rw [hpairs, Set.ncard_image_of_injective _ (finTwoArrowEquiv Scalar).injective]
  rw [sq] at hcount
  exact Nat.le_of_mul_le_mul_left hcount prime_ℓ.pos

section Batching

variable {G : Type} [AddCommGroup G] [DecidableEq G] [BasePoint G] [PointEncoding G]

/-- **Batching and inlining lose no check.**  In a group of order `ℓ`, on vectors of the size of
the generators, plain checks that hold are accepted under every pair of batching scalars, and when
one of them fails `ℓ` of the `ℓ²` pairs accept at most. -/
theorem verifyShuffleAdapted_batching (hcard : Nat.card G = ℓ) (O : Oracles)
    {pp : PublicParams G} (pk : G) {g h : List G} (_g _h : List Bytes32)
    {proof : AdaptedShuffleProof} {P : ShufflePoints G} {n : ℕ}
    (hf : pp.f.length = n) (hg : g.length = n) (hh : h.length = n) (hx : proof.x.length = n)
    (hpsi : proof.psi.f.length = n) (hpsiDelta : proof.psi.fDelta.length = n)
    (hP : Decompresses proof P) :
    let ch := Challenger.hash O (compress pk) _g _h n
    let z := ch.z proof._cPi proof._cD proof._gD
    let delta := ch.delta proof._cPi proof._cD proof._gD proof.x proof._cZ proof._gU proof._cU
    let plain := PlainChecks O pp pk g h proof P (List.ofFn z) (List.ofFn (zRho z delta)) delta
    (plain → ∀ alpha1 alpha2,
      verifyShuffleAdapted O pp pk g h _g _h proof alpha1 alpha2 = .ok true) ∧
    (¬ plain → {a : Scalar × Scalar |
      verifyShuffleAdapted O pp pk g h _g _h proof a.1 a.2 = .ok true}.ncard ≤ ℓ) := by
  intro ch z delta plain
  have : Finite G := Nat.finite_of_card_ne_zero (hcard ▸ prime_ℓ.ne_zero)
  let _ : Module Scalar G := AddCommGroup.zmodModule fun P => hcard ▸ card_nsmul_eq_zero'
  obtain ⟨f, hf⟩ := exists_ofFn hf
  obtain ⟨g, rfl⟩ := exists_ofFn hg
  obtain ⟨h, rfl⟩ := exists_ofFn hh
  obtain ⟨X, hX⟩ := exists_ofFn hx
  obtain ⟨F, hF⟩ := exists_ofFn hpsi
  obtain ⟨FDelta, hFDelta⟩ := exists_ofFn hpsiDelta
  let E := excess f P proof X F FDelta delta (ch.psi.e (compress (P.cZ + mulScalar P.cPi delta))
    (List.ofFn (zRho z delta)) proof.psi._cD proof.psi._cDelta proof.psi._cA)
  have hplain : plain ↔ _ := plainChecks_iff hf hP hX hF hFDelta
  have hrun : verifyShuffleAdapted O pp pk (List.ofFn g) (List.ofFn h) _g _h proof =
      verifyShuffleAdaptedWith ch pp pk (List.ofFn g) (List.ofFn h) proof := by
    funext alpha1 alpha2
    rw [verifyShuffleAdapted, List.length_ofFn]
  have hverify := verifyShuffleAdapted_iff ch pk g h hf hP hX hF hFDelta
  rw [hrun]
  constructor
  · intro hall alpha1 alpha2
    obtain ⟨hrec, hkey, ⟨e₁, e₂, e₃⟩, hshuffle⟩ := hplain.mp hall
    have hzero : alpha1 • E.1 + alpha2 • E.2.1 + E.2.2 = 0 := by
      rw [show E.1 = 0 from e₁, show E.2.1 = 0 from e₂, show E.2.2 = 0 from e₃]
      simp
    exact (hverify alpha1 alpha2).mpr ⟨hrec, hkey, hzero, hshuffle⟩
  · intro hfails
    by_cases hE : E = 0
    · -- the check that fails is one that the batching leaves alone, and no pair is accepted
      refine (Set.ncard_le_ncard (t := ∅) ?_).trans (by simp)
      intro a ha
      obtain ⟨hrec, hkey, -, hshuffle⟩ := (hverify a.1 a.2).mp ha
      exact hfails (hplain.mpr ⟨hrec, hkey, ⟨congrArg (·.1) hE, congrArg (·.2.1) hE,
        congrArg (·.2.2) hE⟩, hshuffle⟩)
    · refine (Set.ncard_le_ncard ?_).trans (ncard_pairs_le hE)
      intro a ha
      obtain ⟨-, -, hzero, -⟩ := (hverify a.1 a.2).mp ha
      exact hzero

end Batching

/-! ### A proof that fails a batched equation only -/

/-- The proof with one more in the response to the first of the batched equations. -/
def AdaptedShuffleProof.spoil (proof : AdaptedShuffleProof) : AdaptedShuffleProof :=
  { proof with psi := { proof.psi with z := proof.psi.z + 1 } }

theorem Decompresses.spoil {G : Type} [PointEncoding G] {proof : AdaptedShuffleProof}
    {P : ShufflePoints G} (hP : Decompresses proof P) : Decompresses proof.spoil P :=
  ⟨hP.cPi, hP.cD, hP.gD, hP.cZ, hP.gU, hP.cU, hP.psiCD, hP.psiCDelta, hP.psiCA⟩

section Spoiled

variable {G : Type} [AddCommGroup G] [Module Scalar G] [BasePoint G] {n : ℕ}
  {pp : PublicParams G} {f : Fin n → G} {proof : AdaptedShuffleProof} {P : ShufflePoints G}
  {X F FDelta : Fin n → Scalar}

/-- The equation is off by the basepoint, and the others are what they were. -/
theorem excess_spoil (delta e : Scalar) : excess f P proof.spoil X F FDelta delta e =
    ((excess f P proof X F FDelta delta e).1 - basepoint,
      (excess f P proof X F FDelta delta e).2) := by
  have hpedersen : pedersen f basepoint F (proof.psi.z + 1) =
      pedersen f basepoint F proof.psi.z + basepoint := by
    rw [pedersen, pedersen, add_smul, one_smul, add_assoc]
  refine Prod.ext ?_ rfl
  rw [excess, excess]
  exact (congrArg _ hpedersen).trans (sub_add_eq_sub_sub _ _ _)

variable [DecidableEq G] [PointEncoding G] {pk : G} {g h : Fin n → G}

/-- **The plain checks turn the spoiled proof down**, the verifier does not under a pair that leaves
its equation out. -/
theorem plainChecks_spoil {O : Oracles} (_g _h : List Bytes32) (hB : (basepoint : G) ≠ 0)
    (hf : pp.f = List.ofFn f) (hP : Decompresses proof P) (hX : proof.x = List.ofFn X)
    (hF : proof.psi.f = List.ofFn F) (hFDelta : proof.psi.fDelta = List.ofFn FDelta) :
    let ch := Challenger.hash O (compress pk) _g _h n
    let z := ch.z proof._cPi proof._cD proof._gD
    let delta := ch.delta proof._cPi proof._cD proof._gD proof.x proof._cZ proof._gU proof._cU
    PlainChecks O pp pk (List.ofFn g) (List.ofFn h) proof P (List.ofFn z)
      (List.ofFn (zRho z delta)) delta →
    ¬ PlainChecks O pp pk (List.ofFn g) (List.ofFn h) proof.spoil P (List.ofFn z)
      (List.ofFn (zRho z delta)) delta ∧
      ∀ alpha2, verifyShuffleAdapted O pp pk (List.ofFn g) (List.ofFn h) _g _h proof.spoil 0
        alpha2 = .ok true := by
  intro ch z delta hplain
  have hX' : proof.spoil.x = List.ofFn X := hX
  have hF' : proof.spoil.psi.f = List.ofFn F := hF
  have hFDelta' : proof.spoil.psi.fDelta = List.ofFn FDelta := hFDelta
  obtain ⟨hrec, hkey, ⟨h₁, h₂, h₃⟩, hshuffle⟩ := (plainChecks_iff hf hP hX hF hFDelta).mp hplain
  constructor
  · intro hspoiled
    obtain ⟨-, -, ⟨h₁', -⟩, -⟩ := (plainChecks_iff hf hP.spoil hX' hF' hFDelta').mp hspoiled
    rw [excess_spoil] at h₁'
    exact hB ((sub_eq_zero.mp h₁').symm.trans h₁)
  · intro alpha2
    have hverify := verifyShuffleAdapted_iff ch pk g h hf hP.spoil hX' hF' hFDelta' 0 alpha2
    rw [verifyShuffleAdapted, List.length_ofFn]
    refine hverify.mpr ⟨hrec, hkey, ?_, hshuffle⟩
    rw [excess_spoil, zero_smul, zero_add]
    exact (congrArg₂ (alpha2 • · + ·) h₂ h₃).trans (by rw [smul_zero, add_zero])

end Spoiled
/-- An accepted proof decompresses. -/
theorem exists_decompresses {G : Type} [AddCommGroup G] [BasePoint G] [DecidableEq G]
    [PointEncoding G] {O : Oracles} {pp : PublicParams G} {pk : G} {g h : List G}
    {_g _h : List Bytes32} {proof : AdaptedShuffleProof} {alpha1 alpha2 : Scalar}
    (haccept : verifyShuffleAdapted O pp pk g h _g _h proof alpha1 alpha2 = .ok true) :
    ∃ P : ShufflePoints G, Decompresses proof P := by
  rw [verifyShuffleAdapted] at haccept
  obtain ⟨P, h₁, h₂, h₃, h₄, h₅, h₆, h₇, h₈, h₉, -⟩ := verifyShuffleAdaptedWith_eq_ok.mp haccept
  exact ⟨P, h₁, h₂, h₃, h₄, h₅, h₆, h₇, h₈, h₉⟩

/-- There are more than `ℓ` pairs. -/
theorem lt_ncard_univ : ℓ < (Set.univ : Set (Scalar × Scalar)).ncard := by
  rw [Set.ncard_univ, Nat.card_prod, Nat.card_zmod]
  exact lt_mul_self (by decide)

/-- Two points that are swapped: the honest proof, which passes the plain checks, and the spoiled
one, which does not and is accepted under some pairs, `ℓ` of the `ℓ²` at most. -/
theorem verifyShuffleAdapted_batching_two :
    let O := Oracles.reading
    let pp : PublicParams (primeSubgroup EdwardsPoint) := setupParams [1, 2]
    let pk : primeSubgroup EdwardsPoint := mulBase 3
    let g : Fin 2 → primeSubgroup EdwardsPoint := ![mulBase 5, mulBase 6]
    let h := shuffled 3 (Equiv.swap 0 1) g
    let _g := (List.ofFn g).map compress
    let _h := h.map compress
    let verify proof alpha1 alpha2 :=
      verifyShuffleAdapted O pp pk (List.ofFn g) h _g _h proof alpha1 alpha2
    ∃ proof P, Decompresses proof P ∧
      let ch := Challenger.hash O (compress pk) _g _h 2
      let z := ch.z proof._cPi proof._cD proof._gD
      let delta := ch.delta proof._cPi proof._cD proof._gD proof.x proof._cZ proof._gU proof._cU
      let plain proof := PlainChecks O pp pk (List.ofFn g) h proof P (List.ofFn z)
        (List.ofFn (zRho z delta)) delta
      (plain proof ∧ ∀ alpha1 alpha2, verify proof alpha1 alpha2 = .ok true) ∧
      ¬ plain proof.spoil ∧ (∀ alpha2, verify proof.spoil 0 alpha2 = .ok true) ∧
      {a : Scalar × Scalar | verify proof.spoil a.1 a.2 = .ok true}.ncard ≤ ℓ := by
  intro O pp pk g h _g _h verify
  have hf : pp.f.length = 2 := rfl
  have hlen : h.length = 2 := rfl
  have hg : ∀ i, g i ∈ primeSubgroup (primeSubgroup EdwardsPoint) := fun i =>
    mem_primeSubgroup.mpr (Subtype.ext (mem_primeSubgroup.mp (g i).2))
  obtain ⟨hint, proof, -, -, hx, hpsi, hpsiDelta, hverify⟩ := verifyShuffleAdapted_honest O hf
    two_ne_zero (Equiv.swap 0 1) 3 hg ⟨![1, 2], 3, 4, 5, 6, 7, ![8, 9], ![], 10, 11, 12⟩
  have haccept : ∀ alpha1 alpha2, verify proof alpha1 alpha2 = .ok true :=
    fun alpha1 alpha2 => (hverify alpha1 alpha2).mpr fun h => by omega
  obtain ⟨P, hP⟩ := exists_decompresses (haccept 0 0)
  have hbatching := verifyShuffleAdapted_batching EdwardsPoint.card_primeSubgroup O pk _g _h hf
    (List.length_ofFn (f := g)) hlen hx hpsi hpsiDelta hP
  have hx' : proof.spoil.x.length = 2 := hx
  have hpsi' : proof.spoil.psi.f.length = 2 := hpsi
  have hpsiDelta' : proof.spoil.psi.fDelta.length = 2 := hpsiDelta
  have hspoiled := verifyShuffleAdapted_batching EdwardsPoint.card_primeSubgroup O pk _g _h hf
    (List.length_ofFn (f := g)) hlen hx' hpsi' hpsiDelta' hP.spoil
  have hB : (basepoint : primeSubgroup EdwardsPoint) ≠ 0 := fun h =>
    EdwardsPoint.basepoint_ne_zero (congrArg Subtype.val h)
  refine ⟨proof, P, hP, ?_⟩
  intro ch z delta plain
  have hplain : plain proof := by
    by_contra hnot
    have hcount := hbatching.2 hnot
    have huniv : {a : Scalar × Scalar | verify proof a.1 a.2 = .ok true} = Set.univ :=
      Set.eq_univ_of_forall fun a => haccept a.1 a.2
    exact absurd (lt_ncard_univ.trans_le (huniv ▸ hcount)) (lt_irrefl ℓ)
  obtain ⟨X, hX⟩ := exists_ofFn hx
  obtain ⟨F, hF⟩ := exists_ofFn hpsi
  obtain ⟨FDelta, hFDelta⟩ := exists_ofFn hpsiDelta
  obtain ⟨f, hf⟩ := exists_ofFn hf
  obtain ⟨hnot, hsome⟩ := plainChecks_spoil _g _h hB hf hP hX hF hFDelta hplain
  exact ⟨⟨hplain, hbatching.1 hplain⟩, hnot, hsome, hspoiled.2 hnot⟩

end MaliciousPsu
