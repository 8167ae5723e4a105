import MaliciousPsu.Aok.Honest

/-!
# The equations behind the batched check

The verifier merges three commitment equations under two random scalars.  `UnbatchedEquations` are
the same checks one by one, in the terms of the source; `ShuffleEquations` are what they say on a
`ℤ/ℓ`-module, with vectors for the lists.

* `unbatchedEquations_iff`: the two agree.
* `shuffleEquations_of_accepted`: a well-sized proof that the check accepts under every pair of
  batching scalars satisfies them.
* `honest_shuffleEquations`: so does an honest proof.
-/

namespace MaliciousPsu

/-- The checks of `verify_shuffle_adapted`, with the commitment equations apart. -/
structure UnbatchedEquations {G : Type} [AddCommGroup G] [BasePoint G] (pp : PublicParams G)
    (pk : G) (g h : List G) (z : List Scalar) (delta x e : Scalar) (P : ShufflePoints G)
    (S : ShuffleScalars) : Prop where
  product : ∃ zRho, zRhoList g.length z delta = .ok zRho ∧
    recomputeF e x S.f S.fDelta (g.length - 1) = .ok (e * knownProduct zRho x)
  key : mulBase S.v = P.gU + mulScalar pk delta
  com1 : commit pp S.f S.psiZ = .ok (mulScalar (P.cZ + mulScalar P.cPi delta) e + P.psiCD)
  com2 : commit pp S.fDelta S.psiZDelta = .ok (mulScalar P.psiCA e + P.psiCDelta)
  com3 : commit pp (S.x.map fun xi => xi * delta) 0 =
    .ok (mulScalar P.cZ S.v + mulScalar P.cD delta + P.cU - mulBase S.v2)
  shuffle : vartimeMultiscalarMul (S.x ++ z.map fun zi => -zi) (g ++ h) = .ok P.gD

/-- The vectors that satisfy the equations have the size of the generators. -/
theorem UnbatchedEquations.lengths {G : Type} [AddCommGroup G] [BasePoint G] {pp : PublicParams G}
    {pk : G} {g h : List G} {z : List Scalar} {delta x e : Scalar} {P : ShufflePoints G}
    {S : ShuffleScalars} (heq : UnbatchedEquations pp pk g h z delta x e P S) :
    S.x.length = pp.f.length ∧ S.f.length = pp.f.length ∧ S.fDelta.length = pp.f.length :=
  ⟨by simpa using (commit_eq_ok.mp heq.com3).1, (commit_eq_ok.mp heq.com1).1,
    (commit_eq_ok.mp heq.com2).1⟩

/-- The vectors and scalars of a well-sized proof. -/
@[ext]
structure ShuffleVectors (n : ℕ) where
  x : Fin n → Scalar
  v : Scalar
  v2 : Scalar
  f : Fin n → Scalar
  fDelta : Fin n → Scalar
  psiZ : Scalar
  psiZDelta : Scalar

/-- The lists of a proof that carries these vectors. -/
def ShuffleVectors.toScalars {n : ℕ} (S : ShuffleVectors n) : ShuffleScalars where
  x := List.ofFn S.x
  v := S.v
  v2 := S.v2
  f := List.ofFn S.f
  fDelta := List.ofFn S.fDelta
  psiZ := S.psiZ
  psiZDelta := S.psiZDelta

theorem toScalars_injective {n : ℕ} {S S' : ShuffleVectors n} (h : S.toScalars = S'.toScalars) :
    S = S' := by
  simp only [ShuffleVectors.toScalars, ShuffleScalars.mk.injEq, List.ofFn_inj] at h
  obtain ⟨h₁, h₂, h₃, h₄, h₅, h₆, h₇⟩ := h
  exact ShuffleVectors.ext h₁ h₂ h₃ h₄ h₅ h₆ h₇

theorem exists_toScalars {n : ℕ} {S : ShuffleScalars} (hx : S.x.length = n) (hf : S.f.length = n)
    (hd : S.fDelta.length = n) : ∃ S' : ShuffleVectors n, S = S'.toScalars := by
  subst hx
  refine ⟨⟨fun i => S.x[i], S.v, S.v2, fun i => S.f[i], fun i => S.fDelta[i], S.psiZ, S.psiZDelta⟩,
    ShuffleScalars.ext ?_ rfl rfl ?_ ?_ rfl rfl⟩
  · exact List.ext_getElem (by simp [ShuffleVectors.toScalars]) fun i _ _ => by
      simp [ShuffleVectors.toScalars]
  · exact List.ext_getElem (by simp [ShuffleVectors.toScalars, hf]) fun i _ _ => by
      simp [ShuffleVectors.toScalars]
  · exact List.ext_getElem (by simp [ShuffleVectors.toScalars, hd]) fun i _ _ => by
      simp [ShuffleVectors.toScalars]

section Module

variable {V : Type} [AddCommGroup V] [Module Scalar V] {n : ℕ} (f : Fin n → V) (B : V)

/-- The checks on a module. -/
structure ShuffleEquations (pk : V) (g h : Fin n → V) (z : Fin n → Scalar) (delta x e : Scalar)
    (P : ShufflePoints V) (S : ShuffleVectors n) : Prop where
  product : foldF e x (seq S.f) (seq S.fDelta) (n - 1) = e * ∏ i, (zRho z delta i - x)
  key : S.v • B = P.gU + delta • pk
  com1 : e • (P.cZ + delta • P.cPi) + P.psiCD = pedersen f B S.f S.psiZ
  com2 : e • P.psiCA + P.psiCDelta = pedersen f B S.fDelta S.psiZDelta
  com3 : S.v • P.cZ + delta • P.cD + P.cU - S.v2 • B = pedersen f B (fun i => S.x i * delta) 0
  shuffle : P.gD = ∑ i, S.x i • g i - ∑ i, z i • h i

variable {f B} {pk : V} {g h : Fin n → V} {z : Fin n → Scalar} {delta x e : Scalar}
  {P : ShufflePoints V} {S : ShuffleVectors n}

theorem knownProduct_ofFn (m : Fin n → Scalar) (x : Scalar) :
    knownProduct (List.ofFn m) x = ∏ i, (m i - x) := by
  rw [knownProduct, List.map_ofFn, List.prod_ofFn]
  rfl

theorem product_iff (hn : n ≠ 0) :
    recomputeF e x (List.ofFn S.f) (List.ofFn S.fDelta) (n - 1) =
      .ok (e * knownProduct (List.ofFn (zRho z delta)) x) ↔
    foldF e x (seq S.f) (seq S.fDelta) (n - 1) = e * ∏ i, (zRho z delta i - x) := by
  rw [recomputeF_eq_ok, knownProduct_ofFn]
  simp only [List.length_ofFn]
  constructor
  · exact fun h => h.2.2
  · exact fun h => ⟨by omega, by omega, h⟩

section Source

variable {G : Type} [AddCommGroup G] {φ : V →+ G}

theorem shuffle_iff (hφ : Function.Injective φ) :
    vartimeMultiscalarMul (List.ofFn S.x ++ (List.ofFn z).map fun zi => -zi)
      ((List.ofFn fun i => φ (g i)) ++ List.ofFn fun i => φ (h i)) = .ok (φ P.gD) ↔
    P.gD = ∑ i, S.x i • g i - ∑ i, z i • h i := by
  have hneg : (List.ofFn z).map (fun zi => -zi) = List.ofFn fun i => -z i := by
    rw [List.map_ofFn]
    rfl
  rw [hneg, vartimeMultiscalarMul_append (vartimeMultiscalarMul_map φ S.x g)
    (vartimeMultiscalarMul_map φ (fun i => -z i) h), ← map_add, Except.ok.injEq, hφ.eq_iff,
    eq_comm, sub_eq_add_neg, ← Finset.sum_neg_distrib]
  simp only [neg_smul]

variable [BasePoint G] {pp : PublicParams G}

/-- **The checks of the source are the equations of the module.** -/
theorem unbatchedEquations_iff (hφ : Function.Injective φ) (hf : pp.f = List.ofFn fun i => φ (f i))
    (hB : φ B = basepoint) (hn : n ≠ 0) :
    UnbatchedEquations pp (φ pk) (List.ofFn fun i => φ (g i)) (List.ofFn fun i => φ (h i))
      (List.ofFn z) delta x e (P.map φ) S.toScalars ↔
    ShuffleEquations f B pk g h z delta x e P S := by
  have hx : (List.ofFn S.x).map (fun xi => xi * delta) = List.ofFn fun i => S.x i * delta := by
    rw [List.map_ofFn]
    rfl
  constructor
  · rintro ⟨⟨zr, hzr, hprod⟩, hkey, h₁, h₂, h₃, hshuffle⟩
    rw [List.length_ofFn, zRhoList_ofFn, Except.ok.injEq] at hzr
    subst hzr
    rw [List.length_ofFn] at hprod
    simp only [ShuffleVectors.toScalars, ShufflePoints.map, mulScalar_map, mulBase_map φ hB,
      ← map_add, ← map_sub, hx, commit_map φ hf hB, Except.ok.injEq] at hkey h₁ h₂ h₃ hshuffle
    exact ⟨(product_iff hn).mp hprod, hφ hkey, (hφ h₁).symm, (hφ h₂).symm, (hφ h₃).symm,
      (shuffle_iff hφ).mp hshuffle⟩
  · rintro ⟨hprod, hkey, h₁, h₂, h₃, hshuffle⟩
    refine ⟨⟨List.ofFn (zRho z delta), ?_, ?_⟩, ?_, ?_, ?_, ?_, (shuffle_iff hφ).mpr hshuffle⟩
    · rw [List.length_ofFn, zRhoList_ofFn]
    · rw [List.length_ofFn]
      exact (product_iff hn).mpr hprod
    all_goals simp only [ShuffleVectors.toScalars, ShufflePoints.map, mulScalar_map,
      mulBase_map φ hB, ← map_add, ← map_sub, hx, commit_map φ hf hB, hkey, h₁, h₂, h₃]

/-- **Acceptance under every pair of batching scalars.** -/
theorem shuffleEquations_of_accepted [DecidableEq G] (hφ : Function.Injective φ)
    (hf : pp.f = List.ofFn fun i => φ (f i)) (hB : φ B = basepoint) (hn : n ≠ 0)
    (haccept : ∀ alpha1 alpha2, checkShuffleAdapted pp (φ pk) (List.ofFn fun i => φ (g i))
      (List.ofFn fun i => φ (h i)) (P.map φ) S.toScalars (List.ofFn z) delta x e alpha1 alpha2 =
        .ok true) :
    ShuffleEquations f B pk g h z delta x e P S := by
  have hbatch : ∀ alpha1 alpha2 : Scalar,
      alpha1 • (e • (P.cZ + delta • P.cPi) + P.psiCD) + alpha2 • (e • P.psiCA + P.psiCDelta)
        + (S.v • P.cZ + delta • P.cD + P.cU - S.v2 • B) =
      pedersen f B (fun i => alpha1 * S.f i + alpha2 * S.fDelta i + S.x i * delta)
        (S.psiZ * alpha1 + S.psiZDelta * alpha2) := fun alpha1 alpha2 => by
    obtain ⟨_, hacc⟩ := checkShuffleAdapted_eq_ok.mp (haccept alpha1 alpha2)
    have h : commit pp (fSum alpha1 alpha2 delta (List.ofFn S.f) (List.ofFn S.fDelta)
        (List.ofFn S.x)) (S.psiZ * alpha1 + S.psiZDelta * alpha2) = _ := hacc.batch
    rw [fSum_ofFn, commit_map φ hf hB, Except.ok.injEq] at h
    simp only [ShufflePoints.map, mulScalar_map, mulBase_map φ hB, ← map_add, ← map_sub] at h
    exact (hφ h).symm
  have h₃ : S.v • P.cZ + delta • P.cD + P.cU - S.v2 • B =
      pedersen f B (fun i => S.x i * delta) 0 := by
    simpa using hbatch 0 0
  obtain ⟨zr, hacc⟩ := checkShuffleAdapted_eq_ok.mp (haccept 0 0)
  have hzr := hacc.zRho_eq
  rw [List.length_ofFn, zRhoList_ofFn, Except.ok.injEq] at hzr
  subst hzr
  have hprod := hacc.product
  have hkey := hacc.key
  rw [List.length_ofFn] at hprod
  simp only [ShuffleVectors.toScalars, ShufflePoints.map, mulScalar_map, mulBase_map φ hB,
    ← map_add] at hkey
  refine ⟨(product_iff hn).mp hprod, hφ hkey, ?_, ?_, h₃, (shuffle_iff hφ).mp hacc.shuffle⟩
  · have h := hbatch 1 0
    rw [h₃, ← eq_sub_iff_add_eq, pedersen_sub] at h
    simpa using h
  · have h := hbatch 0 1
    rw [h₃, ← eq_sub_iff_add_eq, pedersen_sub] at h
    simpa using h

end Source

/-! ### Honest proofs -/

section Honest

variable (s : Scalar) (π : Equiv.Perm (Fin n)) (coins : AdaptedShuffleCoins n)

/-- The vectors of an honest proof. -/
def honestVectors (z : Fin n → Scalar) (delta x e : Scalar) : ShuffleVectors n where
  x := fun i => s * z (π i) + coins.d i
  v := s * delta + coins.u
  v2 := (s * coins.rZ + coins.rD) * delta + coins.u2
  f := fun i => e * zRho z delta (π i) + coins.hint2.d i
  fDelta := padLast fun i =>
    e * honestCross π coins z delta x i - seq coins.hint2.blind i * seq coins.hint2.d (i + 1)
  psiZ := e * (coins.rZ + coins.rPi * delta) + coins.hint2.rD
  psiZDelta := e * coins.hint2.rA + coins.hint2.rDelta

theorem honestVectors_toScalars :
    (honestVectors s π coins z delta x e).toScalars = honestScalars s π coins z delta x e := rfl

/-- **An honest proof satisfies the equations.** -/
theorem honest_shuffleEquations (hn : 2 ≤ n) :
    ShuffleEquations f B (s • B) g (fun i => s • g (π⁻¹ i)) z delta x e
      (honestPoints f B g π coins z delta x) (honestVectors s π coins z delta x e) where
  product := (product_iff (by omega)).mp
    ((honest_product_iff s π coins z delta x e (by omega)).mpr fun h => by omega)
  key := by
    simp only [honestVectors, honestPoints]
    module
  com1 := honest_com1 (s := s)
  com2 := honest_com2 (s := s)
  com3 := honest_com3 (e := e)
  shuffle := by
    have h := honest_shuffle g s π coins z
    simp only [neg_smul, Finset.sum_neg_distrib, ← sub_eq_add_neg] at h
    exact h.symm

end Honest

end Module

end MaliciousPsu
