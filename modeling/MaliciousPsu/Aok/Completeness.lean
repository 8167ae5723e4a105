import MaliciousPsu.Aok.Honest
import MaliciousPsu.Edwards

/-!
# Completeness of the adapted shuffle

* `checkShuffleAdapted_honest_iff`: the verifier's check passes on an honest proof, except for a
  single point whose `d` is not `0`.  It still passes when points are put before the shuffled list
  and as many zeros after the responses `x`.
* `verifyShuffleAdaptedWith_honest`: so does the verifier, for any source of challenges.
* `verifyShuffleAdapted_complete`: an honest proof is accepted.
-/

namespace MaliciousPsu

/-- The responses `x` with `k` zeros appended. -/
def ShuffleScalars.pad (S : ShuffleScalars) (k : ℕ) : ShuffleScalars :=
  { S with x := S.x ++ List.replicate k 0 }

@[simp] theorem ShuffleScalars.pad_x (S : ShuffleScalars) (k : ℕ) :
    (S.pad k).x = S.x ++ List.replicate k 0 := rfl

section Check

variable {G : Type} [AddCommGroup G] {V : Type} [AddCommGroup V] [Module Scalar V] {φ : V →+ G}
  {n : ℕ}

theorem vartimeMultiscalarMul_replicate (ps : List G) :
    vartimeMultiscalarMul (List.replicate ps.length 0) ps = .ok 0 := by
  rw [vartimeMultiscalarMul_eq_ok]
  refine ⟨by simp, List.sum_eq_zero fun P hP => ?_⟩
  obtain ⟨i, hi, rfl⟩ := List.getElem_of_mem hP
  simp [mulScalar]

/-- The zeros meet the points `junk`, and the scalars `-z` the shuffled points. -/
theorem vartimeMultiscalarMul_pad (a b : Fin n → Scalar) (v w : Fin n → V) (junk : List G) :
    vartimeMultiscalarMul ((List.ofFn a ++ List.replicate junk.length 0) ++ List.ofFn b)
      ((List.ofFn fun i => φ (v i)) ++ (junk ++ List.ofFn fun i => φ (w i))) =
        .ok (φ (∑ i, a i • v i + ∑ i, b i • w i)) := by
  have h := vartimeMultiscalarMul_append (vartimeMultiscalarMul_map φ a v)
    (vartimeMultiscalarMul_append (vartimeMultiscalarMul_replicate junk)
      (vartimeMultiscalarMul_map φ b w))
  rw [List.append_assoc, h, zero_add, map_add]

variable [DecidableEq G] [BasePoint G] {B : V} {pp : PublicParams G} {f : Fin n → V}

/-- **The check on an honest proof**: the product decides, everything else holds. -/
theorem checkShuffleAdapted_honest_iff (hf : pp.f = List.ofFn fun i => φ (f i))
    (hB : φ B = basepoint) (hn : n ≠ 0) (g : Fin n → V) (s : Scalar) (π : Equiv.Perm (Fin n))
    (coins : AdaptedShuffleCoins n) (z : Fin n → Scalar) (delta x e alpha1 alpha2 : Scalar)
    (junk : List G) :
    checkShuffleAdapted pp (φ (s • B)) (List.ofFn fun i => φ (g i))
      (junk ++ List.ofFn fun i => φ (s • g (π⁻¹ i)))
      ((honestPoints f B g π coins z delta x).map φ)
      ((honestScalars s π coins z delta x e).pad junk.length) (List.ofFn z) delta x e
      alpha1 alpha2 = .ok true ↔ (n = 1 → ∀ i, coins.hint2.d i = 0) := by
  refine Iff.trans ?_ (honest_product_iff s π coins z delta x e hn)
  have hlen : (List.ofFn fun i => φ (g i)).length = n := List.length_ofFn
  rw [checkShuffleAdapted_eq_ok]
  constructor
  · rintro ⟨_, hzRho, hprod, -⟩
    rw [hlen, zRhoList_ofFn] at hzRho
    cases hzRho
    rw [hlen] at hprod
    exact hprod
  intro hprod
  refine ⟨List.ofFn (zRho z delta), ?_, ?_, ?_, ?_, ?_⟩
  · rw [hlen, zRhoList_ofFn]
  · rw [hlen]
    exact hprod
  · simp only [ShuffleScalars.pad, honestScalars, ShufflePoints.map, honestPoints,
      mulBase_map φ hB, mulScalar_map, ← map_add]
    congr 1
    module
  · set P := honestPoints f B g π coins z delta x with hP
    set S := honestScalars s π coins z delta x e with hS
    have h₁ : e • (P.cZ + delta • P.cPi) + P.psiCD = _ := honest_com1 (s := s)
    have h₂ : e • P.psiCA + P.psiCDelta = _ := honest_com2 (s := s)
    have h₃ : S.v • P.cZ + delta • P.cD + P.cU - S.v2 • B = _ := honest_com3
    have hsum : fSum alpha1 alpha2 delta S.f S.fDelta (S.x ++ List.replicate junk.length 0) =
        List.ofFn fun i => alpha1 * (e * zRho z delta (π i) + coins.hint2.d i) +
          alpha2 * padLast (fun i => e * honestCross π coins z delta x i -
            seq coins.hint2.blind i * seq coins.hint2.d (i + 1)) i +
          (s * z (π i) + coins.d i) * delta := fSum_append _ _ _ _ _ _ _
    simp only [ShuffleScalars.pad]
    change commit pp (fSum alpha1 alpha2 delta S.f S.fDelta (S.x ++ _)) _ = _
    rw [hsum, commit_map φ hf hB]
    simp only [ShufflePoints.map, mulScalar_map, mulBase_map φ hB, ← map_add, ← map_sub]
    rw [h₁, h₂, h₃]
    simp only [smul_pedersen, pedersen_add]
    congr 3
    rw [← hS]
    ring
  · have hneg : (List.ofFn z).map (fun zi => -zi) = List.ofFn fun i => -z i := by
      rw [List.map_ofFn]
      rfl
    rw [hneg]
    simp only [ShuffleScalars.pad, honestScalars, vartimeMultiscalarMul_pad]
    rw [honest_shuffle]
    rfl

end Check

section Verifier

variable {G : Type} [AddCommGroup G] [DecidableEq G] [BasePoint G] [PointEncoding G]
  {pp : PublicParams G} {n : ℕ}

/-- The list `h` of a shuffle: `h[i] = s·g[pi_inv[i]]`. -/
def shuffled (s : Scalar) (π : Equiv.Perm (Fin n)) (g : Fin n → G) : List G :=
  List.ofFn fun i => mulScalar (g (π⁻¹ i)) s

/-- Challenges for a proof to which `k` zeros will be appended. -/
def Challenger.pad (ch : Challenger n) (k : ℕ) : Challenger n :=
  { ch with
    delta := fun _cPi _cD _gD x => ch.delta _cPi _cD _gD (x ++ List.replicate k 0) }

/-- The proof with `k` zeros appended to its responses `x`. -/
def AdaptedShuffleProof.pad (proof : AdaptedShuffleProof) (k : ℕ) : AdaptedShuffleProof :=
  { proof with x := proof.x ++ List.replicate k 0 }

/-- The verifier on a proof that encodes points: it decompresses these. -/
theorem verifyShuffleAdaptedWith_encodeProof (ch : Challenger n) (pk : G) (g h : List G)
    (P : ShufflePoints G) (S : ShuffleScalars) (alpha1 alpha2 : Scalar) :
    verifyShuffleAdaptedWith ch pp pk g h (encodeProof P S) alpha1 alpha2 = (do
      let z := List.ofFn (ch.z (compress P.cPi) (compress P.cD) (compress P.gD))
      let delta := ch.delta (compress P.cPi) (compress P.cD) (compress P.gD) S.x (compress P.cZ)
        (compress P.gU) (compress P.cU)
      let zRho ← zRhoList g.length z delta
      let _cRho := compress (P.cZ + mulScalar P.cPi delta)
      checkShuffleAdapted pp pk g h P S z delta (ch.psi.x _cRho zRho)
        (ch.psi.e _cRho zRho (compress P.psiCD) (compress P.psiCDelta) (compress P.psiCA))
        alpha1 alpha2) := by
  simp only [verifyShuffleAdaptedWith, encodeProof, PointEncoding.decompress_compress,
    unwrap_some, ok_bind]
  rfl

/-- **Padded completeness.**  The proof of an honest prover who knows the padding in advance is
accepted once its responses are padded, with as many points of any choice before the shuffled
ones. -/
theorem verifyShuffleAdaptedWith_honest (hf : pp.f.length = n) (hn : n ≠ 0) (ch : Challenger n)
    (s : Scalar) (π : Equiv.Perm (Fin n)) {g : Fin n → G} (hg : ∀ i, g i ∈ primeSubgroup G)
    (coins : AdaptedShuffleCoins n) (junk : List G) :
    ∃ hint proof, proveShuffleAdaptedPreprocess pp (permList π) n coins = .ok hint ∧
      proveShuffleAdaptedWith (ch.pad junk.length) pp hint (List.ofFn g) s (permList π) =
        .ok proof ∧
      proof.x.length = n ∧ proof.psi.f.length = n ∧ proof.psi.fDelta.length = n ∧
      ∀ alpha1 alpha2, verifyShuffleAdaptedWith ch pp (mulBase s) (List.ofFn g)
        (junk ++ shuffled s π g) (proof.pad junk.length) alpha1 alpha2 = .ok true ↔
          (n = 1 → ∀ i, coins.hint2.d i = 0) := by
  obtain ⟨f, hf⟩ := exists_ofFn_of_mem hf pp.f_mem
  set φ := (primeSubgroup G).subtype
  obtain ⟨B, hB⟩ : ∃ B : primeSubgroup G, φ B = basepoint :=
    ⟨⟨basepoint, BasePoint.basepoint_mem⟩, rfl⟩
  obtain ⟨v, rfl⟩ : ∃ v : Fin n → primeSubgroup G, g = fun i => φ (v i) :=
    ⟨fun i => ⟨g i, hg i⟩, rfl⟩
  obtain ⟨z, delta, x, e, hprove, hz, hdelta, hx, he⟩ :=
    proveShuffleAdaptedWith_eq hf hB hn (ch.pad junk.length) v s π coins
  have hcheck := checkShuffleAdapted_honest_iff hf hB hn v s π coins z delta x e
  obtain ⟨hint, hhint, hproof⟩ := bind_eq_ok.mp hprove
  refine ⟨hint, _, hhint, hproof, by simp [encodeProof, honestScalars],
    by simp [encodeProof, honestScalars], by simp [encodeProof, honestScalars],
    fun alpha1 alpha2 => ?_⟩
  set P := (honestPoints f B v π coins z delta x).map φ
  set S := honestScalars s π coins z delta x e
  rw [show (encodeProof P S).pad junk.length = encodeProof P (S.pad junk.length) from rfl,
    verifyShuffleAdaptedWith_encodeProof]
  simp only [List.length_ofFn, ShuffleScalars.pad_x]
  -- the verifier derives the challenges that the padded responses were made for
  rw [show ch.z _ _ _ = z from hz.symm, show ch.delta _ _ _ _ _ _ _ = delta from hdelta.symm,
    zRhoList_ofFn, ok_bind, show ch.psi.x _ _ = x from hx.symm,
    show ch.psi.e _ _ _ _ _ = e from he.symm, mulBase_map φ hB]
  simp only [shuffled, mulScalar_map]
  exact hcheck alpha1 alpha2 junk

theorem Challenger.pad_zero (ch : Challenger n) : ch.pad 0 = ch := by
  simp [Challenger.pad]

theorem AdaptedShuffleProof.pad_zero (proof : AdaptedShuffleProof) : proof.pad 0 = proof := by
  simp [AdaptedShuffleProof.pad]

theorem verifyShuffleAdapted_ofFn (O : Oracles) (pk : G) (g : Fin n → G) (h : List G)
    (_g _h : List Bytes32) (proof : AdaptedShuffleProof) (alpha1 alpha2 : Scalar) :
    verifyShuffleAdapted O pp pk (List.ofFn g) h _g _h proof alpha1 alpha2 =
      verifyShuffleAdaptedWith (Challenger.hash O (compress pk) _g _h n) pp pk (List.ofFn g) h
        proof alpha1 alpha2 := by
  rw [verifyShuffleAdapted, List.length_ofFn]

/-- The verifier on an honest proof, for any functions in place of the hashes. -/
theorem verifyShuffleAdapted_honest (O : Oracles) (hf : pp.f.length = n) (hn : n ≠ 0)
    (π : Equiv.Perm (Fin n)) (s : Scalar) {g : Fin n → G} (hg : ∀ i, g i ∈ primeSubgroup G)
    (coins : AdaptedShuffleCoins n) :
    let h := shuffled s π g
    let _g := (List.ofFn g).map compress
    let _h := h.map compress
    ∃ hint proof, proveShuffleAdaptedPreprocess pp (permList π) n coins = .ok hint ∧
      proveShuffleAdapted O pp (mulBase s) hint (List.ofFn g) _g _h s (permList π) = .ok proof ∧
      proof.x.length = n ∧ proof.psi.f.length = n ∧ proof.psi.fDelta.length = n ∧
      ∀ alpha1 alpha2, verifyShuffleAdapted O pp (mulBase s) (List.ofFn g) h _g _h proof alpha1
        alpha2 = .ok true ↔ (n = 1 → ∀ i, coins.hint2.d i = 0) := by
  intro h _g _h
  obtain ⟨hint, proof, hhint, hproof, hx, hf, hfDelta, hverify⟩ := verifyShuffleAdaptedWith_honest
    hf hn (Challenger.hash O (compress (mulBase s : G)) _g _h n) s π hg coins []
  rw [List.length_nil, Challenger.pad_zero] at hproof
  simp only [List.length_nil, AdaptedShuffleProof.pad_zero, List.nil_append] at hverify
  refine ⟨hint, proof, hhint, ?_, hx, hf, hfDelta, fun alpha1 alpha2 => ?_⟩
  · rw [proveShuffleAdapted, List.length_ofFn]
    exact hproof
  · rw [verifyShuffleAdapted_ofFn]
    exact hverify alpha1 alpha2

/-- **Completeness of the adapted shuffle.**  For any functions in place of the hashes, the proof
of a prover who holds the key `s` and the permutation `π` is accepted, on every batching
scalars. -/
theorem verifyShuffleAdapted_complete (O : Oracles) (hf : pp.f.length = n) (hn : 2 ≤ n)
    (π : Equiv.Perm (Fin n)) (s : Scalar) {g : Fin n → G} (hg : ∀ i, g i ∈ primeSubgroup G)
    (coins : AdaptedShuffleCoins n) (alpha1 alpha2 : Scalar) :
    let h := shuffled s π g
    let _g := (List.ofFn g).map compress
    let _h := h.map compress
    ∃ hint proof, proveShuffleAdaptedPreprocess pp (permList π) n coins = .ok hint ∧
      proveShuffleAdapted O pp (mulBase s) hint (List.ofFn g) _g _h s (permList π) = .ok proof ∧
      verifyShuffleAdapted O pp (mulBase s) (List.ofFn g) h _g _h proof alpha1 alpha2 =
        .ok true := by
  intro h _g _h
  obtain ⟨hint, proof, hhint, hproof, -, -, -, hverify⟩ :=
    verifyShuffleAdapted_honest O hf (by omega) π s hg coins
  exact ⟨hint, proof, hhint, hproof, (hverify alpha1 alpha2).mpr fun h => by omega⟩

end Verifier

/-- Two points swapped, one of them the identity. -/
theorem verifyShuffleAdapted_complete_swap :
    let O : Oracles := ⟨fun _ => 0, fun _ i => i⟩
    let pp : PublicParams EdwardsPoint := setupParams [1, 2]
    let g : Fin 2 → EdwardsPoint := ![mulBase 5, 0]
    let π := Equiv.swap (0 : Fin 2) 1
    let h := shuffled 3 π g
    let _g := (List.ofFn g).map compress
    let _h := h.map compress
    let coins : AdaptedShuffleCoins 2 := ⟨![1, 2], 3, 4, 5, 6, 7, ![8, 9], ![], 10, 11, 12⟩
    ∃ hint proof, proveShuffleAdaptedPreprocess pp (permList π) 2 coins = .ok hint ∧
      proveShuffleAdapted O pp (mulBase 3) hint (List.ofFn g) _g _h 3 (permList π) = .ok proof ∧
      verifyShuffleAdapted O pp (mulBase 3) (List.ofFn g) h _g _h proof 13 14 = .ok true :=
  verifyShuffleAdapted_complete _ (by simp [setupParams]) le_rfl _ 3
    (by simp [Fin.forall_fin_two, mulBase_mem, zero_mem]) _ 13 14

end MaliciousPsu
