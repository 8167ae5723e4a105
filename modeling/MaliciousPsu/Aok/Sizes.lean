import MaliciousPsu.Aok.Completeness

/-!
# The sizes of an accepted shuffle

The lists `h`, `x`, `psi.f` and `psi.f_delta` come from the peer.  `izip!` cuts the last three to
the shortest, and the two chained iterators of the last equation have to agree in total length only.

* `verifyShuffleAdapted_lengths`: what acceptance says about the four lengths.
* `verifyShuffleAdapted_sized_iff`: they are the size of `g` exactly when `izip!` dropped nothing
  of `x`.
* `verifyShuffleAdapted_padded`: points of the peer's choice stand before the shuffled ones.
-/

namespace MaliciousPsu

section Sizes

variable {G : Type} [AddCommGroup G] [DecidableEq G] [BasePoint G] [PointEncoding G]
  {O : Oracles} {pp : PublicParams G} {pk : G} {g h : List G} {_g _h : List Bytes32}
  {proof : AdaptedShuffleProof} {alpha1 alpha2 : Scalar}

/-- The responses that `izip!` keeps are as many as there are generators, and `x` is as long
as `h`. -/
theorem verifyShuffleAdapted_lengths
    (haccept : verifyShuffleAdapted O pp pk g h _g _h proof alpha1 alpha2 = .ok true) :
    min (min proof.psi.f.length proof.psi.fDelta.length) proof.x.length = pp.f.length ∧
      proof.x.length = h.length := by
  obtain ⟨P, -, -, -, -, -, -, -, -, -, zRho, -, hcheck⟩ :=
    verifyShuffleAdaptedWith_eq_ok.mp haccept
  obtain ⟨_, hacc⟩ := checkShuffleAdapted_eq_ok.mp hcheck
  have hbatch := (commit_eq_ok.mp hacc.batch).1
  have hshuffle := (vartimeMultiscalarMul_eq_ok.mp hacc.shuffle).1
  refine ⟨?_, ?_⟩
  · simpa [AdaptedShuffleProof.scalars] using hbatch
  · simp only [AdaptedShuffleProof.scalars, List.length_append, List.length_map,
      List.length_ofFn] at hshuffle
    omega

/-- **The lengths of an accepted proof.**  The shuffled list and the responses `x` have the size of
`g` exactly when `psi.f` and `psi.f_delta` are as long as `x`. -/
theorem verifyShuffleAdapted_sized_iff (hf : pp.f.length = g.length)
    (haccept : verifyShuffleAdapted O pp pk g h _g _h proof alpha1 alpha2 = .ok true) :
    h.length = proof.x.length ∧ proof.x.length = g.length ↔
      proof.x.length ≤ proof.psi.f.length ∧ proof.x.length ≤ proof.psi.fDelta.length := by
  obtain ⟨hmin, hx⟩ := verifyShuffleAdapted_lengths haccept
  constructor
  · rintro ⟨-, hg⟩
    omega
  · rintro ⟨h₁, h₂⟩
    omega

end Sizes

/-- The generators of the runs on two points below. -/
abbrev twoParams : PublicParams EdwardsPoint := setupParams [1, 2]

/-- Their points. -/
abbrev twoPoints : Fin 2 → EdwardsPoint := ![mulBase 5, mulBase 6]

theorem twoPoints_mem (i : Fin 2) : twoPoints i ∈ primeSubgroup EdwardsPoint := by
  fin_cases i <;> exact mulBase_mem _

/-- An honest proof about two points has vectors of length two. -/
theorem verifyShuffleAdapted_sized_iff_two :
    ∃ proof : AdaptedShuffleProof,
      proof.x.length = 2 ∧ proof.psi.f.length = 2 ∧ proof.psi.fDelta.length = 2 ∧
      ((shuffled 3 1 twoPoints).length = proof.x.length ∧
        proof.x.length = (List.ofFn twoPoints).length ↔
        proof.x.length ≤ proof.psi.f.length ∧ proof.x.length ≤ proof.psi.fDelta.length) := by
  let O : Oracles := ⟨fun _ => 0, fun _ _ => 0⟩
  obtain ⟨hint, proof, -, -, hx, hf, hfd, hverify⟩ := verifyShuffleAdaptedWith_honest
    (show twoParams.f.length = 2 from rfl) two_ne_zero
    (Challenger.hash O (compress (mulBase 3 : EdwardsPoint)) [] [] 2) 3 1 twoPoints_mem (.zero 2) []
  have haccept : verifyShuffleAdapted O twoParams (mulBase 3) (List.ofFn twoPoints)
      (shuffled 3 1 twoPoints) [] [] proof 0 0 = .ok true := by
    rw [verifyShuffleAdapted_ofFn]
    have hverify := (hverify 0 0).mpr fun h => absurd h (by decide)
    simpa [AdaptedShuffleProof.pad_zero] using hverify
  exact ⟨proof, hx, hf, hfd, verifyShuffleAdapted_sized_iff (by simp [setupParams]) haccept⟩

/-- **A padded shuffle is accepted.**  Two points `junk` of the peer's choice stand before the two
shuffled ones, and two zeros after the responses `x`: on any hash functions and every batching
scalars the verifier accepts four points for two. -/
theorem padded_accepted (O : Oracles) (junk : List EdwardsPoint) (hjunk : junk.length = 2) :
    let π : Equiv.Perm (Fin 2) := 1
    let h := junk ++ shuffled 3 π twoPoints
    let _g := (List.ofFn twoPoints).map compress
    let _h := h.map compress
    let ch := Challenger.hash O (compress (mulBase 3 : EdwardsPoint)) _g _h 2
    ∃ hint proof, proveShuffleAdaptedPreprocess twoParams (permList π) 2 (.zero 2) = .ok hint ∧
      proveShuffleAdaptedWith (ch.pad 2) twoParams hint (List.ofFn twoPoints) 3 (permList π) =
        .ok proof ∧
      (∀ alpha1 alpha2, verifyShuffleAdapted O twoParams (mulBase 3) (List.ofFn twoPoints) h _g _h
        (proof.pad 2) alpha1 alpha2 = .ok true) ∧
      ¬ (h.length = (proof.pad 2).x.length ∧
        (proof.pad 2).x.length = (List.ofFn twoPoints).length) := by
  intro π h _g _h ch
  obtain ⟨hint, proof, hhint, hproof, hx, -, -, hverify⟩ := verifyShuffleAdaptedWith_honest
    (show twoParams.f.length = 2 from rfl) two_ne_zero ch 3 π twoPoints_mem (.zero 2) junk
  rw [hjunk] at hproof hverify
  refine ⟨hint, proof, hhint, hproof, fun alpha1 alpha2 => ?_, ?_⟩
  · rw [verifyShuffleAdapted_ofFn]
    exact (hverify alpha1 alpha2).mpr fun h => absurd h (by decide)
  · simp [AdaptedShuffleProof.pad, hx]

/-- The padding `[B, B]`. -/
theorem verifyShuffleAdapted_padded :
    let O := Oracles.reading
    let π : Equiv.Perm (Fin 2) := 1
    let h := [basepoint, basepoint] ++ shuffled 3 π twoPoints
    let _g := (List.ofFn twoPoints).map compress
    let _h := h.map compress
    let ch := Challenger.hash O (compress (mulBase 3 : EdwardsPoint)) _g _h 2
    ∃ hint proof, proveShuffleAdaptedPreprocess twoParams (permList π) 2 (.zero 2) = .ok hint ∧
      proveShuffleAdaptedWith (ch.pad 2) twoParams hint (List.ofFn twoPoints) 3 (permList π) =
        .ok proof ∧
      (∀ alpha1 alpha2, verifyShuffleAdapted O twoParams (mulBase 3) (List.ofFn twoPoints) h _g _h
        (proof.pad 2) alpha1 alpha2 = .ok true) ∧
      ¬ (h.length = (proof.pad 2).x.length ∧
        (proof.pad 2).x.length = (List.ofFn twoPoints).length) :=
  padded_accepted Oracles.reading [basepoint, basepoint] rfl

end MaliciousPsu
