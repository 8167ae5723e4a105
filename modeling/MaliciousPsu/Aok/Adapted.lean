import MaliciousPsu.Aok.Known

/-!
# The adapted shuffle argument

The outer argument of `aok.rs`: `h` is a permutation of `s·g`, for the `s` of `pk = s·B`.  The
verifier inlines the inner argument and merges its two commitment equations with its own into one,
under two batching scalars.

* `proveShuffleAdaptedWith`, `verifyShuffleAdaptedWith`: prover and verifier, their challenges
  taken from a `Challenger`; `Challenger.hash` is the one the source runs.
* `checkShuffleAdapted`: the verifier once the challenges are derived and the points of the proof
  decompressed.
* `checkShuffleAdapted_eq_ok`: what an accepting run has checked.
-/

namespace MaliciousPsu

/-- `AdaptedShuffleProof`. -/
structure AdaptedShuffleProof where
  _cPi : Bytes32
  _cD : Bytes32
  _gD : Bytes32
  _cZ : Bytes32
  _gU : Bytes32
  _cU : Bytes32
  x : List Scalar
  v : Scalar
  v2 : Scalar
  psi : KnownContentProof
  deriving DecidableEq

/-- `AdaptedShuffleHint`. -/
structure AdaptedShuffleHint (G : Type) where
  cPi : G
  cD : G
  d : List Scalar
  rD : Scalar
  rPi : Scalar
  rZ : Scalar
  u : Scalar
  u2 : Scalar
  hint2 : KnownContentHint G

/-- The scalars `prove_shuffle_adapted_preprocess` draws. -/
@[ext]
structure AdaptedShuffleCoins (n : ℕ) where
  d : Fin n → Scalar
  rD : Scalar
  rPi : Scalar
  rZ : Scalar
  u : Scalar
  u2 : Scalar
  hint2 : KnownContentCoins n

/-- The coins of a prover that blinds with zeros. -/
def AdaptedShuffleCoins.zero (n : ℕ) : AdaptedShuffleCoins n :=
  ⟨fun _ => 0, 0, 0, 0, 0, 0, fun _ => 0, fun _ => 0, 0, 0, 0⟩

/-- Where the challenges come from: the `n` scalars `z` from the first message, `delta` from the
first two, `x` and `e` as in the inner argument. -/
structure Challenger (n : ℕ) where
  z : Bytes32 → Bytes32 → Bytes32 → Fin n → Scalar
  delta : Bytes32 → Bytes32 → Bytes32 → List Scalar → Bytes32 → Bytes32 → Bytes32 → Scalar
  psi : KnownChallenger

/-- `hz`, the hash of the statement and the first message. -/
def Oracles.hashZ (O : Oracles) (_pk : Bytes32) (_g _h : List Bytes32) (_cPi _cD _gD : Bytes32) :
    Bytes32 :=
  O.blake2s (Bytes32.bytes _pk ++ absorb _g ++ absorb _h ++ absorb [_cPi, _cD, _gD])

/-- The challenges hashed from the statement and the transcript. -/
def Challenger.hash (O : Oracles) (_pk : Bytes32) (_g _h : List Bytes32) (n : ℕ) :
    Challenger n where
  z _cPi _cD _gD := O.expand (O.hashZ _pk _g _h _cPi _cD _gD)
  delta _cPi _cD _gD x _cZ _gU _cU := Scalar.fromBytesModOrder <| O.blake2s <|
    absorb (x.map Scalar.asBytes) ++ absorb [_cZ, _gU, _cU, O.hashZ _pk _g _h _cPi _cD _gD]
  psi := KnownChallenger.hash O

/-- Challenges fixed in advance. -/
def Challenger.fixed {n : ℕ} (z : Fin n → Scalar) (delta x e : Scalar) : Challenger n where
  z _ _ _ := z
  delta _ _ _ _ _ _ _ := delta
  psi := KnownChallenger.fixed x e

/-- `z_rho`: the scalars `z[i] + delta·i` that are shuffled. -/
def zRhoList (n : ℕ) (z : List Scalar) (delta : Scalar) : Run (List Scalar) :=
  (List.range n).mapM fun i => do return (← idx z i) + delta * (i : Scalar)

section Prover

variable {G : Type} [AddCommGroup G] [BasePoint G]

/-- `prove_shuffle_adapted_preprocess`. -/
def proveShuffleAdaptedPreprocess (pp : PublicParams G) (pi : List ℕ) (n : ℕ)
    (coins : AdaptedShuffleCoins n) : Run (AdaptedShuffleHint G) := do
  let d := List.ofFn coins.d
  let cD ← commit pp d coins.rD
  let cPi ← commit pp (pi.map fun i : ℕ => (i : Scalar)) coins.rPi
  let hint2 ← proveShuffleKnownPreprocess pp n coins.hint2
  return { cPi, cD, d, rD := coins.rD, rPi := coins.rPi, rZ := coins.rZ, u := coins.u,
           u2 := coins.u2, hint2 }

variable [PointEncoding G]

/-- `prove_shuffle_adapted`, its challenges taken from `ch`. -/
def proveShuffleAdaptedWith {n : ℕ} (ch : Challenger n) (pp : PublicParams G)
    (hint : AdaptedShuffleHint G) (g : List G) (s : Scalar) (pi : List ℕ) :
    Run AdaptedShuffleProof := do
  let n := g.length
  let gD ← vartimeMultiscalarMul hint.d g
  let _cPi := compress hint.cPi
  let _cD := compress hint.cD
  let _gD := compress gD
  let z := List.ofFn (ch.z _cPi _cD _gD)
  let x ← (List.range n).mapM fun i => do return s * (← idx z (← idx pi i)) + (← idx hint.d i)
  let cZ ← commit pp (← pi.mapM (idx z)) hint.rZ
  let gU : G := mulBase hint.u
  let cU := mulScalar cZ (-hint.u) + mulBase hint.u2
  let _cZ := compress cZ
  let _gU := compress gU
  let _cU := compress cU
  let delta := ch.delta _cPi _cD _gD x _cZ _gU _cU
  let v := s * delta + hint.u
  let v2 := (s * hint.rZ + hint.rD) * delta + hint.u2
  let cRho := cZ + mulScalar hint.cPi delta
  let rRho := hint.rZ + hint.rPi * delta
  let zRho ← zRhoList n z delta
  let psi ← proveShuffleKnownWith ch.psi pp hint.hint2 zRho cRho pi rRho
  return { _cPi, _cD, _gD, _cZ, _gU, _cU, x, v, v2, psi }

/-- `prove_shuffle_adapted`. -/
def proveShuffleAdapted (O : Oracles) (pp : PublicParams G) (pk : G) (hint : AdaptedShuffleHint G)
    (g : List G) (_g _h : List Bytes32) (s : Scalar) (pi : List ℕ) : Run AdaptedShuffleProof :=
  proveShuffleAdaptedWith (Challenger.hash O (compress pk) _g _h g.length) pp hint g s pi

end Prover

/-! ### The verifier -/

/-- The points that a proof's encodings decompress to. -/
@[ext]
structure ShufflePoints (G : Type) where
  cPi : G
  cD : G
  gD : G
  cZ : G
  gU : G
  cU : G
  psiCD : G
  psiCDelta : G
  psiCA : G

/-- The scalars that a proof carries. -/
@[ext]
structure ShuffleScalars where
  x : List Scalar
  v : Scalar
  v2 : Scalar
  f : List Scalar
  fDelta : List Scalar
  psiZ : Scalar
  psiZDelta : Scalar

/-- The scalars of a proof. -/
def AdaptedShuffleProof.scalars (proof : AdaptedShuffleProof) : ShuffleScalars where
  x := proof.x
  v := proof.v
  v2 := proof.v2
  f := proof.psi.f
  fDelta := proof.psi.fDelta
  psiZ := proof.psi.z
  psiZDelta := proof.psi.zDelta

section Verifier

variable {G : Type} [AddCommGroup G] [DecidableEq G] [BasePoint G]

/-- The verifier from the recomputation of `F_i` on, with the challenges derived, the points of the
proof decompressed and the batching scalars drawn. -/
def checkShuffleAdapted (pp : PublicParams G) (pk : G) (g h : List G) (P : ShufflePoints G)
    (proof : ShuffleScalars) (z : List Scalar) (delta psiX psiE alpha1 alpha2 : Scalar) :
    Run Bool := do
  let n := g.length
  let cRho := P.cZ + mulScalar P.cPi delta
  let zRho ← zRhoList n z delta
  let _f ← recomputeF psiE psiX proof.f proof.fDelta (n - 1)
  if _f ≠ psiE * knownProduct zRho psiX then return false
  if mulBase proof.v ≠ P.gU + mulScalar pk delta then return false
  let com1 := mulScalar cRho psiE + P.psiCD
  let com2 := mulScalar P.psiCA psiE + P.psiCDelta
  let com3 := mulScalar P.cZ proof.v + mulScalar P.cD delta + P.cU - mulBase proof.v2
  let lhs := mulScalar com1 alpha1 + mulScalar com2 alpha2 + com3
  let rSum := proof.psiZ * alpha1 + proof.psiZDelta * alpha2
  let fSum := List.zipWith (fun (fi, fDeltai) xi => alpha1 * fi + alpha2 * fDeltai + xi * delta)
    (proof.f.zip proof.fDelta) proof.x
  let rhs ← commit pp fSum rSum
  if lhs ≠ rhs then return false
  let rhs2 ← vartimeMultiscalarMul (proof.x ++ z.map fun zi => -zi) (g ++ h)
  if P.gD ≠ rhs2 then return false
  return true

variable [PointEncoding G]

/-- `verify_shuffle_adapted`, its challenges taken from `ch`. -/
def verifyShuffleAdaptedWith {n : ℕ} (ch : Challenger n) (pp : PublicParams G) (pk : G)
    (g h : List G) (proof : AdaptedShuffleProof) (alpha1 alpha2 : Scalar) : Run Bool := do
  let n := g.length
  let z := List.ofFn (ch.z proof._cPi proof._cD proof._gD)
  let cPi : G ← unwrap (decompress proof._cPi)
  let cD ← unwrap (decompress proof._cD)
  let gD ← unwrap (decompress proof._gD)
  let delta := ch.delta proof._cPi proof._cD proof._gD proof.x proof._cZ proof._gU proof._cU
  let cZ : G ← unwrap (decompress proof._cZ)
  let gU ← unwrap (decompress proof._gU)
  let cU ← unwrap (decompress proof._cU)
  let cRho := cZ + mulScalar cPi delta
  let zRho ← zRhoList n z delta
  let psiX := ch.psi.x (compress cRho) zRho
  let psiE := ch.psi.e (compress cRho) zRho proof.psi._cD proof.psi._cDelta proof.psi._cA
  let psiCD ← unwrap (decompress proof.psi._cD)
  let psiCDelta ← unwrap (decompress proof.psi._cDelta)
  let psiCA ← unwrap (decompress proof.psi._cA)
  checkShuffleAdapted pp pk g h { cPi, cD, gD, cZ, gU, cU, psiCD, psiCDelta, psiCA } proof.scalars
    z delta psiX psiE alpha1 alpha2

/-- `verify_shuffle_adapted`, on the two batching scalars it drew. -/
def verifyShuffleAdapted (O : Oracles) (pp : PublicParams G) (pk : G) (g h : List G)
    (_g _h : List Bytes32) (proof : AdaptedShuffleProof) (alpha1 alpha2 : Scalar) : Run Bool :=
  verifyShuffleAdaptedWith (Challenger.hash O (compress pk) _g _h g.length) pp pk g h proof alpha1
    alpha2

end Verifier

/-! ### The batched scalars -/

/-- `f_sum`: what the check of the batched commitments commits to. -/
def fSum (alpha1 alpha2 delta : Scalar) (f fDelta x : List Scalar) : List Scalar :=
  List.zipWith (fun (fi, fDeltai) xi => alpha1 * fi + alpha2 * fDeltai + xi * delta)
    (f.zip fDelta) x

/-- Entries of `x` past the length of the others are dropped. -/
theorem fSum_append {n : ℕ} (alpha1 alpha2 delta : Scalar) (F FDelta X : Fin n → Scalar)
    (extra : List Scalar) :
    fSum alpha1 alpha2 delta (List.ofFn F) (List.ofFn FDelta) (List.ofFn X ++ extra) =
      List.ofFn fun i => alpha1 * F i + alpha2 * FDelta i + X i * delta := by
  rw [fSum]
  refine List.ext_getElem (by simp) fun i hi hi' => ?_
  have hin : i < n := by simpa using hi'
  simp [hin]

theorem fSum_ofFn {n : ℕ} (alpha1 alpha2 delta : Scalar) (F FDelta X : Fin n → Scalar) :
    fSum alpha1 alpha2 delta (List.ofFn F) (List.ofFn FDelta) (List.ofFn X) =
      List.ofFn fun i => alpha1 * F i + alpha2 * FDelta i + X i * delta := by
  have h := fSum_append alpha1 alpha2 delta F FDelta X []
  rwa [List.append_nil] at h

/-! ### Acceptance -/

section Acceptance

variable {G : Type} [AddCommGroup G] [DecidableEq G] [BasePoint G]

/-- What an accepting run of the check has established. -/
structure Accepted (pp : PublicParams G) (pk : G) (g h : List G) (P : ShufflePoints G)
    (proof : ShuffleScalars) (z : List Scalar) (delta psiX psiE alpha1 alpha2 : Scalar)
    (zRho : List Scalar) : Prop where
  zRho_eq : zRhoList g.length z delta = .ok zRho
  product : recomputeF psiE psiX proof.f proof.fDelta (g.length - 1) =
    .ok (psiE * knownProduct zRho psiX)
  key : mulBase proof.v = P.gU + mulScalar pk delta
  batch : commit pp
      (List.zipWith (fun (fi, fDeltai) xi => alpha1 * fi + alpha2 * fDeltai + xi * delta)
        (proof.f.zip proof.fDelta) proof.x)
      (proof.psiZ * alpha1 + proof.psiZDelta * alpha2) =
    .ok (mulScalar (mulScalar (P.cZ + mulScalar P.cPi delta) psiE + P.psiCD) alpha1
      + mulScalar (mulScalar P.psiCA psiE + P.psiCDelta) alpha2
      + (mulScalar P.cZ proof.v + mulScalar P.cD delta + P.cU - mulBase proof.v2))
  shuffle : vartimeMultiscalarMul (proof.x ++ z.map fun zi => -zi) (g ++ h) = .ok P.gD

theorem checkShuffleAdapted_eq_ok {pp : PublicParams G} {pk : G} {g h : List G}
    {P : ShufflePoints G} {proof : ShuffleScalars} {z : List Scalar}
    {delta psiX psiE alpha1 alpha2 : Scalar} :
    checkShuffleAdapted pp pk g h P proof z delta psiX psiE alpha1 alpha2 = .ok true ↔
      ∃ zRho, Accepted pp pk g h P proof z delta psiX psiE alpha1 alpha2 zRho := by
  simp only [checkShuffleAdapted, bind_eq_ok, pure_eq_ok]
  constructor
  · rintro ⟨zRho, hz, F, hF, h⟩
    split at h
    · cases h
    rename_i hprod
    split at h
    · cases h
    rename_i hkey
    simp only [bind_eq_ok] at h
    obtain ⟨rhs, hrhs, h⟩ := h
    split at h
    · cases h
    rename_i hbatch
    simp only [bind_eq_ok] at h
    obtain ⟨rhs2, hrhs2, h⟩ := h
    split at h
    · cases h
    rename_i hgD
    rw [not_not] at hprod hkey hbatch hgD
    exact ⟨zRho, hz, hprod ▸ hF, hkey, hbatch ▸ hrhs, hgD ▸ hrhs2⟩
  · rintro ⟨zRho, hz, hF, hkey, hbatch, hgD⟩
    refine ⟨zRho, hz, _, hF, ?_⟩
    simp only [ne_eq, not_true, if_false, hkey, ok_bind, hbatch, hgD]

variable [PointEncoding G]

/-- An accepting run decompressed the nine points and passed the check. -/
theorem verifyShuffleAdaptedWith_eq_ok {n : ℕ} {ch : Challenger n} {pp : PublicParams G} {pk : G}
    {g h : List G} {proof : AdaptedShuffleProof} {alpha1 alpha2 : Scalar} {b : Bool} :
    verifyShuffleAdaptedWith ch pp pk g h proof alpha1 alpha2 = .ok b ↔
      ∃ P : ShufflePoints G,
        decompress proof._cPi = some P.cPi ∧ decompress proof._cD = some P.cD ∧
        decompress proof._gD = some P.gD ∧ decompress proof._cZ = some P.cZ ∧
        decompress proof._gU = some P.gU ∧ decompress proof._cU = some P.cU ∧
        decompress proof.psi._cD = some P.psiCD ∧
        decompress proof.psi._cDelta = some P.psiCDelta ∧
        decompress proof.psi._cA = some P.psiCA ∧
        ∃ zRho, let z := List.ofFn (ch.z proof._cPi proof._cD proof._gD)
          let delta := ch.delta proof._cPi proof._cD proof._gD proof.x proof._cZ proof._gU proof._cU
          let _cRho := compress (P.cZ + mulScalar P.cPi delta)
          zRhoList g.length z delta = .ok zRho ∧
          checkShuffleAdapted pp pk g h P proof.scalars z delta (ch.psi.x _cRho zRho)
            (ch.psi.e _cRho zRho proof.psi._cD proof.psi._cDelta proof.psi._cA) alpha1 alpha2 =
              .ok b := by
  simp only [verifyShuffleAdaptedWith, bind_eq_ok, unwrap_eq_ok]
  constructor
  · rintro ⟨cPi, h₁, cD, h₂, gD, h₃, cZ, h₄, gU, h₅, cU, h₆, zRho, hz, psiCD, h₇, psiCDelta, h₈,
      psiCA, h₉, h⟩
    exact ⟨⟨cPi, cD, gD, cZ, gU, cU, psiCD, psiCDelta, psiCA⟩, h₁, h₂, h₃, h₄, h₅, h₆, h₇, h₈, h₉,
      zRho, hz, h⟩
  · rintro ⟨P, h₁, h₂, h₃, h₄, h₅, h₆, h₇, h₈, h₉, zRho, hz, h⟩
    exact ⟨_, h₁, _, h₂, _, h₃, _, h₄, _, h₅, _, h₆, zRho, hz, _, h₇, _, h₈, _, h₉, h⟩

end Acceptance

end MaliciousPsu
