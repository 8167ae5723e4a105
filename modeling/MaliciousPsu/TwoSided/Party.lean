import MaliciousPsu.Aok.Completeness
import MaliciousPsu.Aok.Ddh
import MaliciousPsu.Aok.Permutation
import MaliciousPsu.Recover

/-!
# The parties of the two-sided protocol

The methods of `Party` in `twosided.rs`.  Each party blinds its items by its clamped key, commits to
them by `sigma`, blinds and shuffles the points of the other, and removes its key from its own
points once they come back: those that the other party did not submit are sent in round 4.

* `length_of_new`: a party is built only when both sizes are the number of generators.
* `gen_eq`, `verifySigma_eq_ok`: the points of a party, and what a checked list is.
* `returns_proveShuffleAdapted`: the proof of a shuffle needs nothing but the right number of
  points.
-/

namespace MaliciousPsu

/-- `Party`. -/
structure Party extends Keys where
  server : Bool
  input : List UInt8
  n : ℕ
  pk : EdwardsPoint
  pi : List ℕ
  piInv : List ℕ
  hint : AdaptedShuffleHint EdwardsPoint
  permut : FeistelPrp256

/-- What `Party::new` draws. -/
structure PartyCoins (n nOther : ℕ) where
  raw : Bytes32
  π : Equiv.Perm (Fin nOther)
  hint : AdaptedShuffleCoins n

/-- What a party draws in the course of the protocol: the batching scalars of its verifier and the
blinding of its last proof. -/
structure RunCoins where
  alpha1 : Scalar
  alpha2 : Scalar
  r : Scalar

namespace Party

/-- `Party::new`, with `aes` for the block cipher. -/
def new (server : Bool) (input : List UInt8) (aes : Block → Block → Block) (aesKey : Block)
    (pp : PublicParams EdwardsPoint) (n nOther : ℕ) (coins : PartyCoins n nOther) : Run Party := do
  let keys := Keys.new coins.raw
  let pk := mulBase keys.sk
  let pi := permList coins.π
  let piInv := permList coins.π⁻¹
  let permut := FeistelPrp256.new aes aesKey
  let hint ← proveShuffleAdaptedPreprocess pp pi n coins.hint
  return { toKeys := keys, server, input, n, pk, pi, piInv, hint, permut }

/-- What `gen` returns. -/
structure Gen where
  sigma : Bytes32
  points : List EdwardsPoint
  _points : List CompressedEdwardsY

/-- `sigma`: the hash of a key and a list of encodings. -/
def hashSigma (O : Oracles) (pk : EdwardsPoint) (_points : List CompressedEdwardsY) : Bytes32 :=
  O.blake2s (Bytes32.bytes (compress pk) ++ absorb _points)

/-- `gen`. -/
def gen (O : Oracles) (party : Party) : Run Gen := do
  let points ← (chunksExact party.input).mapM fun item => do
    return mulClamped (← hashToPoint item party.permut) party.sk8
  let _points := points.map compress
  return { sigma := hashSigma O party.pk _points, points, _points }

/-- `verify_sigma`. -/
def verifySigma (O : Oracles) (sigmaOther : Bytes32) (pkOther : EdwardsPoint)
    (_pointsOther : List CompressedEdwardsY) : Run (Bool × List EdwardsPoint) := do
  let pointsOther ← _pointsOther.mapM fun _p => unwrap (decompress _p)
  return (hashSigma O pkOther _pointsOther == sigmaOther, pointsOther)

/-- What `blind_shuffle` returns. -/
structure Shuffle where
  proof : AdaptedShuffleProof
  points : List EdwardsPoint
  _points : List CompressedEdwardsY

/-- `blind_shuffle`. -/
def blindShuffle (O : Oracles) (party : Party) (pp : PublicParams EdwardsPoint)
    (pointsOther : List EdwardsPoint) (_pointsOther : List CompressedEdwardsY) : Run Shuffle := do
  let nOther := _pointsOther.length
  let points ← (List.range nOther).mapM fun i => do
    return mulScalar (← idx pointsOther (← idx party.piInv i)) party.sk
  let _points := points.map compress
  let proof ← proveShuffleAdapted O pp party.pk party.hint pointsOther _pointsOther _points party.sk
    party.pi
  return { proof, points, _points }

/-- One of the own points with the key removed, `p`, and its index. -/
structure Unblinded where
  i : ℕ
  _ps : CompressedEdwardsY
  p : EdwardsPoint

/-- What `final_response` sends in round 4. -/
structure Response where
  _unblinded : List CompressedEdwardsY
  ind : List UInt32
  proof : BatchedDDHProof

/-- The points of `final_response` in the order of its loop. -/
def unblind (party : Party) (pointsShuffle : List EdwardsPoint)
    (_pointsShuffled : List CompressedEdwardsY) : Run (List Unblinded) :=
  (List.range party.n).mapM fun i => do
    let ps ← idx pointsShuffle i
    let _ps ← idx _pointsShuffled i
    return { i, _ps, p := mulScalar ps party.skInv }

/-- The points that the other party did not submit. -/
def missing (_pointsOther : List CompressedEdwardsY) (points : List Unblinded) : List Unblinded :=
  points.filter fun point => !_pointsOther.contains (compress point.p)

/-- `final_response`. -/
def finalResponse (O : Oracles) (party : Party) (pp : PublicParams EdwardsPoint) (coins : RunCoins)
    (pkOther : EdwardsPoint) (points pointsShuffle : List EdwardsPoint)
    (_points _pointsShuffled _pointsOther : List CompressedEdwardsY) (proof : AdaptedShuffleProof) :
    Run (Option Response) := do
  if !(← verifyShuffleAdapted O pp pkOther points pointsShuffle _points _pointsShuffled proof
      coins.alpha1 coins.alpha2) then return none
  let kept := missing _pointsOther (← party.unblind pointsShuffle _pointsShuffled)
  let unblinded := kept.map Unblinded.p
  let _unblinded := unblinded.map compress
  let ind := kept.map fun point => UInt32.ofNat point.i
  let _shrinked := kept.map Unblinded._ps
  let proof ← batchedDdhProve O party.pk unblinded _unblinded _shrinked party.sk coins.r
  return some { _unblinded, ind, proof }

/-- `reveal_items`. -/
def revealItems (O : Oracles) (party : Party) (pkOther : EdwardsPoint)
    (unblinded : List EdwardsPoint) (_unblinded : List CompressedEdwardsY)
    (shrinked : List EdwardsPoint) (_shrinked : List CompressedEdwardsY) (proof : BatchedDDHProof) :
    Run (Option (List UInt8)) := do
  if !(← batchedDdhVerify O pkOther unblinded shrinked _unblinded _shrinked proof) then return none
  return some (flatten (unblinded.map fun point =>
    recoverFromPoint (mulScalar point party.sk8Inv) party.permut))

end Party

/-! ### The points of a party -/

/-- The point that an item is hashed to. -/
def hashedPoint (permut : FeistelPrp256) (item : Block) : EdwardsPoint :=
  (toEdwards (fieldToMont (itemToField item permut)) 0).getD 0

theorem hashToPoint_eq (permut : FeistelPrp256) (item : Block) :
    hashToPoint item permut = .ok (hashedPoint permut item) := by
  obtain ⟨P, hP, -⟩ := exists_hashToPoint item permut
  rw [hP, hashedPoint]
  rw [hashToPoint, fieldToEdwards, unwrap_eq_ok] at hP
  rw [hP, Option.getD_some]

namespace Party

/-- The blinded items of a party. -/
def ownPoints (party : Party) : List EdwardsPoint :=
  (chunksExact party.input).map fun item => mulClamped (hashedPoint party.permut item) party.sk8

/-- The encodings of the blinded items of a party. -/
def _ownPoints (party : Party) : List CompressedEdwardsY := party.ownPoints.map compress

theorem length_ownPoints (party : Party) :
    party.ownPoints.length = (chunksExact party.input).length := List.length_map _

theorem length_ownEncodings (party : Party) :
    party._ownPoints.length = (chunksExact party.input).length :=
  (List.length_map _).trans party.length_ownPoints

theorem gen_eq (O : Oracles) (party : Party) :
    party.gen O = .ok { sigma := hashSigma O party.pk party._ownPoints
                        points := party.ownPoints, _points := party._ownPoints } := by
  have hpoints : (chunksExact party.input).mapM (fun item => do
      return mulClamped (← hashToPoint item party.permut) party.sk8) = .ok party.ownPoints := by
    simp only [hashToPoint_eq, ok_bind, pure_eq_ok]
    exact mapM_eq_ok.mpr (List.forall₂_map_right_iff.mpr (List.forall₂_same.mpr fun _ _ => rfl))
  rw [gen, hpoints]
  rfl

/-- A list of encodings that decompress, and what they decompress to. -/
def Decompressed (_points : List CompressedEdwardsY) (points : List EdwardsPoint) : Prop :=
  List.Forall₂ (fun _p P => decompress _p = some P) _points points

theorem mapM_decompress {_points : List CompressedEdwardsY} {points : List EdwardsPoint} :
    _points.mapM (fun _p => unwrap (decompress _p)) = .ok points ↔ Decompressed _points points := by
  rw [mapM_eq_ok, Decompressed]
  simp only [unwrap_eq_ok]

theorem decompressed_map_compress (points : List EdwardsPoint) :
    Decompressed (points.map compress) points :=
  List.forall₂_map_left_iff.mpr <|
    List.forall₂_same.mpr fun _ _ => PointEncoding.decompress_compress _

theorem decompressed_ownPoints (party : Party) :
    Decompressed party._ownPoints party.ownPoints := decompressed_map_compress _

theorem verifySigma_eq_ok {O : Oracles} {sigmaOther : Bytes32} {pkOther : EdwardsPoint}
    {_pointsOther : List CompressedEdwardsY} {out : Bool × List EdwardsPoint} :
    verifySigma O sigmaOther pkOther _pointsOther = .ok out ↔
      Decompressed _pointsOther out.2 ∧
        out.1 = (hashSigma O pkOther _pointsOther == sigmaOther) := by
  simp only [verifySigma, bind_eq_ok, mapM_decompress, pure_eq_ok, Except.ok.injEq]
  constructor
  · rintro ⟨points, hpoints, rfl⟩
    exact ⟨hpoints, rfl⟩
  · rintro ⟨hpoints, heq⟩
    exact ⟨out.2, hpoints, Prod.ext heq.symm rfl⟩

/-! ### A party as it is built -/

section New

variable {server : Bool} {input : List UInt8} {aes : Block → Block → Block} {aesKey : Block}
  {pp : PublicParams EdwardsPoint} {n nOther : ℕ} {coins : PartyCoins n nOther} {party : Party}

/-- **Both sizes are the number of generators.** -/
theorem length_of_new (h : Party.new server input aes aesKey pp n nOther coins = .ok party) :
    n = pp.f.length ∧ nOther = pp.f.length ∧ n ≠ 0 := by
  obtain ⟨hint, hhint, -⟩ := bind_eq_ok.mp h
  obtain ⟨cD, hcD, hhint⟩ := bind_eq_ok.mp hhint
  obtain ⟨cPi, hcPi, hhint⟩ := bind_eq_ok.mp hhint
  obtain ⟨hint2, hhint2, -⟩ := bind_eq_ok.mp hhint
  refine ⟨?_, ?_, ?_⟩
  · have hd := (commit_eq_ok.mp hcD).1
    rwa [List.length_ofFn] at hd
  · have hpi := (commit_eq_ok.mp hcPi).1
    rwa [List.length_map, permList, List.length_ofFn] at hpi
  · rintro rfl
    rw [proveShuffleKnownPreprocess, if_pos rfl] at hhint2
    cases hhint2

/-- What `Party::new` has made of its random choices. -/
structure Built (party : Party) (pp : PublicParams EdwardsPoint) {n : ℕ} (coins : PartyCoins n n) :
    Prop where
  length_f : pp.f.length = n
  n_ne_zero : n ≠ 0
  n_eq : party.n = n
  keys : party.toKeys = Keys.new coins.raw
  pk : party.pk = mulBase party.sk
  pi : party.pi = permList coins.π
  piInv : party.piInv = permList coins.π⁻¹
  hint : proveShuffleAdaptedPreprocess pp (permList coins.π) n coins.hint = .ok party.hint

theorem Built.sk_mul_skInv {coins : PartyCoins n n} (hparty : Built party pp coins) :
    party.sk * party.skInv = 1 := by
  rw [hparty.keys]
  exact Keys.sk_mul_skInv coins.raw

theorem Built.sk_ne_zero {coins : PartyCoins n n} (hparty : Built party pp coins) :
    party.sk ≠ 0 := by
  rw [hparty.keys]
  exact Keys.sk_ne_zero coins.raw

/-- The permutation of a party and its inverse are drawn by `random_permutation`. -/
theorem Built.existsUnique_draws {coins : PartyCoins n n} (hparty : Built party pp coins) :
    ∃! draws : FisherYates.Draws n, randomPermutation n draws = .ok (party.pi, party.piInv) := by
  rw [hparty.pi, hparty.piInv]
  exact MaliciousPsu.existsUnique_draws coins.π

theorem built_of_new {coins : PartyCoins n n}
    (h : Party.new server input aes aesKey pp n n coins = .ok party) :
    Built party pp coins ∧ party.server = server ∧ party.input = input ∧
      party.permut = FeistelPrp256.new aes aesKey := by
  obtain ⟨hf, -, hn⟩ := length_of_new h
  obtain ⟨hint, hhint, hparty⟩ := bind_eq_ok.mp h
  cases hparty
  exact ⟨⟨hf.symm, hn, rfl, rfl, rfl, rfl, rfl, hhint⟩, rfl, rfl, rfl⟩

/-- A party is built when its size is the number of generators. -/
theorem exists_new (hf : pp.f.length = n) (hn : n ≠ 0) (coins : PartyCoins n n) :
    ∃ party, Party.new server input aes aesKey pp n n coins = .ok party := by
  obtain ⟨f, hf⟩ := exists_ofFn_of_mem hf pp.f_mem
  have hB : (primeSubgroup EdwardsPoint).subtype basepoint = basepoint := rfl
  have hhint := proveShuffleAdaptedPreprocess_eq hf hB hn coins.π coins.hint
  exact ⟨_, bind_eq_ok.mpr ⟨_, hhint, rfl⟩⟩

end New

/-! ### The proof of a shuffle -/

section Prover

variable {pp : PublicParams EdwardsPoint} {n : ℕ} {π : Equiv.Perm (Fin n)}
  {coins : AdaptedShuffleCoins n} {hint : AdaptedShuffleHint EdwardsPoint}

/-- The prover needs nothing but as many points as there are generators. -/
theorem exists_proveShuffleAdaptedWith (hf : pp.f.length = n) (hn : n ≠ 0)
    (hhint : proveShuffleAdaptedPreprocess pp (permList π) n coins = .ok hint)
    (ch : Challenger n) (g : Fin n → EdwardsPoint) (s : Scalar) :
    ∃ proof, proveShuffleAdaptedWith ch pp hint (List.ofFn g) s (permList π) = .ok proof := by
  obtain ⟨f, hf⟩ := exists_ofFn_of_mem hf pp.f_mem
  have hB : (primeSubgroup EdwardsPoint).subtype basepoint = basepoint := rfl
  rw [proveShuffleAdaptedPreprocess_eq hf hB hn π coins] at hhint
  cases hhint
  obtain ⟨gD, hgD⟩ : ∃ gD, vartimeMultiscalarMul (List.ofFn coins.d) (List.ofFn g) = .ok gD :=
    ⟨_, vartimeMultiscalarMul_eq_ok.mpr ⟨by rw [List.length_ofFn, List.length_ofFn], rfl⟩⟩
  have hx : ∀ z : Fin n → Scalar, (List.range n).mapM (fun i => do
      return s * (← idx (List.ofFn z) (← idx (permList π) i)) + (← idx (List.ofFn coins.d) i)) =
      .ok (List.ofFn fun i => s * z (π i) + coins.d i) := fun z =>
    mapM_range fun i => by simp [permList]
  have hzπ : ∀ z : Fin n → Scalar, (permList π).mapM (idx (List.ofFn z)) =
      .ok (List.ofFn (z ∘ π)) := fun z => mapM_ofFn fun i => by simp
  simp only [pure_eq_ok] at hx
  simp only [proveShuffleAdaptedWith, List.length_ofFn, hgD, ok_bind, hx, hzπ,
    commit_map _ hf hB, zRhoList_ofFn, pure_eq_ok]
  rw [proveShuffleKnownWith_eq hf hB hn ch.psi rfl rfl]
  exact ⟨_, rfl⟩

/-- **The prover returns on as many points as there are generators, and on no others.** -/
theorem returns_proveShuffleAdapted (hf : pp.f.length = n) (hn : n ≠ 0)
    (hhint : proveShuffleAdaptedPreprocess pp (permList π) n coins = .ok hint) (O : Oracles)
    (pk : EdwardsPoint) (g : List EdwardsPoint) (_g _h : List Bytes32) (s : Scalar) :
    Returns (proveShuffleAdapted O pp pk hint g _g _h s (permList π)) ↔ g.length = n := by
  constructor
  · rintro ⟨proof, hproof⟩
    obtain ⟨cD, -, hrest⟩ := bind_eq_ok.mp hhint
    obtain ⟨cPi, -, hrest⟩ := bind_eq_ok.mp hrest
    obtain ⟨hint2, -, hrest⟩ := bind_eq_ok.mp hrest
    cases hrest
    obtain ⟨gD, hgD, -⟩ := bind_eq_ok.mp hproof
    have hlen := (vartimeMultiscalarMul_eq_ok.mp hgD).1
    rw [List.length_ofFn] at hlen
    exact hlen.symm
  · rintro rfl
    obtain ⟨proof, hproof⟩ := exists_proveShuffleAdaptedWith hf hn hhint
      (Challenger.hash O (compress pk) _g _h g.length) g.get s
    rw [List.ofFn_get] at hproof
    exact ⟨proof, hproof⟩

end Prover

/-! ### Blinding the points of the other party -/

section BlindShuffle

variable {party : Party} {pp : PublicParams EdwardsPoint} {n : ℕ} {coins : PartyCoins n n}
  (hparty : Built party pp coins) {pointsOther : List EdwardsPoint}
  {_pointsOther : List CompressedEdwardsY}

include hparty

/-- The points blinded and shuffled. -/
theorem mapM_piInv (g : Fin n → EdwardsPoint) :
    (List.range n).mapM (fun i => do
      return mulScalar (← idx (List.ofFn g) (← idx party.piInv i)) party.sk) =
      .ok (shuffled party.sk coins.π g) := by
  rw [hparty.piInv]
  exact mapM_range fun i => by simp [permList]

/-- **`blind_shuffle` on the right number of points.** -/
theorem exists_blindShuffle (O : Oracles) (hlen : _pointsOther.length = n)
    (g : Fin n → EdwardsPoint) :
    ∃ proof, proveShuffleAdapted O pp party.pk party.hint (List.ofFn g) _pointsOther
        ((shuffled party.sk coins.π g).map compress) party.sk party.pi = .ok proof ∧
      blindShuffle O party pp (List.ofFn g) _pointsOther = .ok
        { proof, points := shuffled party.sk coins.π g
          _points := (shuffled party.sk coins.π g).map compress } := by
  obtain ⟨proof, hproof⟩ := (returns_proveShuffleAdapted hparty.length_f hparty.n_ne_zero
    hparty.hint O party.pk (List.ofFn g) _pointsOther ((shuffled party.sk coins.π g).map compress)
    party.sk).mpr List.length_ofFn
  rw [← hparty.pi] at hproof
  refine ⟨proof, hproof, ?_⟩
  simp only [blindShuffle, hlen]
  rw [mapM_piInv hparty, ok_bind, hproof]
  rfl

/-- **The shuffle of a party is accepted**, a shuffle of one point if its hint says so. -/
theorem exists_blindShuffle_verified (O : Oracles) {g : Fin n → EdwardsPoint}
    (hg : ∀ i, g i ∈ primeSubgroup EdwardsPoint) :
    ∃ proof, blindShuffle O party pp (List.ofFn g) ((List.ofFn g).map compress) = .ok
        { proof, points := shuffled party.sk coins.π g
          _points := (shuffled party.sk coins.π g).map compress } ∧
      proof.x.length = n ∧ proof.psi.f.length = n ∧ proof.psi.fDelta.length = n ∧
      ∀ alpha1 alpha2, verifyShuffleAdapted O pp party.pk (List.ofFn g)
        (shuffled party.sk coins.π g) ((List.ofFn g).map compress)
        ((shuffled party.sk coins.π g).map compress) proof alpha1 alpha2 = .ok true ↔
          (n = 1 → ∀ i, coins.hint.hint2.d i = 0) := by
  have hlen : ((List.ofFn g).map compress).length = n := by
    rw [List.length_map, List.length_ofFn]
  obtain ⟨proof, hproof, hshuffle⟩ := exists_blindShuffle hparty O hlen g
  obtain ⟨hint, proof', hhint, hproof', hx, hf, hfDelta, hverify⟩ := verifyShuffleAdapted_honest O
    hparty.length_f hparty.n_ne_zero coins.π party.sk hg coins.hint
  -- the prover is given the hint that the party was built with
  cases hhint.symm.trans hparty.hint
  rw [← hparty.pk, ← hparty.pi, hproof] at hproof'
  cases hproof'
  rw [← hparty.pk] at hverify
  exact ⟨proof, hshuffle, hx, hf, hfDelta, hverify⟩

/-- **`blind_shuffle` returns on the right number of points only.** -/
theorem blindShuffle_returns_iff (O : Oracles) (hlen : pointsOther.length = _pointsOther.length) :
    Returns (blindShuffle O party pp pointsOther _pointsOther) ↔ _pointsOther.length = n := by
  constructor
  · rintro ⟨out, hout⟩
    obtain ⟨points, -, hout⟩ := bind_eq_ok.mp hout
    obtain ⟨proof, hproof, -⟩ := bind_eq_ok.mp hout
    rw [hparty.pi] at hproof
    exact hlen.symm.trans ((returns_proveShuffleAdapted hparty.length_f hparty.n_ne_zero
      hparty.hint O party.pk pointsOther _pointsOther (points.map compress) party.sk).mp
      ⟨proof, hproof⟩)
  · intro hn
    obtain ⟨g, rfl⟩ := exists_ofFn (hlen.trans hn)
    obtain ⟨proof, -, hout⟩ := exists_blindShuffle hparty O hn g
    exact ⟨_, hout⟩

end BlindShuffle

end Party

end MaliciousPsu
