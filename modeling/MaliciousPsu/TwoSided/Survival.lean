import MaliciousPsu.Aok.Batching
import MaliciousPsu.Aok.Sizes
import MaliciousPsu.TwoSided.Protocol

/-!
# Messages that a party survives

Every `unwrap`, index and multiscalar multiplication that a peer's message reaches, round by round.

* `returns_verifyShuffleAdapted`: what the verifier of a shuffle needs to return at all.
* `returns_finalResponse`, `returns_reveal`: rounds 3 and 4.
* `protocol_survives_iff`: a run does not panic exactly on the messages that survive all four.
-/

namespace MaliciousPsu

/-! ### The verifier of a shuffle -/

section Verifier

variable {G : Type} [AddCommGroup G] [DecidableEq G] [BasePoint G]

/-- The checks of the product and of the key. -/
def InnerHolds (pk : G) (P : ShufflePoints G) (S : ShuffleScalars) (zRho : List Scalar)
    (delta psiX psiE : Scalar) : Prop :=
  recomputeF psiE psiX S.f S.fDelta (zRho.length - 1) = .ok (psiE * knownProduct zRho psiX) ∧
    mulBase S.v = P.gU + mulScalar pk delta

/-- The check of the batched commitments. -/
def BatchHolds (pp : PublicParams G) (P : ShufflePoints G) (S : ShuffleScalars)
    (delta psiE alpha1 alpha2 : Scalar) : Prop :=
  commit pp
      (List.zipWith (fun (fi, fDeltai) xi => alpha1 * fi + alpha2 * fDeltai + xi * delta)
        (S.f.zip S.fDelta) S.x) (S.psiZ * alpha1 + S.psiZDelta * alpha2) =
    .ok (mulScalar (mulScalar (P.cZ + mulScalar P.cPi delta) psiE + P.psiCD) alpha1
      + mulScalar (mulScalar P.psiCA psiE + P.psiCDelta) alpha2
      + (mulScalar P.cZ S.v + mulScalar P.cD delta + P.cU - mulBase S.v2))

/-- The vectors of a proof are long enough for the checks that the verifier reaches. -/
structure Readable (pp : PublicParams G) (pk : G) (h : List G) (P : ShufflePoints G)
    (S : ShuffleScalars) (zRho : List Scalar) (delta psiX psiE alpha1 alpha2 : Scalar) : Prop where
  f : zRho.length - 1 < S.f.length
  fDelta : zRho.length - 1 ≤ S.fDelta.length
  batch : InnerHolds pk P S zRho delta psiX psiE →
    min (min S.f.length S.fDelta.length) S.x.length = pp.f.length
  shuffle : InnerHolds pk P S zRho delta psiX psiE →
    BatchHolds pp P S delta psiE alpha1 alpha2 → S.x.length = h.length

variable {pp : PublicParams G} {pk : G} {g h : List G} {P : ShufflePoints G} {S : ShuffleScalars}
  {n : ℕ} {z : Fin n → Scalar} {delta psiX psiE alpha1 alpha2 : Scalar}

theorem returns_recomputeF {e x : Scalar} {f fDelta : List Scalar} {i : ℕ} :
    Returns (recomputeF e x f fDelta i) ↔ i < f.length ∧ i ≤ fDelta.length := by
  simp only [Returns, recomputeF_eq_ok]
  constructor
  · rintro ⟨_, h₁, h₂, -⟩
    exact ⟨h₁, h₂⟩
  · rintro ⟨h₁, h₂⟩
    exact ⟨_, h₁, h₂, rfl⟩

omit [DecidableEq G] in
theorem returns_commit {m : List Scalar} {r : Scalar} :
    Returns (commit pp m r) ↔ m.length = pp.f.length := by
  simp only [Returns, commit_eq_ok]
  constructor
  · rintro ⟨_, h, -⟩
    exact h
  · intro h
    exact ⟨_, h, rfl⟩

omit [DecidableEq G] [BasePoint G] in
theorem returns_vartimeMultiscalarMul {scalars : List Scalar} {points : List G} :
    Returns (vartimeMultiscalarMul scalars points) ↔ scalars.length = points.length := by
  simp only [Returns, vartimeMultiscalarMul_eq_ok]
  constructor
  · rintro ⟨_, h, -⟩
    exact h
  · intro h
    exact ⟨_, h, rfl⟩

/-- A check that makes the verifier return `false` when it fails. -/
theorem returns_check {γ : Type} [DecidableEq γ] {a b : γ} {x : Run Bool} :
    Returns (if a ≠ b then .ok false else x) ↔ (a = b → Returns x) := by
  by_cases hab : a = b
  · rw [if_neg (not_not.mpr hab)]
    exact ⟨fun h _ => h, fun h => h hab⟩
  · rw [if_pos hab]
    exact ⟨fun _ h => absurd h hab, fun _ => returns_ok false⟩

/-- **What the check of a shuffle needs to return.** -/
theorem returns_checkShuffleAdapted (hg : g.length = n) :
    Returns (checkShuffleAdapted pp pk g h P S (List.ofFn z) delta psiX psiE alpha1 alpha2) ↔
      Readable pp pk h P S (List.ofFn (zRho z delta)) delta psiX psiE alpha1 alpha2 := by
  have hlen : (List.zipWith (fun (x : Scalar × Scalar) xi =>
      alpha1 * x.1 + alpha2 * x.2 + xi * delta) (S.f.zip S.fDelta) S.x).length =
      min (min S.f.length S.fDelta.length) S.x.length := by
    rw [List.length_zipWith, List.length_zip]
  have hn : (List.ofFn (zRho z delta)).length = n := List.length_ofFn
  have hmsm : (S.x ++ (List.ofFn z).map fun zi => -zi).length = (g ++ h).length ↔
      S.x.length = h.length := by
    rw [List.length_append, List.length_append, List.length_map, List.length_ofFn, hg]
    omega
  simp only [checkShuffleAdapted, hg, zRhoList_ofFn, ok_bind, returns_bind, pure_eq_ok,
    returns_check]
  constructor
  · rintro ⟨F, hF, hrest⟩
    obtain ⟨hf, hfDelta, -⟩ := recomputeF_eq_ok.mp hF
    have hprod : InnerHolds pk P S (List.ofFn (zRho z delta)) delta psiX psiE →
        F = psiE * knownProduct (List.ofFn (zRho z delta)) psiX := by
      rintro ⟨hprod, -⟩
      rw [hn] at hprod
      exact Except.ok.inj (hF.symm.trans hprod)
    refine ⟨by rwa [hn], by rwa [hn], fun hholds => ?_, fun hholds hbatch => ?_⟩
    · obtain ⟨rhs, hrhs, -⟩ := hrest (hprod hholds) hholds.2
      rw [← hlen]
      exact (commit_eq_ok.mp hrhs).1
    · obtain ⟨rhs, hrhs, hrest⟩ := hrest (hprod hholds) hholds.2
      obtain ⟨rhs2, hrhs2, -⟩ := hrest (Except.ok.inj (hbatch.symm.trans hrhs))
      exact hmsm.mp (vartimeMultiscalarMul_eq_ok.mp hrhs2).1
  · rintro ⟨hf, hfDelta, hbatch, hshuffle⟩
    obtain ⟨F, hF⟩ := returns_recomputeF.mpr ⟨hn ▸ hf, hn ▸ hfDelta⟩
    refine ⟨F, hF, fun hprod hkey => ?_⟩
    have hholds : InnerHolds pk P S (List.ofFn (zRho z delta)) delta psiX psiE :=
      ⟨by rw [hn, hF, hprod], hkey⟩
    obtain ⟨rhs, hrhs⟩ := returns_commit.mpr (hlen.trans (hbatch hholds))
    refine ⟨rhs, hrhs, fun hlhs => ?_⟩
    obtain ⟨rhs2, hrhs2⟩ := returns_vartimeMultiscalarMul.mpr
      (hmsm.mpr (hshuffle hholds (hrhs.trans (congrArg _ hlhs.symm))))
    exact ⟨rhs2, hrhs2, fun _ => returns_ok true⟩

variable [PointEncoding G]

/-- What the verifier of a shuffle needs to return: the nine points decompress and the vectors are
long enough. -/
def VerifierReturns (O : Oracles) (pp : PublicParams G) (pk : G) (g h : List G)
    (_g _h : List Bytes32) (proof : AdaptedShuffleProof) (alpha1 alpha2 : Scalar) : Prop :=
  ∃ P, Decompresses proof P ∧
    let ch := Challenger.hash O (compress pk) _g _h g.length
    let z := ch.z proof._cPi proof._cD proof._gD
    let delta := ch.delta proof._cPi proof._cD proof._gD proof.x proof._cZ proof._gU proof._cU
    let _cRho := compress (P.cZ + mulScalar P.cPi delta)
    let zRho := List.ofFn (zRho z delta)
    Readable pp pk h P proof.scalars zRho delta (ch.psi.x _cRho zRho)
      (ch.psi.e _cRho zRho proof.psi._cD proof.psi._cDelta proof.psi._cA) alpha1 alpha2

/-- **What the verifier of a shuffle needs to return.** -/
theorem returns_verifyShuffleAdapted (O : Oracles) (_g _h : List Bytes32)
    (proof : AdaptedShuffleProof) :
    Returns (verifyShuffleAdapted O pp pk g h _g _h proof alpha1 alpha2) ↔
      VerifierReturns O pp pk g h _g _h proof alpha1 alpha2 := by
  constructor
  · rintro ⟨b, hb⟩
    obtain ⟨P, h₁, h₂, h₃, h₄, h₅, h₆, h₇, h₈, h₉, zRho, hz, hcheck⟩ :=
      verifyShuffleAdaptedWith_eq_ok.mp hb
    rw [zRhoList_ofFn] at hz
    cases hz
    exact ⟨P, ⟨h₁, h₂, h₃, h₄, h₅, h₆, h₇, h₈, h₉⟩,
      (returns_checkShuffleAdapted rfl).mp ⟨b, hcheck⟩⟩
  · rintro ⟨P, ⟨h₁, h₂, h₃, h₄, h₅, h₆, h₇, h₈, h₉⟩, hread⟩
    obtain ⟨b, hb⟩ := (returns_checkShuffleAdapted rfl).mpr hread
    exact ⟨b, verifyShuffleAdaptedWith_eq_ok.mpr ⟨P, h₁, h₂, h₃, h₄, h₅, h₆, h₇, h₈, h₉, _,
      zRhoList_ofFn _ _, hb⟩⟩

end Verifier

namespace Party

/-! ### The responses of round 4 -/

section Rounds

variable {O : Oracles} {party : Party} {pp : PublicParams EdwardsPoint} {coins : RunCoins}
  {pk : EdwardsPoint} {points pointsShuffle : List EdwardsPoint}
  {_points _pointsShuffled _pointsOther : List CompressedEdwardsY} {proof : AdaptedShuffleProof}

theorem returns_batchedDdhProve (O : Oracles) (pk : EdwardsPoint) (g : List EdwardsPoint)
    (_g _h : List Bytes32) (s r : Scalar) : Returns (batchedDdhProve O pk g _g _h s r) := by
  have hlen : (List.ofFn fun i : Fin g.length =>
      O.expand (O.hashA (compress pk) _g _h) i * r).length = g.length := List.length_ofFn
  obtain ⟨c, hc⟩ := returns_vartimeMultiscalarMul.mpr hlen
  exact returns_bind.mpr ⟨c, hc, returns_ok _⟩

/-- The loop over the own points. -/
theorem returns_unblind (h : pointsShuffle.length = _pointsShuffled.length) :
    Returns (party.unblind pointsShuffle _pointsShuffled) ↔ party.n ≤ _pointsShuffled.length := by
  rw [unblind, returns_mapM]
  simp only [List.mem_range, returns_bind]
  constructor
  · intro hrow
    by_contra hn
    obtain ⟨ps, hps, -⟩ := hrow _ (not_le.mp hn)
    have hlt := lt_of_idx hps
    omega
  · intro hn i hi
    exact ⟨_, idx_of_lt (by omega), _, idx_of_lt (by omega), returns_ok _⟩

/-- A response comes from an accepted shuffle. -/
theorem finalResponse_eq_some {response : Response}
    (h : party.finalResponse O pp coins pk points pointsShuffle _points _pointsShuffled _pointsOther
      proof = .ok (some response)) :
    verifyShuffleAdapted O pp pk points pointsShuffle _points _pointsShuffled proof coins.alpha1
        coins.alpha2 = .ok true ∧
      ∃ rows ddh, party.unblind pointsShuffle _pointsShuffled = .ok rows ∧
        let kept := missing _pointsOther rows
        batchedDdhProve O party.pk (kept.map Unblinded.p) ((kept.map Unblinded.p).map compress)
          (kept.map Unblinded._ps) party.sk coins.r = .ok ddh ∧
        response = { _unblinded := (kept.map Unblinded.p).map compress
                     ind := kept.map fun point => UInt32.ofNat point.i, proof := ddh } := by
  obtain ⟨b, hb, h⟩ := bind_eq_ok.mp h
  cases b with
  | false => cases h
  | true =>
    obtain ⟨rows, hrows, h⟩ := bind_eq_ok.mp h
    obtain ⟨ddh, hddh, h⟩ := bind_eq_ok.mp h
    cases h
    exact ⟨hb, rows, ddh, hrows, hddh, rfl⟩

/-- An accepted shuffle gets a response. -/
theorem exists_response {response : Option Response}
    (hb : verifyShuffleAdapted O pp pk points pointsShuffle _points _pointsShuffled proof
      coins.alpha1 coins.alpha2 = .ok true)
    (h : party.finalResponse O pp coins pk points pointsShuffle _points _pointsShuffled _pointsOther
      proof = .ok response) : ∃ own, response = some own := by
  obtain ⟨b, hb', h⟩ := bind_eq_ok.mp h
  rw [hb] at hb'
  cases hb'
  obtain ⟨rows, -, h⟩ := bind_eq_ok.mp h
  obtain ⟨ddh, -, h⟩ := bind_eq_ok.mp h
  cases h
  exact ⟨_, rfl⟩

variable (_pointsOther) in
/-- **Round 3** needs nothing but what the verifier needs: an accepted list is long enough for the
loop over the own points. -/
theorem returns_finalResponse {n : ℕ} {partyCoins : PartyCoins n n}
    (hparty : Built party pp partyCoins) (hlen : pointsShuffle.length = _pointsShuffled.length) :
    Returns (party.finalResponse O pp coins pk points pointsShuffle _points _pointsShuffled
        _pointsOther proof) ↔
      VerifierReturns O pp pk points pointsShuffle _points _pointsShuffled proof coins.alpha1
        coins.alpha2 := by
  rw [← returns_verifyShuffleAdapted, finalResponse, returns_bind]
  constructor
  · rintro ⟨b, hb, -⟩
    exact ⟨b, hb⟩
  · rintro ⟨b, hb⟩
    refine ⟨b, hb, ?_⟩
    cases b with
    | false => exact returns_ok none
    | true =>
      obtain ⟨hmin, hx⟩ := verifyShuffleAdapted_lengths hb
      have hn : party.n ≤ _pointsShuffled.length := by
        have hf := hparty.length_f
        have heq := hparty.n_eq
        omega
      obtain ⟨rows, hrows⟩ := (returns_unblind hlen).mpr hn
      obtain ⟨ddh, hddh⟩ := returns_batchedDdhProve O party.pk
        ((missing _pointsOther rows).map Unblinded.p)
        (((missing _pointsOther rows).map Unblinded.p).map compress)
        ((missing _pointsOther rows).map Unblinded._ps) party.sk coins.r
      exact returns_bind.mpr ⟨rows, hrows, returns_bind.mpr ⟨ddh, hddh, returns_ok _⟩⟩

end Rounds

section Reveal

variable {O : Oracles} {party : Party} {pk : EdwardsPoint} {points : List EdwardsPoint}
  {right : Response}

/-- The indices and the encodings of round 4 that the loop over the indices can read. -/
structure Openable (points : List EdwardsPoint) (right : Response) : Prop where
  length_le : right.ind.length ≤ right._unblinded.length
  decompress : ∀ u ∈ right._unblinded.take right.ind.length, ∃ P : EdwardsPoint,
    decompress u = some P
  ind_lt : ∀ j ∈ right.ind, j.toNat < points.length

/-- One turn of the loop over the indices. -/
theorem returns_row {i : ℕ} (hi : i < right.ind.length) :
    Returns (do
      let j := (← idx right.ind i).toNat
      let unblinded : EdwardsPoint ← unwrap (decompress (← idx right._unblinded i))
      return (unblinded, ← idx points j, ← idx (points.map compress) j)) ↔
    ∃ hu : i < right._unblinded.length,
      (∃ P : EdwardsPoint, decompress right._unblinded[i] = some P) ∧
        right.ind[i].toNat < points.length := by
  simp only [returns_bind]
  constructor
  · rintro ⟨j, hj, u, hu, P, hP, Q, hQ, -⟩
    rw [idx_of_lt hi] at hj
    cases hj
    have hlt := lt_of_idx hu
    rw [idx_of_lt hlt] at hu
    cases hu
    exact ⟨hlt, ⟨P, unwrap_eq_ok.mp hP⟩, lt_of_idx hQ⟩
  · rintro ⟨hu, ⟨P, hP⟩, hlt⟩
    have hlt' : right.ind[i].toNat < (points.map compress).length := by
      rw [List.length_map]
      exact hlt
    exact ⟨_, idx_of_lt hi, _, idx_of_lt hu, P, unwrap_eq_ok.mpr hP, _, idx_of_lt hlt, _,
      idx_of_lt hlt', returns_ok _⟩

theorem returns_shrink :
    Returns (shrink points (points.map compress) right) ↔ Openable points right := by
  rw [shrink, returns_mapM]
  constructor
  · intro hrow
    have hread := fun i (hi : i < right.ind.length) =>
      (returns_row hi).mp (hrow i (List.mem_range.mpr hi))
    refine ⟨?_, fun u hu => ?_, fun j hj => ?_⟩
    · by_contra hle
      obtain ⟨hu, -⟩ := hread _ (not_le.mp hle)
      exact lt_irrefl _ hu
    · obtain ⟨i, hi, rfl⟩ := List.getElem_of_mem hu
      rw [List.length_take] at hi
      obtain ⟨hlt, hP, -⟩ := hread i (lt_min_iff.mp hi).1
      rw [List.getElem_take]
      exact hP
    · obtain ⟨i, hi, rfl⟩ := List.getElem_of_mem hj
      exact (hread i hi).2.2
  · rintro ⟨hle, hdec, hlt⟩ i hi
    have hi := List.mem_range.mp hi
    have hu := hi.trans_le hle
    refine (returns_row hi).mpr ⟨hu, hdec _ ?_, hlt _ (List.getElem_mem hi)⟩
    have hmem := List.getElem_mem (l := right._unblinded.take right.ind.length) (n := i)
      (by rw [List.length_take]; exact lt_min hi hu)
    rwa [List.getElem_take] at hmem

/-- The proof of round 4 is accepted for the points that the loop has read. -/
def OpeningProved (O : Oracles) (pk : EdwardsPoint) (points : List EdwardsPoint)
    (right : Response) : Prop :=
  ∃ rows, shrink points (points.map compress) right = .ok rows ∧
    batchedDdhVerify O pk (rows.map fun row => row.1) (rows.map fun row => row.2.1)
      right._unblinded (rows.map fun row => row.2.2) right.proof = .ok true

/-- **Round 4**: the items are revealed exactly when the proof is accepted, and no other outcome is
not a panic. -/
theorem returns_reveal {proof : AdaptedShuffleProof} :
    Returns (party.reveal O pk { proof, points, _points := points.map compress } right) ↔
      OpeningProved O pk points right := by
  simp only [reveal, returns_bind]
  constructor
  · rintro ⟨rows, hrows, items, hitems, output, houtput, -⟩
    refine ⟨rows, hrows, ?_⟩
    obtain ⟨b, hb, hitems⟩ := bind_eq_ok.mp hitems
    cases b with
    | true => exact hb
    | false =>
      cases hitems
      cases houtput
  · rintro ⟨rows, hrows, hverify⟩
    refine ⟨rows, hrows, _, bind_eq_ok.mpr ⟨true, hverify, rfl⟩, _, rfl, returns_ok _⟩

end Reveal

/-! ### Whole runs -/

section Runs

variable {n : ℕ} {O : Oracles} {pp : PublicParams EdwardsPoint} {partyCoins : PartyCoins n n}
  {party : Party}

/-- The messages that a party survives: as long as each is of its round, the points of round 2
decompress, and, if `sigma` fits, are `n`; the points of round 3 decompress and the verifier can
read the proof; and if that is accepted, round 4 opens points that there are, with a valid proof. -/
def Survives (O : Oracles) (party : Party) (pp : PublicParams EdwardsPoint)
    (partyCoins : PartyCoins n n) (coins : RunCoins) (ms : ℕ → Message) : Prop :=
  ∀ sigma pk _points, ms 0 = .round1 sigma → ms 1 = .round2 pk _points →
    ∃ points, Decompressed _points points ∧
    (hashSigma O pk _points = sigma → ∃ g : Fin n → EdwardsPoint, points = List.ofFn g ∧
      ∀ proof _shuffled, ms 2 = .round3 proof _shuffled →
        ∃ shuffledPoints, Decompressed _shuffled shuffledPoints ∧
        VerifierReturns O pp pk party.ownPoints shuffledPoints party._ownPoints _shuffled proof
          coins.alpha1 coins.alpha2 ∧
        (verifyShuffleAdapted O pp pk party.ownPoints shuffledPoints party._ownPoints _shuffled
            proof coins.alpha1 coins.alpha2 = .ok true →
          ∀ right : Response, ms 3 = .round4 right.proof right._unblinded right.ind →
            let h := shuffled party.sk partyCoins.π g
            Openable h right ∧ OpeningProved O pk h right))

/-- What `blind_shuffle` returns, for the points of the other party as a family. -/
theorem blindShuffle_eq_ok (hparty : Built party pp partyCoins) {points : List EdwardsPoint}
    {_points : List CompressedEdwardsY} (hdec : Decompressed _points points) {shuffle : Shuffle}
    (h : party.blindShuffle O pp points _points = .ok shuffle) :
    ∃ (g : Fin n → EdwardsPoint) (proof : AdaptedShuffleProof), points = List.ofFn g ∧
      shuffle = { proof, points := shuffled party.sk partyCoins.π g
                  _points := (shuffled party.sk partyCoins.π g).map compress } := by
  have hlen := hdec.length_eq
  have hn := (blindShuffle_returns_iff hparty O hlen.symm).mp ⟨shuffle, h⟩
  obtain ⟨g, rfl⟩ := exists_ofFn (hlen.symm.trans hn)
  obtain ⟨proof, -, h'⟩ := exists_blindShuffle hparty O hn g
  exact ⟨g, proof, rfl, Except.ok.inj (h.symm.trans h')⟩

/-- **What a party survives.**  A run on the messages `ms` returns `Some` or `None` exactly when
these survive all rounds. -/
theorem protocol_survives_iff {server : Bool} {input : List UInt8} {aes : Block → Block → Block}
    {aesKey : Block} (O : Oracles) (coins : RunCoins) (ms : ℕ → Message)
    (hnew : Party.new server input aes aesKey pp n n partyCoins = .ok party) :
    (∃ out, (party.protocol O pp coins).run ms = .ok out) ↔
      Survives O party pp partyCoins coins ms := by
  obtain ⟨hparty, -⟩ := built_of_new hnew
  refine returns_protocol.trans ?_
  constructor
  · intro h sigma pk _points h₁ h₂
    obtain ⟨points, hdec, h⟩ := h sigma h₁ (pk, _points) h₂
    refine ⟨points, hdec, fun hsigma => ?_⟩
    obtain ⟨shuffle, hshuffle, h⟩ := h hsigma
    obtain ⟨g, prf, rfl, rfl⟩ := blindShuffle_eq_ok hparty hdec hshuffle
    refine ⟨g, rfl, fun proof _shuffled h₃ => ?_⟩
    obtain ⟨shuffledPoints, hdec₃, response, hresponse, h⟩ := h (proof, _shuffled) h₃
    refine ⟨shuffledPoints, hdec₃,
      (returns_finalResponse _points hparty hdec₃.length_eq.symm).mp ⟨response, hresponse⟩,
      fun haccept right h₄ => ?_⟩
    obtain ⟨own, hown⟩ := exists_response haccept hresponse
    obtain ⟨rows, hrows, hverify⟩ := returns_reveal.mp (h own hown right h₄)
    exact ⟨returns_shrink.mp ⟨rows, hrows⟩, rows, hrows, hverify⟩
  · rintro h sigma h₁ ⟨pk, _points⟩ h₂
    obtain ⟨points, hdec, h⟩ := h sigma pk _points h₁ h₂
    refine ⟨points, hdec, fun hsigma => ?_⟩
    obtain ⟨g, rfl, hrest⟩ := h hsigma
    have hn : _points.length = n := hdec.length_eq.trans List.length_ofFn
    obtain ⟨prf, -, hshuffle⟩ := exists_blindShuffle hparty O hn g
    refine ⟨_, hshuffle, ?_⟩
    rintro ⟨proof, _shuffled⟩ h₃
    obtain ⟨shuffledPoints, hdec₃, hverifier, hrest⟩ := hrest proof _shuffled h₃
    obtain ⟨response, hresponse⟩ :=
      (returns_finalResponse _points hparty hdec₃.length_eq.symm).mpr hverifier
    refine ⟨shuffledPoints, hdec₃, response, hresponse, fun own hown right h₄ => ?_⟩
    rw [hown] at hresponse
    exact returns_reveal.mpr (hrest (finalResponse_eq_some hresponse).1 right h₄).2

theorem verifySigma_hashSigma (O : Oracles) (pk : EdwardsPoint)
    {_points : List CompressedEdwardsY} {points : List EdwardsPoint}
    (hdec : Decompressed _points points) :
    verifySigma O (hashSigma O pk _points) pk _points = .ok (true, points) :=
  verifySigma_eq_ok.mpr ⟨hdec, (beq_self_eq_true _).symm⟩

/-- **A run up to round 4**, on messages that are accepted up to there. -/
theorem run_eq_reveal {O : Oracles} (coins : RunCoins) (ms : ℕ → Message) {pk : EdwardsPoint}
    {_points _shuffled : List CompressedEdwardsY} {g : Fin n → EdwardsPoint}
    {proof : AdaptedShuffleProof} {shuffledPoints : List EdwardsPoint} (right : Response)
    (hparty : Built party pp partyCoins) (h₁ : ms 0 = .round1 (hashSigma O pk _points))
    (h₂ : ms 1 = .round2 pk _points) (hdec : Decompressed _points (List.ofFn g))
    (h₃ : ms 2 = .round3 proof _shuffled) (hdec₃ : Decompressed _shuffled shuffledPoints)
    (haccept : verifyShuffleAdapted O pp pk party.ownPoints shuffledPoints party._ownPoints
      _shuffled proof coins.alpha1 coins.alpha2 = .ok true)
    (h₄ : ms 3 = .round4 right.proof right._unblinded right.ind) :
    ∃ prf, (party.protocol O pp coins).run ms =
      party.reveal O pk { proof := prf, points := shuffled party.sk partyCoins.π g
                          _points := (shuffled party.sk partyCoins.π g).map compress } right := by
  obtain ⟨prf, -, hshuffle⟩ := exists_blindShuffle hparty O
    (hdec.length_eq.trans List.length_ofFn) g
  obtain ⟨response, hresponse⟩ := (returns_finalResponse _points hparty
    hdec₃.length_eq.symm).mpr ((returns_verifyShuffleAdapted O _ _ proof).mp ⟨true, haccept⟩)
  obtain ⟨own, rfl⟩ := exists_response haccept hresponse
  have hsigma := verifySigma_hashSigma O pk hdec
  refine ⟨prf, ?_⟩
  have hround₁ := Message.round1?_eq_some.mpr h₁
  have hround₂ : (ms 1).round2? = some (pk, _points) := Message.round2?_eq_some.mpr h₂
  have hround₃ : (ms 2).round3? = some (proof, _shuffled) := Message.round3?_eq_some.mpr h₃
  have hround₄ := Message.round4?_eq_some.mpr h₄
  rw [protocol, Dialogue.run_attempt, gen_eq, ok_bind, Dialogue.run_exchange_of_eq hround₁,
    Dialogue.run_exchange_of_eq hround₂, Dialogue.run_attempt, hsigma, ok_bind, run_ite_true rfl,
    Dialogue.run_attempt, hshuffle, ok_bind,
    Dialogue.run_exchange_of_eq hround₃, Dialogue.run_attempt, mapM_decompress.mpr hdec₃, ok_bind,
    Dialogue.run_attempt, hresponse, ok_bind]
  exact Dialogue.run_exchange_of_eq hround₄

end Runs

/-- The choices of a party of two items that draws zeros and does not shuffle. -/
def zeroCoins : PartyCoins 2 2 := ⟨0, 1, .zero 2⟩

/-- A server of the items 3 and 4. -/
theorem exists_twoParty (server : Bool) : ∃ party,
    Party.new server (flatten [3, 4]) (fun _ b => b) 0 twoParams 2 2 zeroCoins = .ok party :=
  exists_new (show twoParams.f.length = 2 from rfl) two_ne_zero zeroCoins

/-- A peer that answers round 2 with bytes that are no point. -/
def undecodable : ℕ → Message
  | 0 => .round1 0
  | _ => .round2 basepoint [2]

/-- A run against it. -/
theorem protocol_survives_iff_undecodable : ∃ party,
    Party.new true (flatten [3, 4]) (fun _ b => b) 0 twoParams 2 2 zeroCoins = .ok party ∧
      ((∃ out, (party.protocol Oracles.reading twoParams ⟨0, 0, 0⟩).run undecodable = .ok out) ↔
        Survives Oracles.reading party twoParams zeroCoins ⟨0, 0, 0⟩ undecodable) := by
  obtain ⟨party, hnew⟩ := exists_twoParty true
  exact ⟨party, hnew, protocol_survives_iff Oracles.reading ⟨0, 0, 0⟩ undecodable hnew⟩

/-- **One encoding that is no point** makes the party panic. -/
theorem protocol_panics_undecodable : ∃ party,
    Party.new true (flatten [3, 4]) (fun _ b => b) 0 twoParams 2 2 zeroCoins = .ok party ∧
      ¬ ∃ out, (party.protocol Oracles.reading twoParams ⟨0, 0, 0⟩).run undecodable = .ok out := by
  obtain ⟨party, hnew⟩ := exists_twoParty true
  refine ⟨party, hnew, fun hreturns => ?_⟩
  obtain ⟨points, hdec, -⟩ := returns_protocol.mp hreturns 0 rfl (basepoint, [2]) rfl
  have hnone : (decompress 2 : Option EdwardsPoint) = none := by decide +kernel
  cases hdec with
  | cons hP _ =>
    rw [hnone] at hP
    cases hP

end Party

end MaliciousPsu
