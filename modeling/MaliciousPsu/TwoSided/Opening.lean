import MaliciousPsu.TwoSided.Survival

/-!
# Opening points in round 4

The list of indices and the list of encodings of round 4 are the peer's.  The loop reads as many
encodings as there are indices, and the proof speaks of the points read.

* `exists_reveal`: points opened by the owner of the key are revealed, item by item.
* `protocol_validated_iff`: what a run that returned `Some` says about the message of round 4.
-/

namespace MaliciousPsu

namespace Party

section Opening

variable {n k : ℕ} {O : Oracles} {party : Party}

/-- The message of round 4 that opens the points `Q` at the indices `js`. -/
def opening (js : Fin k → Fin n) (Q : Fin k → EdwardsPoint) (proof : BatchedDDHProof) :
    Response where
  _unblinded := (List.ofFn Q).map compress
  ind := List.ofFn fun i => UInt32.ofNat (js i)
  proof := proof

/-- The points read by the loop over the indices. -/
theorem shrink_opening (h : Fin n → EdwardsPoint) {js : Fin k → Fin n}
    (hjs : ∀ i, (js i : ℕ) < 2 ^ 32) (Q : Fin k → EdwardsPoint) (proof : BatchedDDHProof) :
    shrink (List.ofFn h) ((List.ofFn h).map compress) (opening js Q proof) =
      .ok (List.ofFn fun i => (Q i, h (js i), compress (h (js i)))) := by
  have hlen : (opening js Q proof).ind.length = k := List.length_ofFn
  rw [shrink, hlen]
  refine mapM_range fun i => ?_
  have hj : (UInt32.ofNat (js i)).toNat = js i := by
    rw [UInt32.toNat_ofNat', Nat.mod_eq_of_lt (hjs i)]
  have hind : idx (opening js Q proof).ind i = .ok (UInt32.ofNat (js i)) := idx_ofFn _ i
  have hQ : idx (opening js Q proof)._unblinded i = .ok (compress (Q i)) := by
    rw [opening, List.map_ofFn]
    exact idx_ofFn _ i
  have hh : idx ((List.ofFn h).map compress) (js i) = .ok (compress (h (js i))) := by
    rw [List.map_ofFn]
    exact idx_ofFn _ (js i)
  rw [hind, ok_bind, hj, hQ, ok_bind, PointEncoding.decompress_compress, unwrap_some, ok_bind,
    idx_ofFn, ok_bind, hh, ok_bind, pure_eq_ok]

/-- The own indices whose point, with the key removed, has an encoding that was not submitted. -/
def keptIndices (party : Party) (h : Fin n → EdwardsPoint)
    (_pointsOther : List CompressedEdwardsY) : List (Fin n) :=
  (List.finRange n).filter fun i =>
    !_pointsOther.contains (compress (mulScalar (h i) party.skInv))

/-- **The response to an accepted shuffle** opens the points at these indices. -/
theorem finalResponse_eq_opening {pp : PublicParams EdwardsPoint} {coins : RunCoins}
    {pk : EdwardsPoint} {points : List EdwardsPoint} {_points : List CompressedEdwardsY}
    {proof : AdaptedShuffleProof} {h : Fin n → EdwardsPoint} (hn : party.n = n)
    (_pointsOther : List CompressedEdwardsY)
    (haccept : verifyShuffleAdapted O pp pk points (List.ofFn h) _points
      ((List.ofFn h).map compress) proof coins.alpha1 coins.alpha2 = .ok true)
    {js : Fin k → Fin n} (hjs : List.ofFn js = party.keptIndices h _pointsOther)
    {Q : Fin k → EdwardsPoint} (hQ : ∀ i, Q i = mulScalar (h (js i)) party.skInv)
    {ddh : BatchedDDHProof} (hddh : batchedDdhProve O party.pk (List.ofFn Q)
      ((List.ofFn Q).map compress) (List.ofFn fun i => compress (h (js i))) party.sk coins.r =
        .ok ddh) :
    party.finalResponse O pp coins pk points (List.ofFn h) _points ((List.ofFn h).map compress)
      _pointsOther proof = .ok (some (opening js Q ddh)) := by
  obtain ⟨row, hrow⟩ : ∃ row : Fin n → Unblinded, row = fun i =>
      ⟨i, compress (h i), mulScalar (h i) party.skInv⟩ := ⟨_, rfl⟩
  have hrows : party.unblind (List.ofFn h) ((List.ofFn h).map compress) = .ok (List.ofFn row) := by
    rw [unblind, hn]
    refine mapM_range fun i => ?_
    rw [List.map_ofFn, idx_ofFn, ok_bind, idx_ofFn, ok_bind, hrow]
    rfl
  have hmissing : missing _pointsOther (List.ofFn row) = List.ofFn (row ∘ js) := by
    rw [← List.map_ofFn, hjs, missing, List.ofFn_eq_map, List.filter_map, hrow]
    rfl
  have hp : (List.ofFn (row ∘ js)).map Unblinded.p = List.ofFn Q := by
    rw [List.map_ofFn, hrow]
    exact congrArg List.ofFn (funext fun i => (hQ i).symm)
  have hps : (List.ofFn (row ∘ js)).map Unblinded._ps = List.ofFn fun i => compress (h (js i)) := by
    rw [List.map_ofFn, hrow]
    rfl
  have hi : (List.ofFn (row ∘ js)).map (fun point => UInt32.ofNat point.i) =
      List.ofFn fun i => UInt32.ofNat (js i) := by
    rw [List.map_ofFn, hrow]
    rfl
  rw [finalResponse, haccept, ok_bind, hrows, ok_bind]
  dsimp only
  rw [Bool.not_true, if_neg Bool.false_ne_true, hmissing, hp, hps, hddh, ok_bind, hi]
  rfl

theorem revealItems_of_verify (party : Party) {pk : EdwardsPoint}
    {unblinded shrinked : List EdwardsPoint} {_unblinded _shrinked : List CompressedEdwardsY}
    {proof : BatchedDDHProof}
    (h : batchedDdhVerify O pk unblinded shrinked _unblinded _shrinked proof = .ok true) :
    party.revealItems O pk unblinded _unblinded shrinked _shrinked proof =
      .ok (some (flatten (unblinded.map fun point =>
        recoverFromPoint (mulScalar point party.sk8Inv) party.permut))) := by
  rw [revealItems, h]
  rfl

/-- **Points opened by the owner of the key are revealed.** -/
theorem exists_reveal (O : Oracles) (party : Party) {h : Fin n → EdwardsPoint}
    {js : Fin k → Fin n} (hjs : ∀ i, (js i : ℕ) < 2 ^ 32) {Q : Fin k → EdwardsPoint} (s r : Scalar)
    (hQ : ∀ i, Q i ∈ primeSubgroup EdwardsPoint) (hs : ∀ i, h (js i) = mulScalar (Q i) s) :
    ∃ proof, batchedDdhProve O (mulBase s) (List.ofFn Q) ((List.ofFn Q).map compress)
        (List.ofFn fun i => compress (h (js i))) s r = .ok proof ∧
      ∀ prf, party.reveal O (mulBase s)
          { proof := prf, points := List.ofFn h, _points := (List.ofFn h).map compress }
          (opening js Q proof) =
        .ok (some (flatten ((List.ofFn Q).map fun point =>
          recoverFromPoint (mulScalar point party.sk8Inv) party.permut))) := by
  obtain ⟨proof, hproof, hverify⟩ := batchedDdhVerify_complete O s r hQ ((List.ofFn Q).map compress)
    (List.ofFn fun i => compress (h (js i)))
  refine ⟨proof, hproof, fun prf => ?_⟩
  have hrows := shrink_opening h hjs Q proof
  simp only [← hs] at hverify
  have h₁ : (List.ofFn fun i => (Q i, h (js i), compress (h (js i)))).map (fun row => row.1) =
      List.ofFn Q := by
    rw [List.map_ofFn]
    rfl
  have h₂ : (List.ofFn fun i => (Q i, h (js i), compress (h (js i)))).map (fun row => row.2.1) =
      List.ofFn fun i => h (js i) := by
    rw [List.map_ofFn]
    rfl
  have h₃ : (List.ofFn fun i => (Q i, h (js i), compress (h (js i)))).map (fun row => row.2.2) =
      List.ofFn fun i => compress (h (js i)) := by
    rw [List.map_ofFn]
    rfl
  have hunblinded : (opening js Q proof)._unblinded = (List.ofFn Q).map compress := rfl
  have hpr : (opening js Q proof).proof = proof := rfl
  rw [reveal, hrows, ok_bind, h₁, h₂, h₃, hunblinded, hpr, revealItems_of_verify party hverify,
    ok_bind, unwrap_some, ok_bind, pure_eq_ok]

end Opening

/-! ### Points that no item is hashed to -/

/-- The item that is recovered from a point is hashed to it, and a point that no item is hashed to
adds no block to the output of `reveal_items`. -/
structure NeverInvents (permut : FeistelPrp256) (point : EdwardsPoint) : Prop where
  corresponds : Corresponds permut (recoverFromPoint point permut) point
  withheld : (∀ item, ¬ Corresponds permut item point) →
    ∀ (O : Oracles) (party : Party) (pkOther : EdwardsPoint)
      (unblinded shrinked : List EdwardsPoint) (_unblinded _shrinked : List CompressedEdwardsY)
      (proof : BatchedDDHProof) (out : List UInt8),
      party.permut = permut → point ∈ unblinded.map (mulScalar · party.sk8Inv) →
      party.revealItems O pkOther unblinded _unblinded shrinked _shrinked proof = .ok (some out) →
      out.length < 16 * unblinded.length

/-- **When no item is invented**: exactly when some usable item is hashed to the point, or the block
of zeros that is returned when none is found. -/
theorem neverInvents_iff (permut : FeistelPrp256) (point : EdwardsPoint) :
    NeverInvents permut point ↔
      (∃ item, Usable permut item ∧ Corresponds permut item point) ∨
        Corresponds permut 0 point := by
  rw [← recoverFromPoint_corresponds_iff]
  constructor
  · exact NeverInvents.corresponds
  · intro h
    exact ⟨h, fun hnone => absurd h (hnone _)⟩

/-- **A block of zeros for a point that no item is hashed to**: the basepoint. -/
theorem neverInvents_basepoint : ¬ NeverInvents identityPrp basepoint ∧
    (∀ item, ¬ Corresponds identityPrp item basepoint) ∧
    ∃ party Q proof,
      Party.new true (flatten [3, 4]) (fun _ b => b) 0 twoParams 2 2 zeroCoins = .ok party ∧
      party.permut = identityPrp ∧ mulScalar Q party.sk8Inv = basepoint ∧
      party.revealItems Oracles.reading (mulBase 1) [Q] [compress Q] [Q] [compress Q] proof =
        .ok (some (flatten [0])) := by
  have hnone := not_corresponds_basepoint
  refine ⟨fun h => hnone _ h.corresponds, hnone, ?_⟩
  obtain ⟨party, hnew⟩ := exists_twoParty true
  obtain ⟨hparty, -, -, hpermut⟩ := built_of_new hnew
  -- the point that `sk_8inv` takes to the basepoint, opened by a peer with the key 1
  have hmem := BasePoint.basepoint_mem (G := EdwardsPoint)
  obtain ⟨Q, hQ⟩ : ∃ Q : EdwardsPoint, Q = mulScalar basepoint (8 * party.sk) := ⟨_, rfl⟩
  have hQmem : Q ∈ primeSubgroup EdwardsPoint := hQ ▸ mulScalar_mem hmem _
  have hone : 8 * party.sk * party.sk8Inv = 1 := by
    rw [hparty.keys]
    exact (Keys.new_exact zeroCoins.raw).mul_sk8Inv
  have hpoint : mulScalar Q party.sk8Inv = basepoint := by
    rw [hQ, mulScalar_mulScalar hmem, hone, mulScalar_one hmem]
  have hzero : recoverFromPoint basepoint identityPrp = 0 := by
    rw [recoverFromPoint_eq_getD]
    cases hfound : searchPoint basepoint identityPrp with
    | none => rfl
    | some x => exact absurd (of_searchPoint hfound).2 (hnone x)
  obtain ⟨proof, -, hverify⟩ := batchedDdhVerify_complete Oracles.reading 1 0
    (g := fun _ : Fin 1 => Q) (fun _ => hQmem) [compress Q] [compress Q]
  rw [mulScalar_one hQmem] at hverify
  refine ⟨party, Q, proof, hnew, hpermut, hpoint, ?_⟩
  have hreveal := revealItems_of_verify party hverify
  rw [List.ofFn_const, List.map_replicate, hpoint, hpermut] at hreveal
  rw [← hzero]
  exact hreveal

/-! ### A peer that knows its key -/

section Peer

variable {n k : ℕ} {O : Oracles} {pp : PublicParams EdwardsPoint} {partyCoins : PartyCoins n n}
  {party : Party}

theorem ownPoints_mem (hparty : Built party pp partyCoins) :
    ∀ P ∈ party.ownPoints, P ∈ primeSubgroup EdwardsPoint := by
  intro P hP
  obtain ⟨item, -, rfl⟩ := List.mem_map.mp hP
  have hsk : party.sk8 = (Keys.new partyCoins.raw).sk8 := congrArg Keys.sk8 hparty.keys
  rw [hsk]
  exact Keys.mulClamped_mem _ (EdwardsPoint.eight_nsmul_mem _)

theorem own_mem (hparty : Built party pp partyCoins) {own : Fin n → EdwardsPoint}
    (hown : party.ownPoints = List.ofFn own) (i : Fin n) : own i ∈ primeSubgroup EdwardsPoint :=
  ownPoints_mem hparty _ (hown ▸ List.mem_ofFn.mpr ⟨i, rfl⟩)

/-- **A shuffle by a known key** is accepted. -/
theorem exists_accepted_shuffled (hparty : Built party pp partyCoins) (hn : 2 ≤ n)
    {own : Fin n → EdwardsPoint} (hown : party.ownPoints = List.ofFn own) (O : Oracles)
    (s : Scalar) : ∃ proof, ∀ alpha1 alpha2, verifyShuffleAdapted O pp (mulBase s)
      party.ownPoints (shuffled s 1 own) party._ownPoints ((shuffled s 1 own).map compress) proof
      alpha1 alpha2 = .ok true := by
  obtain ⟨hint, proof, -, -, -, -, -, hverify⟩ := verifyShuffleAdapted_honest O hparty.length_f
    (by omega) 1 s (own_mem hparty hown) (.zero n)
  rw [← hown] at hverify
  exact ⟨proof, fun alpha1 alpha2 => (hverify alpha1 alpha2).mpr fun h => by omega⟩

/-- The messages of the four rounds. -/
def messages (m₁ m₂ m₃ m₄ : Message) : ℕ → Message
  | 0 => m₁
  | 1 => m₂
  | 2 => m₃
  | _ => m₄

/-- **A peer with a key of its own** completes a run that opens its points at any indices, as often
as it wants. -/
theorem exists_run (hparty : Built party pp partyCoins) (hn : 2 ≤ n) (hn' : n < 2 ^ 32)
    (hown : party.ownPoints.length = n) (O : Oracles) (coins : RunCoins) {s : Scalar} (hs : s ≠ 0)
    {g : Fin n → EdwardsPoint} (hg : ∀ i, g i ∈ primeSubgroup EdwardsPoint) (js : Fin k → Fin n) :
    ∃ ms Q proof out, ms 1 = .round2 (mulBase s) ((List.ofFn g).map compress) ∧
      ms 3 = .round4 (opening js Q proof).proof (opening js Q proof)._unblinded
        (opening js Q proof).ind ∧
      (party.protocol O pp coins).run ms = .ok (some out) := by
  obtain ⟨own, hown⟩ := exists_ofFn hown
  obtain ⟨proof, haccept⟩ := exists_accepted_shuffled hparty hn hown O s
  -- the peer removes its key from the points that the party has blinded
  have hblind : ∀ i, mulScalar (g i) party.sk ∈ primeSubgroup EdwardsPoint := fun i =>
    mulScalar_mem (hg i) party.sk
  have hopen : ∀ i : Fin k, mulScalar (g (partyCoins.π⁻¹ (js i))) party.sk =
      mulScalar (mulScalar (mulScalar (g (partyCoins.π⁻¹ (js i))) party.sk) s⁻¹) s := by
    intro i
    rw [mulScalar_mulScalar (hblind _), inv_mul_cancel₀ hs, mulScalar_one (hblind _)]
  obtain ⟨ddh, -, hreveal⟩ := exists_reveal (h := fun i =>
    mulScalar (g (partyCoins.π⁻¹ i)) party.sk) O party (fun i => (js i).isLt.trans hn') s coins.r
    (fun i => mulScalar_mem (hblind (partyCoins.π⁻¹ (js i))) s⁻¹) hopen
  obtain ⟨prf, hrun⟩ := run_eq_reveal coins (messages
    (.round1 (hashSigma O (mulBase s) ((List.ofFn g).map compress)))
    (.round2 (mulBase s) ((List.ofFn g).map compress))
    (.round3 proof ((shuffled s 1 own).map compress)) (.round4 ddh _ _)) (opening js _ ddh) hparty
    rfl rfl (decompressed_map_compress (List.ofFn g)) rfl
    (decompressed_map_compress (shuffled s 1 own)) (haccept _ _) rfl
  exact ⟨_, _, ddh, _, rfl, rfl, hrun.trans (hreveal prf)⟩

end Peer

/-! ### The message of round 4 -/

section Validated

variable {n : ℕ} {O : Oracles} {pp : PublicParams EdwardsPoint} {partyCoins : PartyCoins n n}
  {party : Party} {coins : RunCoins} {ms : ℕ → Message}
  {out : List UInt8}

/-- The message of round 4 opens committed points, each at most once, and these are revealed. -/
structure Validated (_points : List CompressedEdwardsY) (right : Response) (out : List UInt8) :
    Prop where
  sized : right._unblinded.length = right.ind.length
  distinct : right.ind.Nodup
  committed : ∀ j ∈ right.ind, j.toNat < _points.length
  revealed : out.length = 16 * right.ind.length

/-- **What a run that returned `Some` says about round 4**: the indices are in range and there are
encodings for all of them, but not that there are no more, nor that no index comes twice. -/
theorem protocol_validated_iff {server : Bool} {input : List UInt8} {aes : Block → Block → Block}
    {aesKey : Block} (hnew : Party.new server input aes aesKey pp n n partyCoins = .ok party)
    (hrun : (party.protocol O pp coins).run ms = .ok (some out)) :
    ∃ pk _points right, ms 1 = .round2 pk _points ∧
      ms 3 = .round4 right.proof right._unblinded right.ind ∧
      (Validated _points right out ↔
        right._unblinded.length ≤ right.ind.length ∧ right.ind.Nodup) := by
  obtain ⟨hparty, -⟩ := built_of_new hnew
  obtain ⟨t, ht⟩ := exists_transcript hrun
  refine ⟨t.rightPk, t._rightPoints, t.right4, ht.round2, ht.round4, ?_⟩
  obtain ⟨g, prf, hg, hshuffle⟩ := blindShuffle_eq_ok hparty ht.rightPoints ht.shuffle
  have hreveal := ht.reveal
  rw [hshuffle] at hreveal
  obtain ⟨rows, hrows, hreveal⟩ := bind_eq_ok.mp hreveal
  obtain ⟨items, hitems, hreveal⟩ := bind_eq_ok.mp hreveal
  obtain ⟨output, houtput, hreveal⟩ := bind_eq_ok.mp hreveal
  cases hreveal
  obtain ⟨hle, -, hlt⟩ := returns_shrink.mp ⟨rows, hrows⟩
  have hcommitted : ∀ j ∈ t.right4.ind, j.toNat < t._rightPoints.length := by
    intro j hj
    have hj := hlt j hj
    rwa [shuffled, List.length_ofFn, ← List.length_ofFn (f := g), ← hg,
      ← ht.rightPoints.length_eq] at hj
  have hlen : out.length = 16 * t.right4.ind.length := by
    have hrow := (mapM_eq_ok.mp hrows).length_eq
    rw [List.length_range] at hrow
    obtain ⟨b, -, hitems⟩ := bind_eq_ok.mp hitems
    cases b with
    | false =>
      cases hitems
      cases houtput
    | true =>
      cases hitems
      cases houtput
      rw [length_flatten, List.length_map, List.length_map, hrow]
  constructor
  · rintro ⟨hsized, hdistinct, -, -⟩
    exact ⟨hsized.le, hdistinct⟩
  · rintro ⟨hge, hdistinct⟩
    exact ⟨le_antisymm hge hle, hdistinct, hcommitted, hlen⟩

end Validated

/-- A run of the party of two items against a peer with the key 1 and two copies of the basepoint,
which opens its points at the indices `js`. -/
theorem exists_twoRun {k : ℕ} (js : Fin k → Fin 2) : ∃ party ms Q proof out,
    Party.new true (flatten [3, 4]) (fun _ b => b) 0 twoParams 2 2 zeroCoins = .ok party ∧
      ms 1 = .round2 (mulBase 1)
        ((List.ofFn fun _ : Fin 2 => (basepoint : EdwardsPoint)).map compress) ∧
      ms 3 = .round4 (opening js Q proof).proof (opening js Q proof)._unblinded
        (opening js Q proof).ind ∧
      (party.protocol Oracles.reading twoParams ⟨0, 0, 0⟩).run ms = .ok (some out) := by
  obtain ⟨party, hnew⟩ := exists_twoParty true
  obtain ⟨hparty, -, hinput, -⟩ := built_of_new hnew
  have hown : party.ownPoints.length = 2 := by
    rw [length_ownPoints, hinput, chunksExact_flatten]
    rfl
  obtain ⟨ms, Q, proof, out, h₂, h₄, hrun⟩ := exists_run hparty le_rfl (by decide) hown
    Oracles.reading ⟨0, 0, 0⟩ one_ne_zero (fun _ => BasePoint.basepoint_mem) js
  exact ⟨party, ms, Q, proof, out, hnew, h₂, h₄, hrun⟩

/-- A run that opens both points. -/
theorem protocol_validated_iff_two : ∃ party ms out,
    Party.new true (flatten [3, 4]) (fun _ b => b) 0 twoParams 2 2 zeroCoins = .ok party ∧
      (party.protocol Oracles.reading twoParams ⟨0, 0, 0⟩).run ms = .ok (some out) ∧
      ∃ pk _points right, ms 1 = .round2 pk _points ∧
        ms 3 = .round4 right.proof right._unblinded right.ind ∧
        (Validated _points right out ↔
          right._unblinded.length ≤ right.ind.length ∧ right.ind.Nodup) := by
  obtain ⟨party, ms, Q, proof, out, hnew, -, -, hrun⟩ := exists_twoRun id
  exact ⟨party, ms, out, hnew, hrun, protocol_validated_iff hnew hrun⟩

/-- **The same point opened twice.** -/
theorem protocol_repeats : ∃ party ms out pk _points right,
    Party.new true (flatten [3, 4]) (fun _ b => b) 0 twoParams 2 2 zeroCoins = .ok party ∧
      (party.protocol Oracles.reading twoParams ⟨0, 0, 0⟩).run ms = .ok (some out) ∧
      ms 1 = .round2 pk _points ∧ ms 3 = .round4 right.proof right._unblinded right.ind ∧
      ¬ Validated _points right out := by
  obtain ⟨party, ms, Q, proof, out, hnew, h₂, h₄, hrun⟩ := exists_twoRun fun _ : Fin 2 => 0
  refine ⟨party, ms, out, _, _, _, hnew, hrun, h₂, h₄, fun hvalid => ?_⟩
  have hinj := List.nodup_ofFn.mp hvalid.distinct
  exact absurd (@hinj 0 1 rfl) Fin.zero_ne_one

end Party

end MaliciousPsu
