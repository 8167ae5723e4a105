import MaliciousPsu.TwoSided.Opening

/-!
# The response to a shuffle

`final_response` removes the key from the own points that come back, and looks their encodings up
among those that the other party has submitted: bytes are compared, not points.

* `exists_kept`: the indices that are put in `ind`.
* `finalResponse_hides_iff`: no item is revealed that was submitted up to `E[8]`, exactly when
  each of these items was also submitted as the encoding that is looked up.
* `finalResponse_oneToOne_iff`: no encoding withholds two items, exactly when none was submitted of
  two points that come back equal.
* `finalResponse_oneToOne_of_shuffled`: so none does after a shuffle by a key other than `0`.
-/

namespace MaliciousPsu

namespace Party

/-- The own point `i` as it came back, with the key removed. -/
def unblindedAt (party : Party) (pointsShuffle : List EdwardsPoint) (i : ℕ) : Option EdwardsPoint :=
  pointsShuffle[i]?.map fun ps => mulScalar ps party.skInv

section Response

variable {n : ℕ} {O : Oracles} {party : Party} {pp : PublicParams EdwardsPoint} {coins : RunCoins}
  {pk : EdwardsPoint} {points pointsShuffle : List EdwardsPoint}
  {_points _pointsShuffled _pointsOther : List CompressedEdwardsY} {proof : AdaptedShuffleProof}
  {response : Response} {rows : List Unblinded}

/-! ### The indices that are put in `ind` -/

/-- The loop over the own points, row by row. -/
theorem forall₂_unblind (h : party.unblind pointsShuffle _pointsShuffled = .ok rows) :
    List.Forall₂ (fun i row => i = row.i ∧ party.unblindedAt pointsShuffle row.i = some row.p)
      (List.range party.n) rows := by
  refine (mapM_eq_ok.mp h).imp ?_
  intro i row hrow
  obtain ⟨ps, hps, hrow⟩ := bind_eq_ok.mp hrow
  obtain ⟨_ps, -, hrow⟩ := bind_eq_ok.mp hrow
  cases hrow
  exact ⟨rfl, by rw [unblindedAt, idx_eq_ok.mp hps, Option.map_some]⟩

theorem map_i_unblind (h : party.unblind pointsShuffle _pointsShuffled = .ok rows) :
    rows.map Unblinded.i = List.range party.n := by
  have hrows := (forall₂_unblind h).imp fun _ _ hrow => hrow.1
  rw [← List.forall₂_map_right_iff (f := Unblinded.i), List.forall₂_eq_eq_eq] at hrows
  exact hrows.symm

/-- **The indices of `ind`**: those whose point, the key removed, has an encoding that was not
submitted. -/
theorem exists_kept (h : party.finalResponse O pp coins pk points pointsShuffle _points
      _pointsShuffled _pointsOther proof = .ok (some response)) :
    ∃ kept : List ℕ, kept.Sublist (List.range party.n) ∧ response.ind = kept.map UInt32.ofNat ∧
      (∀ i < party.n, ∃ Q, party.unblindedAt pointsShuffle i = some Q) ∧
      ∀ i, i ∈ kept ↔ i < party.n ∧ ∀ Q, party.unblindedAt pointsShuffle i = some Q →
        compress Q ∉ _pointsOther := by
  obtain ⟨-, rows, ddh, hrows, -, rfl⟩ := finalResponse_eq_some h
  have hi := map_i_unblind hrows
  have hat : ∀ row ∈ rows, party.unblindedAt pointsShuffle row.i = some row.p := by
    intro row hrow
    obtain ⟨k, hk, rfl⟩ := List.getElem_of_mem hrow
    have hlen := (forall₂_unblind hrows).length_eq
    exact ((List.forall₂_iff_get.mp (forall₂_unblind hrows)).2 k (hlen ▸ hk) hk).2
  have hrow : ∀ i < party.n, ∃ row ∈ rows, row.i = i := by
    intro i hlt
    have hmem := List.mem_range.mpr hlt
    rw [← hi] at hmem
    obtain ⟨row, hrow, rfl⟩ := List.mem_map.mp hmem
    exact ⟨row, hrow, rfl⟩
  refine ⟨(missing _pointsOther rows).map Unblinded.i, ?_, ?_, fun i hlt => ?_, fun i => ?_⟩
  · rw [← hi]
    exact List.filter_sublist.map Unblinded.i
  · simp only [List.map_map, Function.comp_def]
  · obtain ⟨row, hmem, rfl⟩ := hrow i hlt
    exact ⟨row.p, hat row hmem⟩
  · constructor
    · intro hkept
      obtain ⟨row, hmem, rfl⟩ := List.mem_map.mp hkept
      obtain ⟨hmem, hnot⟩ := List.mem_filter.mp hmem
      refine ⟨List.mem_range.mp (hi ▸ List.mem_map_of_mem hmem), fun Q hQ hsubmitted => ?_⟩
      rw [hat row hmem] at hQ
      cases hQ
      rw [List.contains_iff_mem.mpr hsubmitted] at hnot
      cases hnot
    · rintro ⟨hlt, hnot⟩
      obtain ⟨row, hmem, rfl⟩ := hrow i hlt
      refine List.mem_map_of_mem (List.mem_filter.mpr ⟨hmem, ?_⟩)
      rw [List.contains_eq_mem, decide_eq_false (hnot row.p (hat row hmem))]
      rfl

end Response

/-! ### Shuffles by a known key -/

section Honest

variable {n : ℕ} {pp : PublicParams EdwardsPoint} {partyCoins : PartyCoins n n} {party : Party}

theorem unblindedAt_shuffled (party : Party) (s : Scalar) (π : Equiv.Perm (Fin n))
    (own : Fin n → EdwardsPoint) (i : Fin n) :
    party.unblindedAt (shuffled s π own) i =
      some (mulScalar (mulScalar (own (π⁻¹ i)) s) party.skInv) := by
  rw [unblindedAt, shuffled, List.getElem?_ofFn, dif_pos i.isLt, Option.map_some]

/-- **A shuffle by a known key is accepted**, whatever was submitted. -/
theorem exists_response_shuffled (hparty : Built party pp partyCoins) (hn : 2 ≤ n)
    {own : Fin n → EdwardsPoint} (hown : party.ownPoints = List.ofFn own) (O : Oracles)
    (coins : RunCoins) (s : Scalar) (_pointsOther : List CompressedEdwardsY) :
    ∃ proof response, party.finalResponse O pp coins (mulBase s) party.ownPoints (shuffled s 1 own)
      party._ownPoints ((shuffled s 1 own).map compress) _pointsOther proof =
        .ok (some response) := by
  obtain ⟨proof, hverify⟩ := exists_accepted_shuffled hparty hn hown O s
  have haccept := hverify coins.alpha1 coins.alpha2
  have hlen : (shuffled s 1 own).length = ((shuffled s 1 own).map compress).length :=
    (List.length_map _).symm
  obtain ⟨response, hresponse⟩ := (returns_finalResponse _pointsOther hparty
    hlen).mpr ((returns_verifyShuffleAdapted O _ _ proof).mp ⟨true, haccept⟩)
  obtain ⟨own', rfl⟩ := exists_response haccept hresponse
  exact ⟨proof, own', hresponse⟩

/-- Different points stay different under a key other than `0`. -/
theorem unblindedAt_shuffled_inj (hparty : Built party pp partyCoins) {s : Scalar} (hs : s ≠ 0)
    {own : Fin n → EdwardsPoint} (hown : party.ownPoints = List.ofFn own)
    (hnodup : party.ownPoints.Nodup) (π : Equiv.Perm (Fin n)) {i j : Fin n}
    (h : party.unblindedAt (shuffled s π own) i = party.unblindedAt (shuffled s π own) j) :
    i = j := by
  have hmem := own_mem hparty hown
  have hskInv : party.skInv ≠ 0 := right_ne_zero_of_mul_eq_one hparty.sk_mul_skInv
  rw [unblindedAt_shuffled, unblindedAt_shuffled, Option.some.injEq,
    mulScalar_inj hskInv (mulScalar_mem (hmem _) s) (mulScalar_mem (hmem _) s),
    mulScalar_inj hs (hmem _) (hmem _)] at h
  rw [hown, List.nodup_ofFn] at hnodup
  exact π⁻¹.injective (hnodup h)

end Honest

/-! ### A party of two items -/

/-- The own points of the party of the items 3 and 4 are two. -/
theorem exists_twoOwn (server : Bool) : ∃ (party : Party) (own : Fin 2 → EdwardsPoint),
    Party.new server (flatten [3, 4]) (fun _ b => b) 0 twoParams 2 2 zeroCoins = .ok party ∧
      party.ownPoints = List.ofFn own ∧ party.ownPoints.Nodup := by
  obtain ⟨party, hnew⟩ := exists_twoParty server
  obtain ⟨hparty, -, hinput, hpermut⟩ := built_of_new hnew
  have hpermut : party.permut = identityPrp := hpermut
  have hown : party.ownPoints = [mulClamped (hashedPoint party.permut 3) party.sk8,
      mulClamped (hashedPoint party.permut 4) party.sk8] := by
    rw [ownPoints, hinput, chunksExact_flatten]
    rfl
  obtain ⟨own, hfn⟩ := exists_ofFn (congrArg List.length hown)
  refine ⟨party, own, hnew, hfn, ?_⟩
  rw [hown, List.nodup_cons, List.mem_singleton]
  refine ⟨fun heq => ?_, List.nodup_singleton _⟩
  rw [show party.sk8 = (Keys.new zeroCoins.raw).sk8 from congrArg Keys.sk8 hparty.keys,
    Keys.mulClamped_eq _ (EdwardsPoint.eight_nsmul_mem _),
    Keys.mulClamped_eq _ (EdwardsPoint.eight_nsmul_mem _),
    mulScalar_inj (Keys.sk_ne_zero _) (EdwardsPoint.eight_nsmul_mem _)
      (EdwardsPoint.eight_nsmul_mem _), hpermut] at heq
  have h₄ := collisionFree_identityPrp 4 _ _ (hashToPoint_eq identityPrp 3)
    (hashToPoint_eq identityPrp 4) (Or.inl heq.symm)
  exact absurd h₄ (by decide)

/-! ### Points up to `E[8]` -/

section Hides

variable {n : ℕ} {O : Oracles} {party : Party} {pp : PublicParams EdwardsPoint} {coins : RunCoins}
  {pk : EdwardsPoint} {points pointsShuffle : List EdwardsPoint}
  {_points _pointsShuffled _pointsOther : List CompressedEdwardsY} {proof : AdaptedShuffleProof}
  {response : Response}

/-- An encoding was submitted of a point that is `Q` up to `E[8]`. -/
def Submits (_pointsOther : List CompressedEdwardsY) (Q : EdwardsPoint) : Prop :=
  ∃ b ∈ _pointsOther, ∃ P : EdwardsPoint, decompress b = some P ∧ 8 • P = 8 • Q

/-- **Which submitted items are revealed.**  No index is put in `ind` whose item was submitted under
some representative, exactly when every item submitted under some representative was also submitted
as the canonical encoding of the point itself. -/
theorem finalResponse_hides_iff (h : party.finalResponse O pp coins pk points pointsShuffle _points
      _pointsShuffled _pointsOther proof = .ok (some response)) :
    ∃ kept : List ℕ, kept.Sublist (List.range party.n) ∧ response.ind = kept.map UInt32.ofNat ∧
      ((∀ i ∈ kept, ∀ Q, party.unblindedAt pointsShuffle i = some Q → ¬ Submits _pointsOther Q) ↔
        ∀ i < party.n, ∀ Q, party.unblindedAt pointsShuffle i = some Q →
          Submits _pointsOther Q → compress Q ∈ _pointsOther) := by
  obtain ⟨kept, hsub, hind, -, hkept⟩ := exists_kept h
  refine ⟨kept, hsub, hind, ?_⟩
  constructor
  · intro hhidden i hi Q hQ hsubmits
    by_contra hnot
    refine hhidden i ((hkept i).mpr ⟨hi, fun Q' hQ' => ?_⟩) Q hQ hsubmits
    rw [hQ] at hQ'
    cases hQ'
    exact hnot
  · intro hcanonical i hi Q hQ hsubmits
    obtain ⟨hlt, hnot⟩ := (hkept i).mp hi
    exact hnot Q hQ (hcanonical i hlt Q hQ hsubmits)

end Hides

/-- A peer with the key 1 that submits, for each point of the party, that point up to `E[8]`. -/
theorem exists_shiftedRun : ∃ party proof response _pointsOther pointsShuffle _pointsShuffled,
    Party.new true (flatten [3, 4]) (fun _ b => b) 0 twoParams 2 2 zeroCoins = .ok party ∧
      (∃ points, verifySigma Oracles.reading (hashSigma Oracles.reading (mulBase 1) _pointsOther)
        (mulBase 1) _pointsOther = .ok (true, points)) ∧
      party.finalResponse Oracles.reading twoParams ⟨0, 0, 0⟩ (mulBase 1) party.ownPoints
        pointsShuffle party._ownPoints _pointsShuffled _pointsOther proof = .ok (some response) ∧
      ∀ i < 2, ∃ Q, party.unblindedAt pointsShuffle i = some Q ∧ Submits _pointsOther Q ∧
        compress Q ∉ _pointsOther := by
  obtain ⟨party, own, hnew, hown, -⟩ := exists_twoOwn true
  obtain ⟨hparty, -⟩ := built_of_new hnew
  let Q : Fin 2 → EdwardsPoint := fun i => mulScalar (mulScalar (own i) 1) party.skInv
  have hQ : ∀ i, Q i ∈ primeSubgroup EdwardsPoint := fun i =>
    mulScalar_mem (mulScalar_mem (own_mem hparty hown i) 1) _
  let shifted : List EdwardsPoint := List.ofFn fun i => Q i + EdwardsPoint.torsionPoint
  obtain ⟨proof, response, hresponse⟩ := exists_response_shuffled hparty le_rfl hown
    Oracles.reading ⟨0, 0, 0⟩ 1 (shifted.map compress)
  refine ⟨party, proof, response, shifted.map compress, _, _, hnew,
    ⟨_, verifySigma_hashSigma _ _ (decompressed_map_compress shifted)⟩, hresponse, fun i hi => ?_⟩
  refine ⟨Q ⟨i, hi⟩, unblindedAt_shuffled party 1 1 own ⟨i, hi⟩, ?_, fun hmem => ?_⟩
  · refine ⟨compress (Q ⟨i, hi⟩ + EdwardsPoint.torsionPoint),
      List.mem_map_of_mem (List.mem_ofFn.mpr ⟨⟨i, hi⟩, rfl⟩), _,
      PointEncoding.decompress_compress _, ?_⟩
    rw [smul_add, EdwardsPoint.eight_nsmul_torsionPoint, add_zero]
  · obtain ⟨R, hR, heq⟩ := List.mem_map.mp hmem
    obtain ⟨j, rfl⟩ := List.mem_ofFn.mp hR
    refine EdwardsPoint.torsionPoint_notMem ?_
    rw [← add_sub_cancel_left (Q j) EdwardsPoint.torsionPoint, compress_injective heq]
    exact sub_mem (hQ _) (hQ j)

/-- Its response. -/
theorem finalResponse_hides_iff_shifted :
    ∃ party proof response _pointsOther pointsShuffle _pointsShuffled,
    Party.new true (flatten [3, 4]) (fun _ b => b) 0 twoParams 2 2 zeroCoins = .ok party ∧
      party.finalResponse Oracles.reading twoParams ⟨0, 0, 0⟩ (mulBase 1) party.ownPoints
        pointsShuffle party._ownPoints _pointsShuffled _pointsOther proof = .ok (some response) ∧
      ∃ kept : List ℕ, kept.Sublist (List.range party.n) ∧
        response.ind = kept.map UInt32.ofNat ∧
        ((∀ i ∈ kept, ∀ Q, party.unblindedAt pointsShuffle i = some Q →
            ¬ Submits _pointsOther Q) ↔
          ∀ i < party.n, ∀ Q, party.unblindedAt pointsShuffle i = some Q →
            Submits _pointsOther Q → compress Q ∈ _pointsOther) := by
  obtain ⟨party, proof, response, _pointsOther, pointsShuffle, _pointsShuffled, hnew, -, hresponse,
    -⟩ := exists_shiftedRun
  exact ⟨party, proof, response, _pointsOther, pointsShuffle, _pointsShuffled, hnew, hresponse,
    finalResponse_hides_iff hresponse⟩

/-- **Items revealed that the other party submitted**, up to `E[8]`. -/
theorem finalResponse_reveals_shifted :
    ∃ party proof response _pointsOther pointsShuffle _pointsShuffled,
    Party.new true (flatten [3, 4]) (fun _ b => b) 0 twoParams 2 2 zeroCoins = .ok party ∧
      (∃ points, verifySigma Oracles.reading (hashSigma Oracles.reading (mulBase 1) _pointsOther)
        (mulBase 1) _pointsOther = .ok (true, points)) ∧
      verifyShuffleAdapted Oracles.reading twoParams (mulBase 1) party.ownPoints pointsShuffle
        party._ownPoints _pointsShuffled proof 0 0 = .ok true ∧
      party.finalResponse Oracles.reading twoParams ⟨0, 0, 0⟩ (mulBase 1) party.ownPoints
        pointsShuffle party._ownPoints _pointsShuffled _pointsOther proof = .ok (some response) ∧
      response.ind = [0, 1] ∧
      ∀ i < 2, ∃ Q, party.unblindedAt pointsShuffle i = some Q ∧ Submits _pointsOther Q := by
  obtain ⟨party, proof, response, _pointsOther, pointsShuffle, _pointsShuffled, hnew, hsigma,
    hresponse, hshifted⟩ := exists_shiftedRun
  obtain ⟨hparty, -⟩ := built_of_new hnew
  refine ⟨party, proof, response, _pointsOther, pointsShuffle, _pointsShuffled, hnew, hsigma,
    (finalResponse_eq_some hresponse).1, hresponse, ?_, fun i hi => ?_⟩
  · obtain ⟨kept, hsub, hind, -, hkept⟩ := exists_kept hresponse
    rw [hparty.n_eq] at hsub hkept
    have hall : kept = List.range 2 := by
      refine hsub.eq_of_length_le ?_
      refine (List.nodup_range.subperm fun i hi => ?_).length_le
      have hi := List.mem_range.mp hi
      refine (hkept i).mpr ⟨hi, fun R hR => ?_⟩
      obtain ⟨Q, hQ, -, hnot⟩ := hshifted i hi
      rw [hQ] at hR
      cases hR
      exact hnot
    rw [hind, hall]
    rfl
  · obtain ⟨Q, hQ, hsubmits, -⟩ := hshifted i hi
    exact ⟨Q, hQ, hsubmits⟩

/-! ### One encoding for one item -/

section OneToOne

variable {n : ℕ} {O : Oracles} {party : Party} {pp : PublicParams EdwardsPoint} {coins : RunCoins}
  {pk : EdwardsPoint} {points pointsShuffle : List EdwardsPoint}
  {_points _pointsShuffled _pointsOther : List CompressedEdwardsY} {proof : AdaptedShuffleProof}
  {response : Response}

/-- Every encoding of the other party withholds one item at most. -/
structure OneToOne (party : Party) (pointsShuffle : List EdwardsPoint)
    (_pointsOther : List CompressedEdwardsY) (kept : List ℕ) : Prop where
  card : party.n - kept.length ≤ _pointsOther.toFinset.card
  inj : ∀ i < party.n, ∀ j < party.n, i ∉ kept → j ∉ kept → i ≠ j → ∀ Q R,
    party.unblindedAt pointsShuffle i = some Q → party.unblindedAt pointsShuffle j = some R →
    compress Q ≠ compress R

/-- Points that differ where their encoding was submitted are withheld by one encoding each. -/
theorem oneToOne_of_distinct {kept : List ℕ} (hsub : kept.Sublist (List.range party.n))
    (hall : ∀ i < party.n, ∃ Q, party.unblindedAt pointsShuffle i = some Q)
    (hkept : ∀ i, i ∈ kept ↔ i < party.n ∧ ∀ Q, party.unblindedAt pointsShuffle i = some Q →
      compress Q ∉ _pointsOther)
    (hdistinct : ∀ i < party.n, ∀ j < party.n, i ≠ j → ∀ Q,
      party.unblindedAt pointsShuffle i = some Q → party.unblindedAt pointsShuffle j = some Q →
      compress Q ∉ _pointsOther) : OneToOne party pointsShuffle _pointsOther kept := by
  have hwithheld : ∀ i < party.n, i ∉ kept → ∀ Q, party.unblindedAt pointsShuffle i = some Q →
      compress Q ∈ _pointsOther := by
    intro i hi hnot Q hQ
    by_contra hmem
    refine hnot ((hkept i).mpr ⟨hi, fun Q' hQ' => ?_⟩)
    rw [hQ] at hQ'
    cases hQ'
    exact hmem
  have hinj : ∀ i < party.n, ∀ j < party.n, i ∉ kept → j ∉ kept → i ≠ j → ∀ Q R,
      party.unblindedAt pointsShuffle i = some Q → party.unblindedAt pointsShuffle j = some R →
      compress Q ≠ compress R := by
    rintro i hi j hj hki - hne Q R hQ hR heq
    cases compress_injective heq
    exact hdistinct i hi j hj hne Q hQ hR (hwithheld i hi hki Q hQ)
  refine ⟨?_, hinj⟩
  have hnodup : kept.Nodup := hsub.nodup List.nodup_range
  have hwithin : kept.toFinset ⊆ Finset.range party.n := fun i hi =>
    Finset.mem_range.mpr ((hkept i).mp (List.mem_toFinset.mp hi)).1
  have hmem : ∀ i ∈ Finset.range party.n \ kept.toFinset, i < party.n ∧ i ∉ kept := by
    intro i hi
    obtain ⟨hi, hnot⟩ := Finset.mem_sdiff.mp hi
    exact ⟨Finset.mem_range.mp hi, fun h => hnot (List.mem_toFinset.mpr h)⟩
  -- the encodings of the withheld items are different ones of the other party's
  have hcard := Finset.card_le_card_of_injOn (s := Finset.range party.n \ kept.toFinset)
    (t := _pointsOther.toFinset)
    (fun i => (party.unblindedAt pointsShuffle i).elim 0 compress) ?_ ?_
  · rwa [Finset.card_sdiff_of_subset hwithin, Finset.card_range,
      List.toFinset_card_of_nodup hnodup] at hcard
  · intro i hi
    obtain ⟨hlt, hnot⟩ := hmem i hi
    obtain ⟨Q, hQ⟩ := hall i hlt
    simp only [hQ, Option.elim_some]
    exact Finset.mem_coe.mpr (List.mem_toFinset.mpr (hwithheld i hlt hnot Q hQ))
  · intro i hi j hj heq
    by_contra hne
    obtain ⟨hlt, hnot⟩ := hmem i hi
    obtain ⟨hlt', hnot'⟩ := hmem j hj
    obtain ⟨Q, hQ⟩ := hall i hlt
    obtain ⟨R, hR⟩ := hall j hlt'
    simp only [hQ, hR, Option.elim_some] at heq
    exact hinj i hlt j hlt' hnot hnot' hne Q R hQ hR heq

/-- **When one encoding withholds two items.** -/
theorem finalResponse_oneToOne_iff (h : party.finalResponse O pp coins pk points pointsShuffle
      _points _pointsShuffled _pointsOther proof = .ok (some response)) :
    ∃ kept : List ℕ, kept.Sublist (List.range party.n) ∧ response.ind = kept.map UInt32.ofNat ∧
      (OneToOne party pointsShuffle _pointsOther kept ↔
        ∀ i < party.n, ∀ j < party.n, i ≠ j → ∀ Q,
          party.unblindedAt pointsShuffle i = some Q →
          party.unblindedAt pointsShuffle j = some Q → compress Q ∉ _pointsOther) := by
  obtain ⟨kept, hsub, hind, hall, hkept⟩ := exists_kept h
  refine ⟨kept, hsub, hind, ?_⟩
  constructor
  · intro hone i hi j hj hne Q hQi hQj hmem
    have hnot : ∀ k, party.unblindedAt pointsShuffle k = some Q → k ∉ kept := fun k hQ hk =>
      ((hkept k).mp hk).2 Q hQ hmem
    exact hone.inj i hi j hj (hnot i hQi) (hnot j hQj) hne Q Q hQi hQj rfl
  · exact oneToOne_of_distinct hsub hall hkept

/-- **A shuffle by a key other than `0`** brings different points back, so that every encoding
withholds one item at most, whatever was submitted. -/
theorem finalResponse_oneToOne_of_shuffled {partyCoins : PartyCoins n n}
    (hparty : Built party pp partyCoins) {own : Fin n → EdwardsPoint}
    (hown : party.ownPoints = List.ofFn own) (hnodup : party.ownPoints.Nodup) {s : Scalar}
    (hs : s ≠ 0) (π : Equiv.Perm (Fin n))
    (h : party.finalResponse O pp coins pk points (shuffled s π own) _points _pointsShuffled
      _pointsOther proof = .ok (some response)) :
    ∃ kept : List ℕ, kept.Sublist (List.range party.n) ∧ response.ind = kept.map UInt32.ofNat ∧
      OneToOne party (shuffled s π own) _pointsOther kept := by
  obtain ⟨kept, hsub, hind, hall, hkept⟩ := exists_kept h
  refine ⟨kept, hsub, hind, oneToOne_of_distinct hsub hall hkept ?_⟩
  intro i hi j hj hne Q hQi hQj
  rw [hparty.n_eq] at hi hj
  have heq := unblindedAt_shuffled_inj (i := ⟨i, hi⟩) (j := ⟨j, hj⟩) hparty hs hown hnodup π
    (hQi.trans hQj.symm)
  exact absurd (Fin.mk.inj heq) hne

/-- The items 3 and 4, shuffled by the key 1. -/
theorem finalResponse_oneToOne_of_shuffled_two :
    ∃ (party : Party) (own : Fin 2 → EdwardsPoint) (proof : _) (response : _),
      Party.new true (flatten [3, 4]) (fun _ b => b) 0 twoParams 2 2 zeroCoins = .ok party ∧
      party.finalResponse Oracles.reading twoParams ⟨0, 0, 0⟩ (mulBase 1) party.ownPoints
        (shuffled 1 1 own) party._ownPoints ((shuffled 1 1 own).map compress) party._ownPoints
        proof = .ok (some response) ∧
      ∃ kept : List ℕ, kept.Sublist (List.range party.n) ∧
        response.ind = kept.map UInt32.ofNat ∧
        OneToOne party (shuffled 1 1 own) party._ownPoints kept := by
  obtain ⟨party, own, hnew, hown, hnodup⟩ := exists_twoOwn true
  obtain ⟨hparty, -⟩ := built_of_new hnew
  obtain ⟨proof, response, hresponse⟩ := exists_response_shuffled hparty le_rfl hown
    Oracles.reading ⟨0, 0, 0⟩ 1 party._ownPoints
  exact ⟨party, own, proof, response, hnew, hresponse,
    finalResponse_oneToOne_of_shuffled hparty hown hnodup one_ne_zero 1 hresponse⟩

end OneToOne

/-- A peer with the key 0 that submits the identity twice. -/
theorem exists_zeroRun : ∃ party proof response pointsShuffle _pointsShuffled,
    Party.new true (flatten [3, 4]) (fun _ b => b) 0 twoParams 2 2 zeroCoins = .ok party ∧
      party.ownPoints.Nodup ∧
      party.finalResponse Oracles.reading twoParams ⟨0, 0, 0⟩ (mulBase 0) party.ownPoints
        pointsShuffle party._ownPoints _pointsShuffled
        (List.map compress [(0 : EdwardsPoint), 0]) proof = .ok (some response) ∧
      ∀ i < 2, party.unblindedAt pointsShuffle i = some 0 := by
  obtain ⟨party, own, hnew, hown, hnodup⟩ := exists_twoOwn true
  obtain ⟨hparty, -⟩ := built_of_new hnew
  obtain ⟨proof, response, hresponse⟩ := exists_response_shuffled hparty le_rfl hown
    Oracles.reading ⟨0, 0, 0⟩ 0 (List.map compress [(0 : EdwardsPoint), 0])
  refine ⟨party, proof, response, _, _, hnew, hnodup, hresponse, fun i hi => ?_⟩
  rw [unblindedAt_shuffled party 0 1 own ⟨i, hi⟩, mulScalar_zero_right, mulScalar_zero]

/-- Its response. -/
theorem finalResponse_oneToOne_iff_zero : ∃ party proof response pointsShuffle _pointsShuffled,
    Party.new true (flatten [3, 4]) (fun _ b => b) 0 twoParams 2 2 zeroCoins = .ok party ∧
      party.finalResponse Oracles.reading twoParams ⟨0, 0, 0⟩ (mulBase 0) party.ownPoints
        pointsShuffle party._ownPoints _pointsShuffled
        (List.map compress [(0 : EdwardsPoint), 0]) proof = .ok (some response) ∧
      ∃ kept : List ℕ, kept.Sublist (List.range party.n) ∧
        response.ind = kept.map UInt32.ofNat ∧
        (OneToOne party pointsShuffle (List.map compress [(0 : EdwardsPoint), 0]) kept ↔
          ∀ i < party.n, ∀ j < party.n, i ≠ j → ∀ Q,
            party.unblindedAt pointsShuffle i = some Q →
            party.unblindedAt pointsShuffle j = some Q →
            compress Q ∉ List.map compress [(0 : EdwardsPoint), 0]) := by
  obtain ⟨party, proof, response, pointsShuffle, _pointsShuffled, hnew, -, hresponse, -⟩ :=
    exists_zeroRun
  exact ⟨party, proof, response, pointsShuffle, _pointsShuffled, hnew, hresponse,
    finalResponse_oneToOne_iff hresponse⟩

/-- **The encoding of the identity withholds all items.** -/
theorem finalResponse_withholds_zero : ∃ party proof response pointsShuffle _pointsShuffled,
    Party.new true (flatten [3, 4]) (fun _ b => b) 0 twoParams 2 2 zeroCoins = .ok party ∧
      party.ownPoints.Nodup ∧ (∀ P ∈ party.ownPoints, P ∈ primeSubgroup EdwardsPoint) ∧
      verifySigma Oracles.reading (hashSigma Oracles.reading (mulBase 0)
          (List.map compress [(0 : EdwardsPoint), 0])) (mulBase 0)
          (List.map compress [(0 : EdwardsPoint), 0]) = .ok (true, [0, 0]) ∧
      verifyShuffleAdapted Oracles.reading twoParams (mulBase 0) party.ownPoints pointsShuffle
        party._ownPoints _pointsShuffled proof 0 0 = .ok true ∧
      party.finalResponse Oracles.reading twoParams ⟨0, 0, 0⟩ (mulBase 0) party.ownPoints
        pointsShuffle party._ownPoints _pointsShuffled
        (List.map compress [(0 : EdwardsPoint), 0]) proof = .ok (some response) ∧
      response.ind = [] ∧
      ¬ OneToOne party pointsShuffle (List.map compress [(0 : EdwardsPoint), 0]) [] := by
  obtain ⟨party, proof, response, pointsShuffle, _pointsShuffled, hnew, hnodup, hresponse, hzero⟩ :=
    exists_zeroRun
  obtain ⟨hparty, -⟩ := built_of_new hnew
  obtain ⟨kept, hsub, hind, -, hkept⟩ := exists_kept hresponse
  rw [hparty.n_eq] at hkept
  have hnone : kept = [] := by
    refine List.eq_nil_iff_forall_not_mem.mpr fun i hi => ?_
    obtain ⟨hlt, hnot⟩ := (hkept i).mp hi
    exact hnot 0 (hzero i hlt) (List.mem_map_of_mem List.mem_cons_self)
  refine ⟨party, proof, response, pointsShuffle, _pointsShuffled, hnew, hnodup,
    ownPoints_mem hparty, verifySigma_hashSigma _ _ (decompressed_map_compress [0, 0]),
    (finalResponse_eq_some hresponse).1, hresponse, by rw [hind, hnone, List.map_nil],
    fun hone => ?_⟩
  have hn := hparty.n_eq
  exact hone.inj 0 (hn ▸ two_pos) 1 (hn ▸ one_lt_two) List.not_mem_nil List.not_mem_nil
    zero_ne_one 0 0 (hzero 0 two_pos) (hzero 1 one_lt_two) rfl

end Party

end MaliciousPsu
