import MaliciousPsu.TwoSided.Opening
import MaliciousPsu.TwoSided.Check
import MaliciousPsu.TwoSided.Session

/-!
# Runs of two honest parties

A party's points come back shuffled and blinded twice; with its own key removed, the point of an
item is that of the other party exactly when the other has the item too.  The points that remain
are opened, and the other party recovers from them the items that it does not have.
-/

namespace MaliciousPsu

namespace Party

section Items

variable {n : ℕ} {O : Oracles} {pp : PublicParams EdwardsPoint} {permut : FeistelPrp256}

/-- A party of the items `V`, as it is built. -/
structure Honest (party : Party) (pp : PublicParams EdwardsPoint) (coins : PartyCoins n n)
    (permut : FeistelPrp256) (V : Fin n → Block) : Prop where
  built : Built party pp coins
  input : party.input = flatten (List.ofFn V)
  permut : party.permut = permut

/-- The item is recovered from its points, and from no points of others. -/
def Recoverable (permut : FeistelPrp256) (item : Block) : Prop :=
  Usable permut item ∧ CollisionFree permut item

/-- The point of an item, without its component in `E[8]` and blinded by `s`. -/
def blinded (permut : FeistelPrp256) (item : Block) (s : Scalar) : EdwardsPoint :=
  mulScalar (8 • hashedPoint permut item) s

variable {party : Party} {coins : PartyCoins n n} {V : Fin n → Block} {item item' : Block}
  {s t : Scalar}

theorem blinded_mem (permut : FeistelPrp256) (item : Block) (s : Scalar) :
    blinded permut item s ∈ primeSubgroup EdwardsPoint :=
  mulScalar_mem (EdwardsPoint.eight_nsmul_mem _) s

/-- Scalars are taken off in any order. -/
theorem mulScalar_blinded (permut : FeistelPrp256) (item : Block) {u : Scalar} (hu : s * u = 1) :
    mulScalar (mulScalar (blinded permut item s) t) u = blinded permut item t := by
  have h₈ := EdwardsPoint.eight_nsmul_mem (hashedPoint permut item)
  rw [mulScalar_mulScalar (blinded_mem permut item s), blinded, mulScalar_mulScalar h₈, blinded]
  congr 1
  calc s * (t * u) = t * (s * u) := mul_left_comm s t u
    _ = t := by rw [hu, mul_one]

/-- Under one key, different items have different points. -/
theorem blinded_inj (hfree : CollisionFree permut item) (hs : s ≠ 0) :
    blinded permut item s = blinded permut item' s ↔ item = item' := by
  rw [blinded, blinded, mulScalar_inj hs (EdwardsPoint.eight_nsmul_mem _)
    (EdwardsPoint.eight_nsmul_mem _)]
  constructor
  · intro h
    exact (hfree item' _ _ (hashToPoint_eq permut item) (hashToPoint_eq permut item')
      (Or.inl h.symm)).symm
  · rintro rfl
    rfl

namespace Honest

variable (hparty : Honest party pp coins permut V)
include hparty

/-- The points of a party. -/
theorem ownPoints_eq : party.ownPoints = List.ofFn fun i => blinded permut (V i) party.sk := by
  have hpoint : ∀ item, mulClamped (hashedPoint permut item) party.sk8 =
      blinded permut item party.sk := by
    intro item
    rw [hparty.built.keys, Keys.mulClamped_eq _ (EdwardsPoint.eight_nsmul_mem _), blinded]
  rw [ownPoints, hparty.input, chunksExact_flatten, hparty.permut, List.map_ofFn]
  exact congrArg List.ofFn (funext fun i => hpoint (V i))

/-- An item is recovered from its point under the own key. -/
theorem recover (hitem : Recoverable permut item) :
    recoverFromPoint (mulScalar (blinded permut item party.sk) party.sk8Inv) permut = item := by
  have h₈ := EdwardsPoint.eight_nsmul_mem (hashedPoint permut item)
  refine recoverFromPoint_eq hitem.1 hitem.2 (hashToPoint_eq permut item) ?_
  rw [hparty.built.keys, blinded, ← Keys.mulClamped_eq _ h₈]
  exact Keys.eight_nsmul_mulScalar_sk8Inv coins.raw h₈

end Honest

/-! ### One direction of a run -/

variable {other : Party} {coins' : PartyCoins n n} {W : Fin n → Block}

/-- The points of a party as the other returns them. -/
def returned (permut : FeistelPrp256) (V : Fin n → Block) (party other : Party)
    (π : Equiv.Perm (Fin n)) (i : Fin n) : EdwardsPoint :=
  mulScalar (blinded permut (V (π⁻¹ i)) party.sk) other.sk

/-- With the own key removed, a point that has come back is the point of the item under the key of
the other. -/
theorem mulScalar_returned (hparty : Honest party pp coins permut V) (π : Equiv.Perm (Fin n))
    (i : Fin n) : mulScalar (returned permut V party other π i) party.skInv =
      blinded permut (V (π⁻¹ i)) other.sk :=
  mulScalar_blinded permut _ hparty.built.sk_mul_skInv

/-- **An item is withheld** when the other party has it. -/
theorem keptIndices_returned (hparty : Honest party pp coins permut V)
    (hother : Honest other pp coins' permut W) (hfree : ∀ i, CollisionFree permut (V i))
    (π : Equiv.Perm (Fin n)) :
    party.keptIndices (returned permut V party other π) other._ownPoints =
      (List.finRange n).filter fun i => decide (V (π⁻¹ i) ∉ List.ofFn W) := by
  rw [keptIndices]
  refine List.filter_congr fun i _ => ?_
  have hmem : compress (blinded permut (V (π⁻¹ i)) other.sk) ∈ other._ownPoints ↔
      V (π⁻¹ i) ∈ List.ofFn W := by
    rw [_ownPoints, hother.ownPoints_eq, List.map_ofFn, List.mem_ofFn, List.mem_ofFn]
    refine exists_congr fun j => ?_
    rw [Function.comp_apply, compress_injective.eq_iff, eq_comm,
      blinded_inj (hfree _) hother.built.sk_ne_zero, eq_comm]
  rw [mulScalar_returned hparty, List.contains_eq_mem, ← decide_not]
  exact decide_eq_decide.mpr (not_congr hmem)

/-- What a party sends to the other and gets back from it, and what the other makes of the
response. -/
structure Answered (O : Oracles) (pp : PublicParams EdwardsPoint) (party other : Party)
    (coins : RunCoins) (n : ℕ) (shuffle : Shuffle) (response : Response) (X : List Block) :
    Prop where
  shuffled : other.blindShuffle O pp party.ownPoints party._ownPoints = .ok shuffle
  decompressed : Decompressed shuffle._points shuffle.points
  encodable : (Message.round3 shuffle.proof shuffle._points).Encodable
  size : (Message.round3 shuffle.proof shuffle._points).size = 452 + 128 * n
  responded : party.finalResponse O pp coins other.pk party.ownPoints shuffle.points
    party._ownPoints shuffle._points other._ownPoints shuffle.proof = .ok (some response)
  length_response : response._unblinded.length ≤ n ∧ response.ind.length ≤ n
  revealed : other.reveal O party.pk shuffle response = .ok (some (flatten X))

/-- **One direction of a run**: the other party recovers the items that it does not have. -/
theorem exists_answered (hparty : Honest party pp coins permut V)
    (hother : Honest other pp coins' permut W) (hn : 2 ≤ n) (hn' : n < 2 ^ 32)
    (hV : ∀ i, Recoverable permut (V i)) (O : Oracles) (runCoins : RunCoins) :
    ∃ shuffle response X, Answered O pp party other runCoins n shuffle response X ∧
      X.Perm ((List.ofFn V).filter fun x => decide (x ∉ List.ofFn W)) := by
  obtain ⟨h, hh⟩ : ∃ h, h = returned permut V party other coins'.π := ⟨_, rfl⟩
  have hmem : ∀ i, blinded permut (V i) party.sk ∈ primeSubgroup EdwardsPoint := fun i =>
    blinded_mem permut (V i) party.sk
  obtain ⟨proof, hshuffle, hx, hf, hfDelta, hverify⟩ :=
    exists_blindShuffle_verified hother.built O hmem
  have hshuffled : shuffled other.sk coins'.π (fun i => blinded permut (V i) party.sk) =
      List.ofFn h := by
    rw [hh]
    rfl
  rw [hshuffled] at hshuffle
  simp only [hshuffled] at hverify
  have haccept := (hverify runCoins.alpha1 runCoins.alpha2).mpr fun h₁ => by omega
  -- the points that are opened, and the items that are recovered from them
  obtain ⟨k, hk⟩ : ∃ k, (party.keptIndices h other._ownPoints).length = k := ⟨_, rfl⟩
  obtain ⟨js, hjs⟩ := exists_ofFn hk
  obtain ⟨Q, hQ⟩ : ∃ Q, Q = fun i => mulScalar (h (js i)) party.skInv := ⟨_, rfl⟩
  have hpoint : ∀ i, Q i = blinded permut (V (coins'.π⁻¹ (js i))) other.sk := by
    intro i
    rw [hQ, hh]
    exact mulScalar_returned hparty coins'.π (js i)
  have hback : ∀ i, h (js i) = mulScalar (Q i) party.sk := by
    intro i
    rw [hpoint, hh, returned, blinded, blinded,
      mulScalar_mulScalar (EdwardsPoint.eight_nsmul_mem _),
      mulScalar_mulScalar (EdwardsPoint.eight_nsmul_mem _), mul_comm]
  obtain ⟨ddh, hddh, hreveal⟩ := exists_reveal O other
    (fun i => (js i).isLt.trans hn') party.sk runCoins.r
    (fun i => hpoint i ▸ blinded_mem permut _ other.sk) hback
  rw [← hparty.built.pk] at hddh hreveal
  have hresponse := finalResponse_eq_opening hparty.built.n_eq other._ownPoints haccept hjs.symm
    (fun i => congrFun hQ i) hddh
  have hcount : k ≤ n := by
    rw [← hk]
    refine (List.length_filter_le _ _).trans ?_
    rw [List.length_finRange]
  have hitems : (List.ofFn Q).map (fun point =>
      recoverFromPoint (mulScalar point other.sk8Inv) other.permut) =
      List.ofFn fun i => V (coins'.π⁻¹ (js i)) := by
    rw [List.map_ofFn, hother.permut]
    refine congrArg List.ofFn (funext fun i => ?_)
    rw [Function.comp_apply, hpoint]
    exact hother.recover (hV _)
  have hperm : (List.ofFn fun i => V (coins'.π⁻¹ (js i))).Perm
      ((List.ofFn V).filter fun x => decide (x ∉ List.ofFn W)) := by
    have hfilter : (List.ofFn fun i => V (coins'.π⁻¹ (js i))) =
        (List.ofFn (V ∘ ⇑coins'.π⁻¹)).filter fun x => decide (x ∉ List.ofFn W) := by
      rw [← Function.comp_def (fun i => V (coins'.π⁻¹ i)), ← List.map_ofFn, ← hjs, hh,
        keptIndices_returned hparty hother fun i => (hV i).2,
        List.ofFn_eq_map (f := V ∘ ⇑coins'.π⁻¹), List.filter_map]
      rfl
    rw [hfilter]
    exact (coins'.π⁻¹.ofFn_comp_perm V).filter _
  refine ⟨⟨proof, List.ofFn h, (List.ofFn h).map compress⟩, opening js Q ddh, _,
    ⟨?_, decompressed_map_compress _, ?_, ?_, ?_, ⟨?_, ?_⟩, ?_⟩, hperm⟩
  · rw [_ownPoints, hparty.ownPoints_eq]
    exact hshuffle
  · rw [Message.Encodable, hx, hf, hfDelta, List.length_map, List.length_ofFn]
    omega
  · rw [Message.size, hx, hf, hfDelta, List.length_map, List.length_ofFn]
    omega
  · rw [_ownPoints, hparty.ownPoints_eq]
    exact hresponse
  · rw [opening, List.length_map, List.length_ofFn]
    exact hcount
  · rw [opening, List.length_ofFn]
    exact hcount
  · rw [← hitems]
    exact hreveal proof

end Items

/-! ### Both directions -/

section Runs

variable {n : ℕ} {O : Oracles} {C : Bincode} {pp : PublicParams EdwardsPoint}
  {server client : Party} {coins coins' : RunCoins} {shuffle shuffle' : Shuffle}
  {response response' : Response} {X Y : List Block}
  (hserver : server.server = true) (hclient : client.server = false)

include hserver hclient

/-- Round 1: each party has the `sigma` of the other. -/
theorem reaches_round2 : Session.Reaches (session O C pp server client coins coins')
    ⟨(fromRound2 O server pp coins (hashSigma O client.pk client._ownPoints)).process C,
      (fromRound2 O client pp coins' (hashSigma O server.pk server._ownPoints)).process C,
      [], []⟩ := by
  have hencodable : ∀ sigma, (Message.round1 sigma).Encodable := fun _ => trivial
  have hsize : ∀ sigma, (Message.round1 sigma).size < 2 ^ 32 := by
    intro sigma
    rw [Message.size]
    decide
  rw [session, Session.init, protocol_eq_exchange, protocol_eq_exchange, hserver, hclient]
  exact Dialogue.reaches_exchange Message.round1? _ _ (hencodable _) (hsize _) (hencodable _)
    (hsize _) rfl rfl

/-- Round 2: each party has shuffled the points of the other. -/
theorem reaches_round3 (hn : server._ownPoints.length = n) (hn' : client._ownPoints.length = n)
    (hlt : 44 + 32 * n < 2 ^ 32)
    (hshuffle : client.blindShuffle O pp server.ownPoints server._ownPoints = .ok shuffle)
    (hshuffle' : server.blindShuffle O pp client.ownPoints client._ownPoints = .ok shuffle') :
    Session.Reaches
      ⟨(fromRound2 O server pp coins (hashSigma O client.pk client._ownPoints)).process C,
        (fromRound2 O client pp coins' (hashSigma O server.pk server._ownPoints)).process C,
        [], []⟩
      ⟨(fromRound3 O server pp coins (client.pk, client._ownPoints) shuffle').process C,
        (fromRound3 O client pp coins' (server.pk, server._ownPoints) shuffle).process C,
        [], []⟩ := by
  rw [fromRound2, fromRound2, hserver, hclient]
  have hencodable : ∀ {party : Party}, party._ownPoints.length = n →
      (Message.round2 party.pk party._ownPoints).Encodable := by
    intro party hlen
    rw [Message.Encodable, hlen]
    omega
  have hsize : ∀ {party : Party}, party._ownPoints.length = n →
      (Message.round2 party.pk party._ownPoints).size < 2 ^ 32 := by
    intro party hlen
    rw [Message.size, hlen]
    exact hlt
  refine (Dialogue.reaches_exchange Message.round2? _ _ (hencodable hn) (hsize hn)
    (hencodable hn') (hsize hn') rfl rfl).trans ?_
  dsimp only
  rw [fromRound2_of_committed client.decompressed_ownPoints hshuffle',
    fromRound2_of_committed server.decompressed_ownPoints hshuffle]
  exact .refl _

/-- Rounds 3 and 4: each party reveals the items of the other. -/
theorem reaches_end (hn : 452 + 128 * n < 2 ^ 32)
    (h : Answered O pp server client coins n shuffle response X)
    (h' : Answered O pp client server coins' n shuffle' response' Y) :
    Session.Reaches
      ⟨(fromRound3 O server pp coins (client.pk, client._ownPoints) shuffle').process C,
        (fromRound3 O client pp coins' (server.pk, server._ownPoints) shuffle).process C, [], []⟩
      ⟨.done (.ok (some (flatten Y))), .done (.ok (some (flatten X))), [], []⟩ := by
  have hround4 : ∀ {right : Response}, right._unblinded.length ≤ n ∧ right.ind.length ≤ n →
      (Message.round4 right.proof right._unblinded right.ind).Encodable ∧
        (Message.round4 right.proof right._unblinded right.ind).size < 2 ^ 32 := by
    rintro right ⟨hunblinded, hind⟩
    rw [Message.Encodable, Message.size]
    omega
  obtain ⟨hencodable, hsize⟩ := hround4 h.length_response
  obtain ⟨hencodable', hsize'⟩ := hround4 h'.length_response
  rw [fromRound3, fromRound3, hserver, hclient]
  refine (Dialogue.reaches_exchange Message.round3? _ _ h'.encodable (h'.size.trans_lt hn)
    h.encodable (h.size.trans_lt hn) rfl rfl).trans ?_
  dsimp only
  rw [fromRound3_of_answered h.decompressed h.responded,
    fromRound3_of_answered h'.decompressed h'.responded]
  have hread : ∀ right : Response,
      (Message.round4 right.proof right._unblinded right.ind).round4? = some right := fun _ => rfl
  refine (Dialogue.reaches_exchange Message.round4? _ _ hencodable hsize hencodable' hsize'
    (hread response) (hread response')).trans ?_
  rw [← h.revealed, ← h'.revealed]
  exact .refl _

omit hserver hclient

/-- Every run of the two ends with `Some` on both sides: the server has the items of the client that
are not its own, the client those of the server, and the unions are the same. -/
def Correct (O : Oracles) (C : Bincode) (pp : PublicParams EdwardsPoint) (server client : Party)
    (coins coins' : RunCoins) (V W : List Block) : Prop :=
  (session O C pp server client coins coins').EveryRun fun x y =>
    ∃ X Y, x = .ok (some (flatten X)) ∧ y = .ok (some (flatten Y)) ∧
      X.Perm (W.filter fun b => decide (b ∉ V)) ∧ Y.Perm (V.filter fun b => decide (b ∉ W)) ∧
      ∀ b, b ∈ V ++ X ↔ b ∈ W ++ Y

/-- The outputs of a correct run pass the check. -/
theorem Correct.passes_check {V W : List Block}
    (h : Correct O C pp server client coins coins' V W) :
    (session O C pp server client coins coins').EveryRun fun x y =>
      ∃ out out', x = .ok (some out) ∧ y = .ok (some out') ∧
        correctnessCheck (flatten V) (flatten W) out = .ok true ∧
        correctnessCheck (flatten W) (flatten V) out' = .ok true := by
  have hlen : ∀ U : List Block, (flatten U).length % 16 = 0 := by
    intro U
    rw [length_flatten, Nat.mul_mod_right]
  have hcheck : ∀ {U U' out : List Block}, out.Perm (U'.filter fun b => decide (b ∉ U)) →
      correctnessCheck (flatten U) (flatten U') (flatten out) = .ok true := by
    intro U U' out hout
    refine correctnessCheck_of_isDifference (hlen U) (hlen U') (hlen out) fun b => ?_
    rw [chunksExact_flatten, chunksExact_flatten, chunksExact_flatten, hout.mem_iff,
      List.mem_filter, decide_eq_true_iff]
  refine h.mono ?_
  rintro x y ⟨X, Y, rfl, rfl, hX, hY, -⟩
  exact ⟨_, _, rfl, rfl, hcheck hX, hcheck hY⟩

variable {permut : FeistelPrp256} {partyCoins partyCoins' : PartyCoins n n} {V W : Fin n → Block}

theorem mem_union_of_perm {V W X Y : List Block} (hX : X.Perm (W.filter fun b => decide (b ∉ V)))
    (hY : Y.Perm (V.filter fun b => decide (b ∉ W))) (b : Block) : b ∈ V ++ X ↔ b ∈ W ++ Y := by
  rw [List.mem_append, List.mem_append, hX.mem_iff, hY.mem_iff, List.mem_filter, List.mem_filter,
    decide_eq_true_iff, decide_eq_true_iff]
  tauto

theorem Honest.length_ownPoints (hparty : Honest server pp partyCoins permut V) :
    server._ownPoints.length = n := by
  rw [length_ownEncodings, hparty.input, chunksExact_flatten, List.length_ofFn]

/-- **Runs whose messages are shorter than `2^32` bytes** are correct. -/
theorem correct_of_le (hserver : Honest server pp partyCoins permut V)
    (hclient : Honest client pp partyCoins' permut W) (hs : server.server = true)
    (hc : client.server = false) (hn : 2 ≤ n) (hle : n ≤ 33554428)
    (hV : ∀ i, Recoverable permut (V i)) (hW : ∀ i, Recoverable permut (W i)) :
    Correct O C pp server client coins coins' (List.ofFn V) (List.ofFn W) := by
  have hlt : n < 2 ^ 32 := by omega
  obtain ⟨shuffle, response, Y, h, hY⟩ := exists_answered hserver hclient hn hlt hV O coins
  obtain ⟨shuffle', response', X, h', hX⟩ := exists_answered hclient hserver hn hlt hW O coins'
  refine Session.everyRun_of_run ((reaches_round2 hs hc).trans ((reaches_round3 hs hc
    hserver.length_ownPoints hclient.length_ownPoints (by omega) h.shuffled h'.shuffled).trans
    (reaches_end hs hc (by omega) h h'))) ?_
  exact ⟨X, Y, rfl, rfl, hX, hY, mem_union_of_perm hX hY⟩

/-- **A list of the shuffle proof that does not fit a message** makes the client panic. -/
theorem not_correct_of_lt (hserver : Honest server pp partyCoins permut V)
    (hclient : Honest client pp partyCoins' permut W) (hs : server.server = true)
    (hc : client.server = false) (hlt : 33554428 < n) (hn : n < 2 ^ 64)
    (hV : ∀ i, Recoverable permut (V i)) (hW : ∀ i, Recoverable permut (W i)) :
    ¬ Correct O C pp server client coins coins' (List.ofFn V) (List.ofFn W) := by
  intro hcorrect
  obtain ⟨t, hreach, ht⟩ : ∃ t, Session.Reaches (session O C pp server client coins coins') t ∧
      t.right = .done (.error .unwrapErr) := by
    by_cases hround2 : 44 + 32 * n < 2 ^ 32
    · -- round 2 still fits, the proof of round 3 does not
      obtain ⟨shuffle, response, Y, h, -⟩ := exists_answered hserver hclient (by omega)
        (by omega) hV O coins
      obtain ⟨shuffle', response', X, h', -⟩ := exists_answered hclient hserver (by omega)
        (by omega) hW O coins'
      obtain ⟨t, hfails, ht⟩ := Dialogue.exists_exchange_fails (C := C) Message.round3? _ _
        h'.encodable (h'.size.symm ▸ (by omega : 2 ^ 32 ≤ 452 + 128 * n))
      refine ⟨t, (reaches_round2 hs hc).trans ((reaches_round3 hs hc hserver.length_ownPoints
        hclient.length_ownPoints hround2 h.shuffled h'.shuffled).trans ?_), ht⟩
      rw [fromRound3, fromRound3, hs, hc]
      exact hfails
    · have hencodable : (Message.round2 server.pk server._ownPoints).Encodable := by
        rw [Message.Encodable, hserver.length_ownPoints]
        exact hn
      have hsize : 2 ^ 32 ≤ (Message.round2 server.pk server._ownPoints).size := by
        rw [Message.size, hserver.length_ownPoints]
        exact not_lt.mp hround2
      obtain ⟨t, hfails, ht⟩ := Dialogue.exists_exchange_fails (C := C) Message.round2? _ _
        hencodable hsize
      refine ⟨t, (reaches_round2 hs hc).trans ?_, ht⟩
      rw [fromRound2, fromRound2, hs, hc]
      exact hfails
  obtain ⟨x, X, Y, -, hY, -⟩ := hcorrect.of_right hreach ht
  cases hY

end Runs

/-! ### Parties as they are built -/

section Built

variable {n : ℕ} {aes : Block → Block → Block} {aesKey : Block} {pp : PublicParams EdwardsPoint}

/-- A party is built of any `n` items. -/
theorem exists_honest (server : Bool) (aes : Block → Block → Block) (aesKey : Block)
    (hf : pp.f.length = n) (hn : n ≠ 0) (V : Fin n → Block) (coins : PartyCoins n n) :
    ∃ party, Party.new server (flatten (List.ofFn V)) aes aesKey pp n n coins = .ok party ∧
      Honest party pp coins (.new aes aesKey) V ∧ party.server = server := by
  obtain ⟨party, hparty⟩ : ∃ party,
      Party.new server (flatten (List.ofFn V)) aes aesKey pp n n coins = .ok party :=
    exists_new hf hn coins
  obtain ⟨hbuilt, hserver, hinput, hpermut⟩ := built_of_new hparty
  exact ⟨party, hparty, ⟨hbuilt, hinput, hpermut⟩, hserver⟩

/-- Both parties are built of any lists of `n` items. -/
theorem exists_parties (hn : 2 ≤ n) (hf : pp.f.length = n) {V W : List Block} (hV : V.length = n)
    (hW : W.length = n) (hitems : ∀ item ∈ V ++ W, Recoverable (.new aes aesKey) item)
    (partyCoins partyCoins' : PartyCoins n n) :
    ∃ (server client : Party) (v w : Fin n → Block), List.ofFn v = V ∧ List.ofFn w = W ∧
      Party.new true (flatten V) aes aesKey pp n n partyCoins = .ok server ∧
      Party.new false (flatten W) aes aesKey pp n n partyCoins' = .ok client ∧
      (Honest server pp partyCoins (.new aes aesKey) v ∧ server.server = true) ∧
      (Honest client pp partyCoins' (.new aes aesKey) w ∧ client.server = false) ∧
      (∀ i, Recoverable (.new aes aesKey) (v i)) ∧ ∀ i, Recoverable (.new aes aesKey) (w i) := by
  obtain ⟨v, rfl⟩ := exists_ofFn hV
  obtain ⟨w, rfl⟩ := exists_ofFn hW
  obtain ⟨server, hserver, hs⟩ := exists_honest true aes aesKey hf (by omega) v partyCoins
  obtain ⟨client, hclient, hc⟩ := exists_honest false aes aesKey hf (by omega) w partyCoins'
  refine ⟨server, client, v, w, rfl, rfl, hserver, hclient, hs, hc, fun i => ?_, fun i => ?_⟩
  · exact hitems _ (List.mem_append_left _ (List.mem_ofFn.mpr ⟨i, rfl⟩))
  · exact hitems _ (List.mem_append_right _ (List.mem_ofFn.mpr ⟨i, rfl⟩))

/-- **When honest runs are correct.**  For any two lists of `n` items, whatever the parties draw,
every run of the two is correct exactly when the proof of a shuffle fits in a message. -/
theorem protocol_correct_iff (hn : 2 ≤ n) (hn' : n < 2 ^ 64) (hf : pp.f.length = n)
    {V W : List Block} (hV : V.length = n) (hW : W.length = n)
    (hitems : ∀ item ∈ V ++ W, Recoverable (.new aes aesKey) item) (O : Oracles) (C : Bincode)
    (partyCoins partyCoins' : PartyCoins n n) (coins coins' : RunCoins) :
    ∃ server client,
      Party.new true (flatten V) aes aesKey pp n n partyCoins = .ok server ∧
      Party.new false (flatten W) aes aesKey pp n n partyCoins' = .ok client ∧
      (Correct O C pp server client coins coins' V W ↔ n ≤ 33554428) := by
  obtain ⟨server, client, v, w, rfl, rfl, hserver, hclient, ⟨hs, hs'⟩, ⟨hc, hc'⟩, hv, hw⟩ :=
    exists_parties hn hf hV hW hitems partyCoins partyCoins'
  refine ⟨server, client, hserver, hclient, ?_⟩
  constructor
  · intro hcorrect
    by_contra hlt
    exact not_correct_of_lt hs hc hs' hc' (not_le.mp hlt) hn' hv hw hcorrect
  · intro hle
    exact correct_of_le hs hc hs' hc' hn hle hv hw

/-- **The outputs pass the check** of the test, in every run of two honest parties. -/
theorem protocol_passes_check (hn : 2 ≤ n) (hle : n ≤ 33554428) (hf : pp.f.length = n)
    {V W : List Block} (hV : V.length = n) (hW : W.length = n)
    (hitems : ∀ item ∈ V ++ W, Recoverable (.new aes aesKey) item) (O : Oracles) (C : Bincode)
    (partyCoins partyCoins' : PartyCoins n n) (coins coins' : RunCoins) :
    ∃ server client,
      Party.new true (flatten V) aes aesKey pp n n partyCoins = .ok server ∧
      Party.new false (flatten W) aes aesKey pp n n partyCoins' = .ok client ∧
      (session O C pp server client coins coins').EveryRun fun x y =>
        ∃ out out', x = .ok (some out) ∧ y = .ok (some out') ∧
          correctnessCheck (flatten V) (flatten W) out = .ok true ∧
          correctnessCheck (flatten W) (flatten V) out' = .ok true := by
  obtain ⟨server, client, v, w, rfl, rfl, hserver, hclient, ⟨hs, hs'⟩, ⟨hc, hc'⟩, hv, hw⟩ :=
    exists_parties hn hf hV hW hitems partyCoins partyCoins'
  exact ⟨server, client, hserver, hclient,
    (correct_of_le hs hc hs' hc' hn hle hv hw).passes_check⟩

end Built

/-! ### Items that meet the assumptions -/

theorem recoverable_identityPrp : Recoverable (.new (fun _ b => b) 0) 3 :=
  ⟨usable_identityPrp, collisionFree_identityPrp⟩

/-- The hashes of the items 4 and 5. -/
def hashFour : EdwardsPoint where
  x := (7952124796354367615506229637611629402200788688114113132213792547144276350242 : ℕ)
  y := (29041120629192433473667736779444391373005235813344395632734360600239131622890 : ℕ)
  on_curve := by decide +kernel

def hashFive : EdwardsPoint where
  x := (33278119556954283112036833996245318160455409038261216318076021157791749708790 : ℕ)
  y := (32456947434075349275120345451502434544788127258752322924074517298105049906745 : ℕ)
  on_curve := by decide +kernel

theorem recoverable_four : Recoverable (.new (fun _ b => b) 0) 4 := by
  have hpoint : hashToPoint 4 identityPrp = .ok hashFour := by decide +kernel
  exact ⟨by decide +kernel, collisionFree_of_allInWindow hpoint (by decide +kernel)⟩

theorem recoverable_five : Recoverable (.new (fun _ b => b) 0) 5 := by
  have hpoint : hashToPoint 5 identityPrp = .ok hashFive := by decide +kernel
  exact ⟨by decide +kernel, collisionFree_of_allInWindow hpoint (by decide +kernel)⟩

theorem recoverable_twoLists : ∀ item ∈ ([3, 4] ++ [4, 5] : List Block),
    Recoverable (.new (fun _ b => b) 0) item := by
  intro item hitem
  simp only [List.cons_append, List.nil_append, List.mem_cons, List.not_mem_nil, or_false]
    at hitem
  rcases hitem with rfl | rfl | rfl | rfl
  · exact recoverable_identityPrp
  · exact recoverable_four
  · exact recoverable_four
  · exact recoverable_five

/-- The server has 3 and 4, the client 4 and 5. -/
theorem protocol_correct_iff_two : ∃ server client,
    Party.new true (flatten [3, 4]) (fun _ b => b) 0 twoParams 2 2 zeroCoins = .ok server ∧
      Party.new false (flatten [4, 5]) (fun _ b => b) 0 twoParams 2 2 zeroCoins = .ok client ∧
      (Correct Oracles.reading bincode twoParams server client ⟨0, 0, 0⟩ ⟨0, 0, 0⟩ [3, 4] [4, 5] ↔
        2 ≤ 33554428) :=
  protocol_correct_iff le_rfl (by decide) rfl rfl rfl recoverable_twoLists _ _ _ _ _ _

/-- The check of what they get. -/
theorem protocol_passes_check_two : ∃ server client,
    Party.new true (flatten [3, 4]) (fun _ b => b) 0 twoParams 2 2 zeroCoins = .ok server ∧
      Party.new false (flatten [4, 5]) (fun _ b => b) 0 twoParams 2 2 zeroCoins = .ok client ∧
      (session Oracles.reading bincode twoParams server client ⟨0, 0, 0⟩ ⟨0, 0, 0⟩).EveryRun
        fun x y => ∃ out out', x = .ok (some out) ∧ y = .ok (some out') ∧
          correctnessCheck (flatten [3, 4]) (flatten [4, 5]) out = .ok true ∧
          correctnessCheck (flatten [4, 5]) (flatten [3, 4]) out' = .ok true :=
  protocol_passes_check le_rfl (by decide) rfl rfl rfl recoverable_twoLists _ _ _ _ _ _

theorem recoverable_replicate (k : ℕ) : ∀ item ∈ List.replicate k 3 ++ List.replicate k 3,
    Recoverable (.new (fun _ b => b) 0) item := by
  intro item hitem
  obtain rfl : item = 3 := by
    rcases List.mem_append.mp hitem with h | h
    · exact List.eq_of_mem_replicate h
    · exact List.eq_of_mem_replicate h
  exact recoverable_identityPrp

/-- Parties of so many copies of the item 3 that a shuffle proof does not fit in a message. -/
theorem exists_incorrect {k : ℕ} (hlt : 33554428 < k) (hk : k < 2 ^ 64) : ∃ server client,
    Party.new true (flatten (List.replicate k 3)) (fun _ b => b) 0
        (setupParams (List.replicate k 1)) k k ⟨0, 1, .zero k⟩ = .ok server ∧
      Party.new false (flatten (List.replicate k 3)) (fun _ b => b) 0
        (setupParams (List.replicate k 1)) k k ⟨0, 1, .zero k⟩ = .ok client ∧
      ¬ Correct Oracles.reading bincode (setupParams (List.replicate k 1)) server client ⟨0, 0, 0⟩
        ⟨0, 0, 0⟩ (List.replicate k 3) (List.replicate k 3) := by
  have hf : (setupParams (List.replicate k 1) : PublicParams EdwardsPoint).f.length = k := by
    rw [setupParams, List.length_map, List.length_replicate]
  have hfn : List.replicate k (3 : Block) = List.ofFn fun _ : Fin k => 3 :=
    (List.ofFn_const k 3).symm
  obtain ⟨server, hserver, hs, hs'⟩ := exists_honest true (fun _ b => b) 0 hf (by omega)
    (fun _ => 3) ⟨0, 1, .zero k⟩
  obtain ⟨client, hclient, hc, hc'⟩ := exists_honest false (fun _ b => b) 0 hf (by omega)
    (fun _ => 3) ⟨0, 1, .zero k⟩
  rw [hfn]
  exact ⟨server, client, hserver, hclient, not_correct_of_lt hs hc hs' hc' hlt hk
    (fun _ => recoverable_identityPrp) fun _ => recoverable_identityPrp⟩

/-- **The first size at which a shuffle proof does not fit.** -/
theorem protocol_incorrect_large :
    (∀ item ∈ List.replicate 33554429 3 ++ List.replicate 33554429 3,
      Recoverable (.new (fun _ b => b) 0) item) ∧
    ∃ server client,
      Party.new true (flatten (List.replicate 33554429 3)) (fun _ b => b) 0
          (setupParams (List.replicate 33554429 1)) 33554429 33554429 ⟨0, 1, .zero 33554429⟩ =
        .ok server ∧
      Party.new false (flatten (List.replicate 33554429 3)) (fun _ b => b) 0
          (setupParams (List.replicate 33554429 1)) 33554429 33554429 ⟨0, 1, .zero 33554429⟩ =
        .ok client ∧
      ¬ Correct Oracles.reading bincode (setupParams (List.replicate 33554429 1)) server client
        ⟨0, 0, 0⟩ ⟨0, 0, 0⟩ (List.replicate 33554429 3) (List.replicate 33554429 3) :=
  ⟨recoverable_replicate _, exists_incorrect (by decide) (by decide)⟩

end Party

end MaliciousPsu
