import MaliciousPsu.Bincode
import MaliciousPsu.TwoSided.Survival

/-!
# Two parties on a stream

The two calls of `protocol` run against each other over the bytes of their messages, in any order
of steps.

* `reaches_exchange`: one round between a server and a client.
* `exists_exchange_fails`: a message of `2^32` bytes or more ends the client.
* `not_handled`: parties whose sets differ in size are not even built.
-/

namespace MaliciousPsu

namespace Dialogue

variable {α β γ : Type} {C : Bincode}

theorem attempt_of_ok {x : Run α} {a : α} (h : x = .ok a) (k : α → Dialogue (Run β)) :
    attempt x k = k a := by
  rw [h]
  rfl

theorem orNone_of_some {o : Option α} {a : α} (h : o = some a)
    (k : α → Dialogue (Run (Option β))) : orNone o k = k a := by
  rw [h]
  rfl

section Exchange

variable {msg msg' : Message} (expected : Message → Option α)
  (k : α → Dialogue (Run (Option β))) (k' : α → Dialogue (Run (Option γ)))

/-- **One round**: the message of the server, then that of the client. -/
theorem reaches_exchange (hm : msg.Encodable) (hlt : msg.size < 2 ^ 32) (hm' : msg'.Encodable)
    (hlt' : msg'.size < 2 ^ 32) {a a' : α} (ha : expected msg = some a)
    (ha' : expected msg' = some a') :
    Session.Reaches ⟨(exchange true msg expected k).process C,
        (exchange false msg' expected k').process C, [], []⟩
      ⟨(k a').process C, (k' a).process C, [], []⟩ := by
  have hright := write_read_of_lt (C := C) hm hlt
    (readMsg C fun other => (orNone (expected other) k).process C)
    fun other => (orNone (expected other) fun a => .write msg' (k' a)).process C
  rw [orNone_of_some ha] at hright
  have hleft := read_write_of_lt (C := C) hm' hlt'
    (fun other => (orNone (expected other) k).process C) ((k' a).process C)
  rw [orNone_of_some ha'] at hleft
  exact hright.trans hleft

/-- **A message that is too long** ends the client, which reads first. -/
theorem exists_exchange_fails (hm : msg.Encodable) (hle : 2 ^ 32 ≤ msg.size) :
    ∃ t, Session.Reaches ⟨(exchange true msg expected k).process C,
        (exchange false msg' expected k').process C, [], []⟩ t ∧
      t.right = .done (.error .unwrapErr) := by
  have hcut := write_read C msg (readMsg C fun other => (orNone (expected other) k).process C)
    fun other => (orNone (expected other) fun a => .write msg' (k' a)).process C
  rw [transmit_of_le hm hle] at hcut
  exact ⟨_, hcut, rfl⟩

end Exchange

end Dialogue

namespace Party

/-! ### The protocol round by round -/

section Rounds

variable (O : Oracles) (party : Party) (pp : PublicParams EdwardsPoint) (coins : RunCoins)

/-- `protocol` from round 3 on. -/
def fromRound3 (right : EdwardsPoint × List CompressedEdwardsY) (shuffle : Shuffle) :
    Dialogue (Run (Option (List UInt8))) :=
  .exchange party.server (.round3 shuffle.proof shuffle._points) Message.round3? fun right3 =>
  .attempt (right3.2.mapM fun _p => unwrap (decompress _p)) fun shuffled =>
  .attempt (party.finalResponse O pp coins right.1 party.ownPoints shuffled party._ownPoints
    right3.2 right.2 right3.1) fun response =>
  .orNone response fun response =>
  .exchange party.server (.round4 response.proof response._unblinded response.ind)
    Message.round4? fun right4 =>
  .done (party.reveal O right.1 shuffle right4)

/-- `protocol` from round 2 on. -/
def fromRound2 (rightSigma : Bytes32) : Dialogue (Run (Option (List UInt8))) :=
  .exchange party.server (.round2 party.pk party._ownPoints) Message.round2? fun right =>
  .attempt (verifySigma O rightSigma right.1 right.2) fun checked =>
  if !checked.1 then .done (.ok none) else
  .attempt (party.blindShuffle O pp checked.2 right.2) fun shuffle =>
  fromRound3 O party pp coins right shuffle

theorem protocol_eq_exchange : party.protocol O pp coins =
    .exchange party.server (.round1 (hashSigma O party.pk party._ownPoints)) Message.round1?
      (fromRound2 O party pp coins) := by
  rw [protocol, Dialogue.attempt_of_ok (gen_eq O party)]
  rfl

variable {O party pp coins}

/-- Round 2 with a list that `sigma` commits to. -/
theorem fromRound2_of_committed {pk : EdwardsPoint} {_points : List CompressedEdwardsY}
    {points : List EdwardsPoint} (hpoints : Decompressed _points points) {shuffle : Shuffle}
    (hshuffle : party.blindShuffle O pp points _points = .ok shuffle) :
    (Dialogue.attempt (verifySigma O (hashSigma O pk _points) pk _points) fun checked =>
      if !checked.1 then .done (.ok none) else
      .attempt (party.blindShuffle O pp checked.2 _points) fun shuffle =>
      fromRound3 O party pp coins (pk, _points) shuffle) =
      fromRound3 O party pp coins (pk, _points) shuffle := by
  rw [Dialogue.attempt_of_ok (verifySigma_hashSigma O pk hpoints)]
  exact Dialogue.attempt_of_ok hshuffle _

/-- Round 3 with a shuffle that gets a response. -/
theorem fromRound3_of_answered {pk : EdwardsPoint} {_points : List CompressedEdwardsY}
    {proof : AdaptedShuffleProof} {_shuffled : List CompressedEdwardsY}
    {shuffled : List EdwardsPoint} (hshuffled : Decompressed _shuffled shuffled)
    {response : Response} (hresponse : party.finalResponse O pp coins pk party.ownPoints
      shuffled party._ownPoints _shuffled _points proof = .ok (some response)) (server : Bool)
    (shuffle : Shuffle) :
    (Dialogue.attempt (_shuffled.mapM fun _p => unwrap (decompress _p)) fun shuffled =>
      .attempt (party.finalResponse O pp coins pk party.ownPoints shuffled party._ownPoints
        _shuffled _points proof) fun response =>
      .orNone response fun response =>
      .exchange server (.round4 response.proof response._unblinded response.ind)
        Message.round4? fun right4 =>
      .done (party.reveal O pk shuffle right4)) =
      .exchange server (.round4 response.proof response._unblinded response.ind)
        Message.round4? fun right4 => .done (party.reveal O pk shuffle right4) := by
  rw [Dialogue.attempt_of_ok (mapM_decompress.mpr hshuffled), Dialogue.attempt_of_ok hresponse]
  rfl

end Rounds

/-- A server and a client on a stream. -/
def session (O : Oracles) (C : Bincode) (pp : PublicParams EdwardsPoint) (server client : Party)
    (coins coins' : RunCoins) :
    Session UInt8 (Run (Option (List UInt8))) (Run (Option (List UInt8))) :=
  .init ((server.protocol O pp coins).process C) ((client.protocol O pp coins').process C)

/-! ### Sets of different sizes -/

section Sizes

variable {n nOther : ℕ}

/-- A server of `n` items and a client of `nOther` are built, and every run of the two ends with
`Some` on both sides. -/
def Handled (O : Oracles) (C : Bincode) (aes : Block → Block → Block) (aesKey : Block)
    (pp : PublicParams EdwardsPoint) (V W : List UInt8) (partyCoins : PartyCoins n nOther)
    (partyCoins' : PartyCoins nOther n) (coins coins' : RunCoins) : Prop :=
  ∃ server client, Party.new true V aes aesKey pp n nOther partyCoins = .ok server ∧
    Party.new false W aes aesKey pp nOther n partyCoins' = .ok client ∧
    (session O C pp server client coins coins').EveryRun fun x y =>
      (∃ out, x = .ok (some out)) ∧ ∃ out, y = .ok (some out)

/-- **Sets of different sizes are never handled**: whatever the number of generators, both
constructions panic. -/
theorem not_handled (h : n ≠ nOther) (O : Oracles) (C : Bincode) (aes : Block → Block → Block)
    (aesKey : Block) (pp : PublicParams EdwardsPoint) (V W : List UInt8)
    (partyCoins : PartyCoins n nOther) (partyCoins' : PartyCoins nOther n)
    (coins coins' : RunCoins) :
    ¬ Returns (Party.new true V aes aesKey pp n nOther partyCoins) ∧
      ¬ Returns (Party.new false W aes aesKey pp nOther n partyCoins') ∧
      ¬ Handled O C aes aesKey pp V W partyCoins partyCoins' coins coins' := by
  refine ⟨?_, ?_, ?_⟩
  · rintro ⟨server, hserver⟩
    obtain ⟨hn, hnOther, -⟩ := length_of_new hserver
    exact h (hn.trans hnOther.symm)
  · rintro ⟨client, hclient⟩
    obtain ⟨hnOther, hn, -⟩ := length_of_new hclient
    exact h (hn.trans hnOther.symm)
  · rintro ⟨server, client, hserver, -, -⟩
    obtain ⟨hn, hnOther, -⟩ := length_of_new hserver
    exact h (hn.trans hnOther.symm)

/-- Two items and three, with three generators. -/
theorem not_handled_two_three :
    ¬ Returns (Party.new true (flatten [3, 4]) (fun _ b => b) 0 (setupParams [1, 2, 3]) 2 3
        ⟨0, 1, .zero 2⟩) ∧
      ¬ Returns (Party.new false (flatten [3, 4, 5]) (fun _ b => b) 0 (setupParams [1, 2, 3]) 3 2
        ⟨0, 1, .zero 3⟩) ∧
      ¬ Handled Oracles.reading bincode (fun _ b => b) 0 (setupParams [1, 2, 3]) (flatten [3, 4])
        (flatten [3, 4, 5]) (⟨0, 1, .zero 2⟩ : PartyCoins 2 3) ⟨0, 1, .zero 3⟩ ⟨0, 0, 0⟩
        ⟨0, 0, 0⟩ :=
  not_handled (by decide) _ _ _ _ _ _ _ _ _ _ _

/-- **With enough generators for the larger set**, the server of the smaller one panics as well. -/
theorem handled_fails_two_three :
    (setupParams [1, 2, 3] : PublicParams EdwardsPoint).f.length = max 2 3 ∧
      (chunksExact (flatten [3, 4])).length = 2 ∧ (chunksExact (flatten [3, 4, 5])).length = 3 ∧
      ¬ Handled Oracles.reading bincode (fun _ b => b) 0 (setupParams [1, 2, 3]) (flatten [3, 4])
        (flatten [3, 4, 5]) (⟨0, 1, .zero 2⟩ : PartyCoins 2 3) ⟨0, 1, .zero 3⟩ ⟨0, 0, 0⟩
        ⟨0, 0, 0⟩ := by
  refine ⟨rfl, by rw [chunksExact_flatten]; rfl, by rw [chunksExact_flatten]; rfl, ?_⟩
  rintro ⟨server, client, hserver, -, -⟩
  obtain ⟨hn, hnOther, -⟩ := length_of_new hserver
  exact absurd (hn.trans hnOther.symm) (by decide)

end Sizes

end Party

end MaliciousPsu
