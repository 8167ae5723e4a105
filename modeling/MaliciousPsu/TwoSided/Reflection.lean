import MaliciousPsu.Lib.Exchange
import MaliciousPsu.TwoSided.Opening
import MaliciousPsu.TwoSided.Session

/-!
# A peer that sends the own messages back

Nothing in `protocol` tells the own messages from those of the other party: `sigma` is the hash of
a key and a list of points, whoever sends them.

* `Dialogue.reflect`: a peer that answers with messages that it has read.
* `settles_exchange`: in each round the only message that is not turned down is the own one of this
  round.
* `protocol_reflected_iff`: the messages of the same round sent back are accepted, and no item is
  revealed.
-/

namespace MaliciousPsu

namespace Dialogue

/-- The peer answers with a message, if it has it, and ends otherwise. -/
def answerOrEnd (answer : Option Message) (k : Dialogue (Run Unit)) : Dialogue (Run Unit) :=
  match answer with
  | some msg => .write msg k
  | none => .done (.ok ())

/-- A peer that reads one message a round, and answers round `i` with the message number `choice i`
of those that it has read. -/
def reflect (choice : ℕ → ℕ) : ℕ → List Message → Dialogue (Run Unit)
  | 0, _ => .done (.ok ())
  | rounds + 1, sent => .read fun msg =>
      answerOrEnd (sent ++ [msg])[choice sent.length]? (reflect choice rounds (sent ++ [msg]))

/-- A dialogue and the peer, which has read the messages `sent` of it and has some rounds to go,
come to an end together, and the result is `Some(out)` for the outputs of `P` only. -/
def Settles {β : Type} (C : Bincode) (choice : ℕ → ℕ) (rounds : ℕ) (sent : List Message)
    (d : Dialogue (Run (Option β))) (P : β → Prop) : Prop :=
  ∃ (x : Run (Option β)) (y : Run Unit),
    Session.Ends (d.process C : Program UInt8 Panic (Option β))
      ((reflect choice rounds sent).process C : Program UInt8 Panic Unit) x y ∧
    ∀ out, x = .ok (some out) ↔ P out

variable {α β : Type} {C : Bincode} {choice : ℕ → ℕ} {rounds : ℕ} {sent : List Message}
  {msg : Message}

theorem Settles.congr {d : Dialogue (Run (Option β))} {P Q : β → Prop}
    (h : Settles C choice rounds sent d P) (hPQ : ∀ out, P out ↔ Q out) :
    Settles C choice rounds sent d Q := by
  obtain ⟨x, y, hends, hP⟩ := h
  exact ⟨x, y, hends, fun out => (hP out).trans (hPQ out)⟩

/-- A party that has ended leaves the peer at the end of the stream. -/
theorem settles_done (x : Run (Option β)) :
    Settles C choice rounds sent (.done x) fun out => x = .ok (some out) := by
  cases rounds with
  | zero => exact ⟨x, .ok (), ⟨[], [], .refl _⟩, fun _ => Iff.rfl⟩
  | succ rounds =>
    exact ⟨x, .error .unwrapErr, ⟨[], [], .right_eof (by decide)⟩, fun _ => Iff.rfl⟩

theorem settles_attempt {x : Run α} {k : α → Dialogue (Run (Option β))} {P : α → β → Prop}
    (h : ∀ a, x = .ok a → Settles C choice rounds sent (k a) (P a)) :
    Settles C choice rounds sent (attempt x k) fun out => ∃ a, x = .ok a ∧ P a out := by
  cases x with
  | error e =>
    refine (settles_done (.error e)).congr fun out => iff_of_false ?_ ?_
    · rintro ⟨⟩
    · rintro ⟨a, ⟨⟩, -⟩
  | ok a =>
    refine (h a rfl).congr fun out => ⟨fun hP => ⟨a, rfl, hP⟩, ?_⟩
    rintro ⟨_, ⟨⟩, hP⟩
    exact hP

theorem settles_orNone {o : Option α} {k : α → Dialogue (Run (Option β))} {P : α → β → Prop}
    (h : ∀ a, o = some a → Settles C choice rounds sent (k a) (P a)) :
    Settles C choice rounds sent (orNone o k) fun out => ∃ a, o = some a ∧ P a out := by
  cases o with
  | none =>
    refine (settles_done (.ok none)).congr fun out => iff_of_false ?_ ?_
    · rintro ⟨⟩
    · rintro ⟨a, ⟨⟩, -⟩
  | some a =>
    refine (h a rfl).congr fun out => ⟨fun hP => ⟨a, rfl, hP⟩, ?_⟩
    rintro ⟨_, ⟨⟩, hP⟩
    exact hP

/-- A message of the round among those written is the last one. -/
theorem getElem?_sent_eq_some {expected : Message → Option α} {a : α} {c : ℕ}
    (hsent : ∀ m ∈ sent, expected m = none) :
    (∃ other, (sent ++ [msg])[c]? = some other ∧ expected other = some a) ↔
      c = sent.length ∧ expected msg = some a := by
  constructor
  · rintro ⟨other, hother, ha⟩
    rcases lt_trichotomy c sent.length with hlt | rfl | hgt
    · rw [List.getElem?_append_left hlt] at hother
      rw [hsent other (List.mem_of_getElem? hother)] at ha
      cases ha
    · rw [List.getElem?_concat_length, Option.some.injEq] at hother
      rw [hother]
      exact ⟨rfl, ha⟩
    · rw [List.getElem?_eq_none (by rw [List.length_append]; exact hgt)] at hother
      cases hother
  · rintro ⟨rfl, ha⟩
    exact ⟨msg, List.getElem?_concat_length, ha⟩

/-- The messages that the peer has read could be read. -/
def Short (sent : List Message) : Prop := ∀ m ∈ sent, m.Encodable ∧ m.size < 2 ^ 32

theorem Short.concat (h : Short sent) (hm : msg.Encodable) (hlt : msg.size < 2 ^ 32) :
    Short (sent ++ [msg]) := by
  intro m hmem
  rcases List.mem_append.mp hmem with hmem | hmem
  · exact h m hmem
  · rw [List.mem_singleton.mp hmem]
    exact ⟨hm, hlt⟩

section Turn

variable {k : Message → Dialogue (Run (Option β))}

/-- A message that is too long ends the peer, and then the party that waits for its answer. -/
theorem settles_of_long (hm : msg.Encodable) (hle : 2 ^ 32 ≤ msg.size) :
    Settles C choice (rounds + 1) sent (.write msg (.read k)) fun _ => False := by
  have hcut := write_read C msg (readMsg C fun other => (k other).process C)
    fun msg => (answerOrEnd (sent ++ [msg])[choice sent.length]?
      (reflect choice rounds (sent ++ [msg]))).process C
  rw [transmit_of_le hm hle] at hcut
  exact ⟨_, _, ⟨_, _, hcut.trans (.left_eof (by decide))⟩, fun out => iff_of_false nofun id⟩

/-- A peer that does not have the message ends, and then the party that waits for it. -/
theorem settles_of_none (hm : msg.Encodable) (hlt : msg.size < 2 ^ 32)
    (h : (sent ++ [msg])[choice sent.length]? = none) :
    Settles C choice (rounds + 1) sent (.write msg (.read k)) fun _ => False := by
  have harrives := write_read_of_lt (C := C) hm hlt (readMsg C fun other => (k other).process C)
    fun msg => (answerOrEnd (sent ++ [msg])[choice sent.length]?
      (reflect choice rounds (sent ++ [msg]))).process C
  rw [h] at harrives
  exact ⟨_, _, ⟨_, _, harrives.trans (.left_eof (by decide))⟩, fun out => iff_of_false nofun id⟩

/-- The party goes on with the message that comes back. -/
theorem settles_of_some {answer : Message} {P : β → Prop} (hshort : Short (sent ++ [msg]))
    (h : (sent ++ [msg])[choice sent.length]? = some answer)
    (hrest : Settles C choice rounds (sent ++ [msg]) (k answer) P) :
    Settles C choice (rounds + 1) sent (.write msg (.read k)) P := by
  obtain ⟨hm, hlt⟩ := hshort msg (List.mem_append_right _ (List.mem_singleton_self msg))
  obtain ⟨hanswer, hlt'⟩ := hshort answer (List.mem_of_getElem? h)
  have harrives := write_read_of_lt (C := C) hm hlt (readMsg C fun other => (k other).process C)
    fun msg => (answerOrEnd (sent ++ [msg])[choice sent.length]?
      (reflect choice rounds (sent ++ [msg]))).process C
  rw [h] at harrives
  have hback := read_write_of_lt (C := C) hanswer hlt' (fun other => (k other).process C)
    ((reflect choice rounds (sent ++ [msg])).process C)
  obtain ⟨x, y, ⟨o, i, hrun⟩, hP⟩ := hrest
  exact ⟨x, y, ⟨o, i, harrives.trans (hback.trans hrun)⟩, hP⟩

end Turn

/-- **One round against the own messages**: the message of this round has to come back. -/
theorem settles_exchange {expected : Message → Option α} {k : α → Dialogue (Run (Option β))}
    {P : β → Prop} (hshort : Short sent) (hsent : ∀ m ∈ sent, expected m = none)
    (hm : msg.Encodable) {a : α} (ha : expected msg = some a)
    (h : msg.size < 2 ^ 32 → Settles C choice rounds (sent ++ [msg]) (k a) P) :
    Settles C choice (rounds + 1) sent (exchange true msg expected k) fun out =>
      choice sent.length = sent.length ∧ msg.size < 2 ^ 32 ∧ P out := by
  have hanswers : ∀ {b : α}, (∃ other, (sent ++ [msg])[choice sent.length]? = some other ∧
      expected other = some b) ↔ choice sent.length = sent.length ∧ expected msg = some b :=
    getElem?_sent_eq_some hsent
  rcases lt_or_ge msg.size (2 ^ 32) with hlt | hle
  · cases hanswer : (sent ++ [msg])[choice sent.length]? with
    | none =>
      refine (settles_of_none hm hlt hanswer).congr fun out => iff_of_false id ?_
      rintro ⟨hi, -⟩
      obtain ⟨other, hother, -⟩ := hanswers.mpr ⟨hi, ha⟩
      rw [hanswer] at hother
      cases hother
    | some answer =>
      have hrest : Settles C choice rounds (sent ++ [msg]) (orNone (expected answer) k)
          fun out => ∃ b, expected answer = some b ∧ P out := by
        refine settles_orNone fun b hb => ?_
        cases ha.symm.trans (hanswers.mp ⟨answer, hanswer, hb⟩).2
        exact h hlt
      refine (settles_of_some (hshort.concat hm hlt) hanswer hrest).congr fun out => ?_
      constructor
      · rintro ⟨b, hb, hout⟩
        exact ⟨(hanswers.mp ⟨answer, hanswer, hb⟩).1, hlt, hout⟩
      · rintro ⟨hi, -, hout⟩
        obtain ⟨other, hother, hb⟩ := hanswers.mpr ⟨hi, ha⟩
        cases hanswer.symm.trans hother
        exact ⟨a, hb, hout⟩
  · refine (settles_of_long hm hle).congr fun out => iff_of_false id ?_
    rintro ⟨-, hlt, -⟩
    exact absurd hlt (not_lt.mpr hle)

end Dialogue

namespace Party

section Reflected

variable {n : ℕ} {O : Oracles} {C : Bincode} {party : Party} {pp : PublicParams EdwardsPoint}
  {coins : RunCoins} {partyCoins : PartyCoins n n} {choice : ℕ → ℕ} {out : List UInt8}

/-- A party that answers its own messages: its own points shuffled, its response to that, and what
it makes of the response. -/
def AnswersItself (O : Oracles) (party : Party) (pp : PublicParams EdwardsPoint)
    (coins : RunCoins) (shuffle : Shuffle) (out : List UInt8) : Prop :=
  ∃ shuffled response, Decompressed shuffle._points shuffled ∧
    party.finalResponse O pp coins party.pk party.ownPoints shuffled party._ownPoints
      shuffle._points party._ownPoints shuffle.proof = .ok (some response) ∧
    party.reveal O party.pk shuffle response = .ok (some out)

/-- A response opens as many points as the party has, or fewer. -/
theorem length_response_le {pk : EdwardsPoint} {points pointsShuffle : List EdwardsPoint}
    {_points _pointsShuffled _pointsOther : List CompressedEdwardsY} {proof : AdaptedShuffleProof}
    {response : Response} (h : party.finalResponse O pp coins pk points pointsShuffle _points
      _pointsShuffled _pointsOther proof = .ok (some response)) :
    response._unblinded.length ≤ party.n ∧ response.ind.length ≤ party.n := by
  obtain ⟨-, rows, ddh, hrows, -, rfl⟩ := finalResponse_eq_some h
  have hlen : rows.length = party.n := by
    rw [← (mapM_eq_ok.mp hrows).length_eq, List.length_range]
  have hkept : (missing _pointsOther rows).length ≤ party.n :=
    (List.length_filter_le _ _).trans_eq hlen
  refine ⟨?_, ?_⟩
  · rw [List.length_map, List.length_map]
    exact hkept
  · rw [List.length_map]
    exact hkept

/-- The own shuffle as a message. -/
theorem size_own_shuffle (hparty : Built party pp partyCoins) {shuffle : Shuffle}
    (h : party.blindShuffle O pp party.ownPoints party._ownPoints = .ok shuffle) :
    (n < 2 ^ 64 → (Message.round3 shuffle.proof shuffle._points).Encodable) ∧
      (Message.round3 shuffle.proof shuffle._points).size = 452 + 128 * n := by
  have hlength : party.ownPoints.length = party._ownPoints.length := (List.length_map _).symm
  have hlen := (blindShuffle_returns_iff hparty O hlength).mp ⟨shuffle, h⟩
  obtain ⟨own, hown⟩ := exists_ofFn (hlength.trans hlen)
  obtain ⟨proof, hshuffle, hx, hf, hfDelta, -⟩ := exists_blindShuffle_verified hparty O
    (own_mem hparty hown)
  rw [← hown] at hshuffle
  cases h.symm.trans hshuffle
  have hpoints : ((shuffled party.sk partyCoins.π own).map compress).length = n := by
    rw [List.length_map, shuffled, List.length_ofFn]
  refine ⟨fun hn => ?_, ?_⟩
  · rw [Message.Encodable, hx, hf, hfDelta, hpoints]
    exact ⟨hn, hn, hn, hn⟩
  · rw [Message.size, hx, hf, hfDelta, hpoints]
    omega

/-- The first two messages. -/
def committed (O : Oracles) (party : Party) : List Message :=
  [.round1 (hashSigma O party.pk party._ownPoints), .round2 party.pk party._ownPoints]

/-- Round 4 against the own messages. -/
theorem settles_round4 (hn : 452 + 128 * n < 2 ^ 32) {sent : List Message}
    (hshort : Dialogue.Short sent) (hnone : ∀ m ∈ sent, m.round4? = none) {response : Response}
    (hlen : response._unblinded.length ≤ n ∧ response.ind.length ≤ n)
    (output : Response → Run (Option (List UInt8))) :
    Dialogue.Settles C choice 1 sent
      (.exchange true (.round4 response.proof response._unblinded response.ind) Message.round4?
        fun right4 => .done (output right4)) fun out =>
      choice sent.length = sent.length ∧ output response = .ok (some out) := by
  have hread : (Message.round4 response.proof response._unblinded response.ind).round4? =
      some response := rfl
  have hsize : (Message.round4 response.proof response._unblinded response.ind).Encodable ∧
      (Message.round4 response.proof response._unblinded response.ind).size < 2 ^ 32 := by
    rw [Message.Encodable, Message.size]
    omega
  refine (Dialogue.settles_exchange hshort hnone hsize.1 hread fun _ =>
    Dialogue.settles_done _).congr fun out => ?_
  constructor
  · rintro ⟨hi, -, hout⟩
    exact ⟨hi, hout⟩
  · rintro ⟨hi, hout⟩
    exact ⟨hi, hsize.2, hout⟩

/-- Rounds 3 and 4 against the own messages. -/
theorem settles_fromRound3 (hparty : Built party pp partyCoins) (hserver : party.server = true)
    (hn : 452 + 128 * n < 2 ^ 32) (hshort : Dialogue.Short (committed O party)) {shuffle : Shuffle}
    (hshuffle : party.blindShuffle O pp party.ownPoints party._ownPoints = .ok shuffle) :
    Dialogue.Settles C choice 2 (committed O party)
      (fromRound3 O party pp coins (party.pk, party._ownPoints) shuffle) fun out =>
      choice 2 = 2 ∧ choice 3 = 3 ∧ AnswersItself O party pp coins shuffle out := by
  have hnone : ∀ m ∈ committed O party, m.round3? = none ∧ m.round4? = none := by
    intro m hm
    rcases List.mem_pair.mp hm with rfl | rfl
    · exact ⟨rfl, rfl⟩
    · exact ⟨rfl, rfl⟩
  have hnone₄ : ∀ m ∈ committed O party ++ [.round3 shuffle.proof shuffle._points],
      m.round4? = none := by
    intro m hm
    rcases List.mem_append.mp hm with hm | hm
    · exact (hnone m hm).2
    · rw [List.mem_singleton.mp hm]
      rfl
  obtain ⟨hencodable, hsize⟩ := size_own_shuffle hparty hshuffle
  have hm := hencodable (by omega)
  have hlt := hsize.trans_lt hn
  have hrest : Dialogue.Settles C choice 1
      (committed O party ++ [.round3 shuffle.proof shuffle._points])
      (.attempt (shuffle._points.mapM fun _p => unwrap (decompress _p)) fun shuffled =>
        .attempt (party.finalResponse O pp coins party.pk party.ownPoints shuffled
          party._ownPoints shuffle._points party._ownPoints shuffle.proof) fun response =>
        .orNone response fun response =>
        .exchange true (.round4 response.proof response._unblinded response.ind) Message.round4?
          fun right4 => .done (party.reveal O party.pk shuffle right4)) fun out =>
      ∃ shuffled, (shuffle._points.mapM fun _p => unwrap (decompress _p)) = .ok shuffled ∧
        ∃ response, party.finalResponse O pp coins party.pk party.ownPoints shuffled
          party._ownPoints shuffle._points party._ownPoints shuffle.proof = .ok response ∧
        ∃ own, response = some own ∧ choice 3 = 3 ∧
          party.reveal O party.pk shuffle own = .ok (some out) := by
    refine Dialogue.settles_attempt fun shuffled _ =>
      Dialogue.settles_attempt fun response hresponse =>
      Dialogue.settles_orNone fun own hown => ?_
    rw [hown] at hresponse
    exact settles_round4 hn (hshort.concat hm hlt) hnone₄
      (hparty.n_eq ▸ length_response_le hresponse) _
  rw [fromRound3, hserver]
  refine (Dialogue.settles_exchange hshort (fun m hm => (hnone m hm).1) hm rfl
    fun _ => hrest).congr fun out => ?_
  constructor
  · rintro ⟨hi, -, shuffled, hshuffled, _, hresponse, response, rfl, hi', hreveal⟩
    exact ⟨hi, hi', shuffled, response, mapM_decompress.mp hshuffled, hresponse, hreveal⟩
  · rintro ⟨hi, hi', shuffled, response, hshuffled, hresponse, hreveal⟩
    exact ⟨hi, hlt, shuffled, mapM_decompress.mpr hshuffled, _, hresponse, response, rfl, hi',
      hreveal⟩

/-- Rounds 2 to 4 against the own messages. -/
theorem settles_fromRound2 (hparty : Built party pp partyCoins) (hserver : party.server = true)
    (hn : 452 + 128 * n < 2 ^ 32) (hlen : party._ownPoints.length < 2 ^ 64) :
    Dialogue.Settles C choice 3 [.round1 (hashSigma O party.pk party._ownPoints)]
      (fromRound2 O party pp coins (hashSigma O party.pk party._ownPoints)) fun out =>
      choice 1 = 1 ∧ (Message.round2 party.pk party._ownPoints).size < 2 ^ 32 ∧ ∃ shuffle,
        party.blindShuffle O pp party.ownPoints party._ownPoints = .ok shuffle ∧
        choice 2 = 2 ∧ choice 3 = 3 ∧ AnswersItself O party pp coins shuffle out := by
  have hnone : ∀ m ∈ [Message.round1 (hashSigma O party.pk party._ownPoints)],
      m.round2? = none := by
    intro m hm
    rw [List.mem_singleton.mp hm]
    rfl
  have hshort : Dialogue.Short [Message.round1 (hashSigma O party.pk party._ownPoints)] := by
    intro m hm
    rw [List.mem_singleton.mp hm]
    exact ⟨trivial, show 36 < 2 ^ 32 by decide⟩
  have hm : (Message.round2 party.pk party._ownPoints).Encodable := hlen
  have hverify := verifySigma_hashSigma O party.pk party.decompressed_ownPoints
  rw [fromRound2, hserver]
  refine Dialogue.settles_exchange hshort hnone hm rfl fun hlt => ?_
  dsimp only
  rw [Dialogue.attempt_of_ok hverify]
  dsimp only
  rw [Bool.not_true, if_neg Bool.false_ne_true]
  exact Dialogue.settles_attempt fun shuffle hshuffle =>
    settles_fromRound3 hparty hserver hn (hshort.concat hm hlt) hshuffle

variable (O C coins choice) in
/-- **All rounds against the own messages.** -/
theorem settles_protocol (hparty : Built party pp partyCoins) (hserver : party.server = true)
    (hn : 452 + 128 * n < 2 ^ 32) (hlen : party._ownPoints.length < 2 ^ 64) :
    Dialogue.Settles C choice 4 [] (party.protocol O pp coins) fun out =>
      (∀ i < 4, choice i = i) ∧ ∃ shuffle,
        party.blindShuffle O pp party.ownPoints party._ownPoints = .ok shuffle ∧
        AnswersItself O party pp coins shuffle out := by
  have hm : (Message.round1 (hashSigma O party.pk party._ownPoints)).Encodable := trivial
  have hshort : Dialogue.Short [] := fun m hm => absurd hm List.not_mem_nil
  rw [protocol_eq_exchange, hserver]
  refine (Dialogue.settles_exchange hshort (fun m hm => absurd hm List.not_mem_nil) hm rfl fun _ =>
    settles_fromRound2 hparty hserver hn hlen).congr fun out => ?_
  constructor
  · rintro ⟨h₀, -, h₁, -, shuffle, hshuffle, h₂, h₃, hanswers⟩
    refine ⟨fun i hi => ?_, shuffle, hshuffle, hanswers⟩
    rcases (by omega : i = 0 ∨ i = 1 ∨ i = 2 ∨ i = 3) with rfl | rfl | rfl | rfl
    · exact h₀
    · exact h₁
    · exact h₂
    · exact h₃
  · rintro ⟨hchoice, shuffle, hshuffle, hanswers⟩
    have hlength : party.ownPoints.length = party._ownPoints.length := (List.length_map _).symm
    have hown := (blindShuffle_returns_iff hparty O hlength).mp ⟨shuffle, hshuffle⟩
    exact ⟨hchoice 0 (by omega), show 36 < 2 ^ 32 by decide, hchoice 1 (by omega),
      show 44 + 32 * party._ownPoints.length < 2 ^ 32 by omega, shuffle, hshuffle,
      hchoice 2 (by omega), hchoice 3 (by omega), hanswers⟩

/-- Nothing is opened of points that a party has shuffled itself. -/
theorem keptIndices_own (hparty : Built party pp partyCoins) {own : Fin n → EdwardsPoint}
    (hown : party.ownPoints = List.ofFn own) :
    party.keptIndices (fun i => mulScalar (own (partyCoins.π⁻¹ i)) party.sk) party._ownPoints =
      [] := by
  have hmem := own_mem hparty hown
  refine List.filter_eq_nil_iff.mpr fun i _ => ?_
  have hin : compress (own (partyCoins.π⁻¹ i)) ∈ party._ownPoints :=
    List.mem_map_of_mem (hown ▸ List.mem_ofFn.mpr ⟨_, rfl⟩)
  rw [mulScalar_mulScalar (hmem _), hparty.sk_mul_skInv, mulScalar_one (hmem _),
    List.contains_iff_mem.mpr hin]
  exact Bool.false_ne_true

/-- The response to the own shuffle opens no point, and no item is revealed by it. -/
theorem exists_response_own (hparty : Built party pp partyCoins) {own : Fin n → EdwardsPoint}
    (hown : party.ownPoints = List.ofFn own) {proof : AdaptedShuffleProof}
    (haccept : verifyShuffleAdapted O pp party.pk party.ownPoints
      (shuffled party.sk partyCoins.π own) party._ownPoints
      ((shuffled party.sk partyCoins.π own).map compress) proof coins.alpha1 coins.alpha2 =
        .ok true) :
    ∃ response, party.finalResponse O pp coins party.pk party.ownPoints
        (shuffled party.sk partyCoins.π own) party._ownPoints
        ((shuffled party.sk partyCoins.π own).map compress) party._ownPoints proof =
          .ok (some response) ∧
      ∀ prf, party.reveal O party.pk
        { proof := prf, points := shuffled party.sk partyCoins.π own
          _points := (shuffled party.sk partyCoins.π own).map compress } response =
        .ok (some []) := by
  have hkept : List.ofFn (Fin.elim0 : Fin 0 → Fin n) = party.keptIndices
      (fun i => mulScalar (own (partyCoins.π⁻¹ i)) party.sk) party._ownPoints := by
    rw [keptIndices_own hparty hown, List.ofFn_zero]
  have hind : ∀ i : Fin 0, ((Fin.elim0 i : Fin n) : ℕ) < 2 ^ 32 := fun i => i.elim0
  have hmem : ∀ i : Fin 0, (Fin.elim0 i : EdwardsPoint) ∈ primeSubgroup EdwardsPoint :=
    fun i => i.elim0
  obtain ⟨ddh, hddh, hreveal⟩ := exists_reveal O party hind party.sk coins.r hmem
    (h := fun i => mulScalar (own (partyCoins.π⁻¹ i)) party.sk) fun i => i.elim0
  rw [← hparty.pk] at hddh hreveal
  exact ⟨_, finalResponse_eq_opening hparty.n_eq party._ownPoints haccept hkept
    (fun i => i.elim0) hddh, hreveal⟩

/-- **A party accepts its own shuffle**, and reveals nothing. -/
theorem exists_answersItself_iff (hparty : Built party pp partyCoins) :
    (∃ shuffle, party.blindShuffle O pp party.ownPoints party._ownPoints = .ok shuffle ∧
        AnswersItself O party pp coins shuffle out) ↔
      party._ownPoints.length = n ∧ (n = 1 → ∀ i, partyCoins.hint.hint2.d i = 0) ∧ out = [] := by
  have hlength : party.ownPoints.length = party._ownPoints.length := (List.length_map _).symm
  constructor
  · rintro ⟨shuffle, hshuffle, ⟨points, response, hpoints, hresponse, hreveal⟩⟩
    have hlen := (blindShuffle_returns_iff hparty O hlength).mp ⟨shuffle, hshuffle⟩
    obtain ⟨own, hown⟩ := exists_ofFn (hlength.trans hlen)
    obtain ⟨proof, hshuffle', -, -, -, hverify⟩ := exists_blindShuffle_verified hparty O
      (own_mem hparty hown)
    rw [← hown] at hshuffle' hverify
    cases hshuffle.symm.trans hshuffle'
    have hpoints' := decompressed_map_compress (shuffled party.sk partyCoins.π own)
    cases (mapM_decompress.mpr hpoints).symm.trans (mapM_decompress.mpr hpoints')
    have haccept := (finalResponse_eq_some hresponse).1
    obtain ⟨response', hresponse', hreveal'⟩ := exists_response_own hparty hown haccept
    cases hresponse.symm.trans hresponse'
    cases hreveal.symm.trans (hreveal' proof)
    exact ⟨hlen, (hverify _ _).mp haccept, rfl⟩
  · rintro ⟨hlen, hhint, rfl⟩
    obtain ⟨own, hown⟩ := exists_ofFn (hlength.trans hlen)
    obtain ⟨proof, hshuffle, -, -, -, hverify⟩ := exists_blindShuffle_verified hparty O
      (own_mem hparty hown)
    rw [← hown] at hshuffle hverify
    obtain ⟨response, hresponse, hreveal⟩ := exists_response_own hparty hown
      ((hverify coins.alpha1 coins.alpha2).mpr hhint)
    exact ⟨_, hshuffle, ⟨_, response, decompressed_map_compress _, hresponse, hreveal proof⟩⟩

end Reflected

/-- **When a reflected run is accepted**: the message of each round comes back in this round, and
the party is one that can answer its own messages.  It then reveals nothing. -/
theorem protocol_reflected_iff {input : List UInt8} {aes : Block → Block → Block} {aesKey : Block}
    {pp : PublicParams EdwardsPoint} {n nOther : ℕ} {partyCoins : PartyCoins n nOther}
    {party : Party} (hnew : Party.new true input aes aesKey pp n nOther partyCoins = .ok party)
    (hn : n ≤ 33554428) (hinput : input.length < 2 ^ 64) (O : Oracles) (C : Bincode)
    (coins : RunCoins) (choice : ℕ → ℕ) :
    ∃ result, (Session.init ((party.protocol O pp coins).process C)
        ((Dialogue.reflect choice 4 []).process C)).EveryRun (fun x _ => x = result) ∧
      ∀ out, result = .ok (some out) ↔
        (∀ i < 4, choice i = i) ∧ out = [] ∧ (chunksExact input).length = n ∧
          (n = 1 → ∀ i, partyCoins.hint.hint2.d i = 0) := by
  obtain ⟨hlen, hlenOther, -⟩ := length_of_new hnew
  obtain rfl : n = nOther := hlen.trans hlenOther.symm
  obtain ⟨hparty, hserver, hpartyInput, -⟩ := built_of_new hnew
  have hchunks := length_ownEncodings party
  rw [hpartyInput] at hchunks
  have hshort : party._ownPoints.length < 2 ^ 64 :=
    (hchunks.trans_le (length_chunksExact_le input)).trans_lt hinput
  have hsettles := (settles_protocol O C coins choice hparty hserver (by omega) hshort).congr
    fun out => and_congr_right fun _ => exists_answersItself_iff hparty
  obtain ⟨x, y, hends, hx⟩ := hsettles
  refine ⟨x, hends.everyRun rfl, fun out => (hx out).trans ?_⟩
  rw [hchunks]
  constructor
  · rintro ⟨hchoice, hlen, hhint, hout⟩
    exact ⟨hchoice, hout, hlen, hhint⟩
  · rintro ⟨hchoice, hout, hlen, hhint⟩
    exact ⟨hchoice, hlen, hhint, hout⟩

/-- The party of the items 3 and 4, against a peer that sends the first message back every time. -/
theorem protocol_reflected_iff_two : ∃ party,
    Party.new true (flatten [3, 4]) (fun _ b => b) 0 twoParams 2 2 zeroCoins = .ok party ∧
      ∃ result, (Session.init
          ((party.protocol Oracles.reading twoParams ⟨0, 0, 0⟩).process bincode)
          ((Dialogue.reflect (fun _ => 0) 4 []).process bincode)).EveryRun
          (fun x _ => x = result) ∧
        ∀ out, result = .ok (some out) ↔
          (∀ i < 4, 0 = i) ∧ out = [] ∧ (chunksExact (flatten [3, 4])).length = 2 ∧
            (2 = 1 → ∀ i, zeroCoins.hint.hint2.d i = 0) := by
  obtain ⟨party, hnew⟩ := exists_twoParty true
  have hinput : (flatten [3, 4]).length < 2 ^ 64 := by
    rw [length_flatten]
    decide
  exact ⟨party, hnew, protocol_reflected_iff hnew (by decide) hinput Oracles.reading bincode
    ⟨0, 0, 0⟩ (fun _ => 0)⟩

/-- **The own messages, sent back round by round**, are accepted. -/
theorem protocol_accepts_reflected : ∃ party,
    Party.new true (flatten [3, 4]) (fun _ b => b) 0 twoParams 2 2 zeroCoins = .ok party ∧
      (Session.init ((party.protocol Oracles.reading twoParams ⟨0, 0, 0⟩).process bincode)
        ((Dialogue.reflect id 4 []).process bincode)).EveryRun fun x _ => x = .ok (some []) := by
  obtain ⟨party, hnew⟩ := exists_twoParty true
  obtain ⟨hparty, hserver, hinput, -⟩ := built_of_new hnew
  have hlen : party._ownPoints.length = 2 := by
    rw [length_ownEncodings, hinput, chunksExact_flatten]
    rfl
  obtain ⟨x, y, hends, hx⟩ := settles_protocol Oracles.reading bincode ⟨0, 0, 0⟩ id hparty hserver
    (by decide) (by omega)
  refine ⟨party, hnew, hends.everyRun ((hx []).mpr ⟨fun _ _ => rfl, ?_⟩)⟩
  exact (exists_answersItself_iff hparty).mpr ⟨hlen, fun h => by omega, rfl⟩

end Party

end MaliciousPsu
