import MaliciousPsu.Channel
import MaliciousPsu.TwoSided.Party

/-!
# The two-sided protocol

`protocol` in `twosided.rs`, as a dialogue of four rounds: the server writes its message of a round
before it reads the other's, the client after, and a message of another round ends the protocol.

* `Dialogue.run`: what a party returns, for the messages that it reads.
* `exists_transcript`: what a run that returned `Some` has gone through.
* `returns_protocol`: what it takes for a run not to panic, call by call.
-/

namespace MaliciousPsu

variable {α β : Type}

/-! ### Dialogues of rounds -/

namespace Dialogue

/-- A call in the middle of a dialogue: a panic ends it. -/
def attempt (x : Run α) (k : α → Dialogue (Run β)) : Dialogue (Run β) :=
  match x with
  | .ok a => k a
  | .error e => .done (.error e)

/-- `match o { Some(a) => .., _ => return None }`. -/
def orNone (o : Option α) (k : α → Dialogue (Run (Option β))) : Dialogue (Run (Option β)) :=
  match o with
  | some a => k a
  | none => .done (.ok none)

/-- One round: a message of another round ends the dialogue with `None`. -/
def exchange (server : Bool) (msg : Message) (expected : Message → Option α)
    (k : α → Dialogue (Run (Option β))) : Dialogue (Run (Option β)) :=
  if server then .write msg (.read fun other => orNone (expected other) k)
  else .read fun other => orNone (expected other) fun a => .write msg (k a)

/-- The result on a stream of messages. -/
def run : Dialogue β → (ℕ → Message) → β
  | done b, _ => b
  | write _ k, ms => k.run ms
  | read k, ms => (k (ms 0)).run fun i => ms (i + 1)

/-! #### Results on a stream -/

section Run

variable {server : Bool} {msg : Message} {expected : Message → Option α}
  {ms : ℕ → Message} {out : β}

theorem run_attempt {γ : Type} (x : Run α) (k : α → Dialogue (Run γ)) (ms : ℕ → Message) :
    (attempt x k).run ms = x >>= fun a => (k a).run ms := by
  cases x with
  | ok a => rfl
  | error e => rfl

/-- In a round a party waits for the message of the other, whichever writes first. -/
theorem run_exchange (k : α → Dialogue (Run (Option β))) :
    (exchange server msg expected k).run ms =
      (orNone (expected (ms 0)) k).run fun i => ms (i + 1) := by
  cases server with
  | true => rfl
  | false =>
    simp only [exchange, Bool.false_eq_true, if_false, run]
    cases expected (ms 0) with
    | none => rfl
    | some a => rfl

/-- A round in which the expected message comes. -/
theorem run_exchange_of_eq {k : α → Dialogue (Run (Option β))} {a : α}
    (h : expected (ms 0) = some a) :
    (exchange server msg expected k).run ms = (k a).run fun i => ms (i + 1) := by
  rw [run_exchange, h]
  rfl

theorem returns_orNone {o : Option α} {k : α → Dialogue (Run (Option β))} :
    Returns ((orNone o k).run ms) ↔ ∀ a, o = some a → Returns ((k a).run ms) := by
  cases o with
  | none => exact ⟨fun _ => nofun, fun _ => returns_ok none⟩
  | some a =>
    constructor
    · rintro h _ ⟨⟩
      exact h
    · exact fun h => h a rfl

theorem orNone_eq_some {o : Option α} {k : α → Dialogue (Run (Option β))} :
    (orNone o k).run ms = .ok (some out) ↔ ∃ a, o = some a ∧ (k a).run ms = .ok (some out) := by
  cases o with
  | none =>
    constructor
    · intro h
      cases h
    · rintro ⟨a, h, -⟩
      cases h
  | some a =>
    constructor
    · exact fun h => ⟨a, rfl, h⟩
    · rintro ⟨_, ⟨⟩, h⟩
      exact h

end Run

end Dialogue

/-! ### The messages of the rounds -/

namespace Message

variable {m : Message}

/-- The content of a `Round1`. -/
def round1? : Message → Option Bytes32
  | round1 sigma => some sigma
  | _ => none

/-- The content of a `Round2`. -/
def round2? : Message → Option (EdwardsPoint × List CompressedEdwardsY)
  | round2 pk points => some (pk, points)
  | _ => none

/-- The content of a `Round3`. -/
def round3? : Message → Option (AdaptedShuffleProof × List CompressedEdwardsY)
  | round3 proof points => some (proof, points)
  | _ => none

/-- The content of a `Round4`. -/
def round4? : Message → Option Party.Response
  | round4 proof unblinded ind => some ⟨unblinded, ind, proof⟩
  | _ => none

theorem round1?_eq_some {sigma : Bytes32} : m.round1? = some sigma ↔ m = round1 sigma := by
  cases m with
  | round1 s => rw [round1?, Option.some.injEq, round1.injEq]
  | _ => exact ⟨nofun, nofun⟩

theorem round2?_eq_some {right : EdwardsPoint × List CompressedEdwardsY} :
    m.round2? = some right ↔ m = round2 right.1 right.2 := by
  cases m with
  | round2 pk points => rw [round2?, Option.some.injEq, round2.injEq, Prod.ext_iff]
  | _ => exact ⟨nofun, nofun⟩

theorem round3?_eq_some {right : AdaptedShuffleProof × List CompressedEdwardsY} :
    m.round3? = some right ↔ m = round3 right.1 right.2 := by
  cases m with
  | round3 proof points => rw [round3?, Option.some.injEq, round3.injEq, Prod.ext_iff]
  | _ => exact ⟨nofun, nofun⟩

theorem round4?_eq_some {right : Party.Response} :
    m.round4? = some right ↔ m = round4 right.proof right._unblinded right.ind := by
  cases m with
  | round4 proof unblinded ind =>
    obtain ⟨_unblinded, ind', proof'⟩ := right
    rw [round4?, Option.some.injEq, round4.injEq, Party.Response.mk.injEq]
    constructor
    · rintro ⟨rfl, rfl, rfl⟩
      exact ⟨rfl, rfl, rfl⟩
    · rintro ⟨rfl, rfl, rfl⟩
      exact ⟨rfl, rfl, rfl⟩
  | _ => exact ⟨nofun, nofun⟩

end Message

/-! ### The protocol -/

namespace Party

/-- The loop over the indices of round 4: `right_unblinded`, `shrinked` and `_shrinked`. -/
def shrink (rightShuffled : List EdwardsPoint) (_rightShuffled : List CompressedEdwardsY)
    (right : Response) : Run (List (EdwardsPoint × EdwardsPoint × CompressedEdwardsY)) :=
  (List.range right.ind.length).mapM fun i => do
    let j := (← idx right.ind i).toNat
    let unblinded ← unwrap (decompress (← idx right._unblinded i))
    return (unblinded, ← idx rightShuffled j, ← idx _rightShuffled j)

/-- `protocol` after round 4. -/
def reveal (O : Oracles) (party : Party) (rightPk : EdwardsPoint) (shuffle : Shuffle)
    (right : Response) : Run (Option (List UInt8)) := do
  let rows ← shrink shuffle.points shuffle._points right
  let output ← unwrap (← revealItems O party rightPk (rows.map fun row => row.1) right._unblinded
    (rows.map fun row => row.2.1) (rows.map fun row => row.2.2) right.proof)
  return some output

/-- `protocol`. -/
def protocol (O : Oracles) (party : Party) (pp : PublicParams EdwardsPoint) (coins : RunCoins) :
    Dialogue (Run (Option (List UInt8))) :=
  .attempt (party.gen O) fun own =>
  -- Round 1
  .exchange party.server (.round1 own.sigma) Message.round1? fun rightSigma =>
  -- Round 2
  .exchange party.server (.round2 party.pk own._points) Message.round2? fun right =>
  .attempt (verifySigma O rightSigma right.1 right.2) fun checked =>
  if !checked.1 then .done (.ok none) else
  .attempt (party.blindShuffle O pp checked.2 right.2) fun shuffle =>
  -- Round 3
  .exchange party.server (.round3 shuffle.proof shuffle._points) Message.round3? fun right3 =>
  .attempt (right3.2.mapM fun _p => unwrap (decompress _p)) fun shuffled =>
  .attempt (party.finalResponse O pp coins right.1 own.points shuffled own._points right3.2 right.2
    right3.1) fun response =>
  .orNone response fun response =>
  -- Round 4
  .exchange party.server (.round4 response.proof response._unblinded response.ind)
    Message.round4? fun right4 =>
  .done (party.reveal O right.1 shuffle right4)

/-! ### What a run has gone through -/

/-- What a party has read and computed by the end of a run. -/
structure Transcript where
  rightPk : EdwardsPoint
  _rightPoints : List CompressedEdwardsY
  rightPoints : List EdwardsPoint
  shuffle : Shuffle
  rightProof : AdaptedShuffleProof
  _shuffled : List CompressedEdwardsY
  shuffled : List EdwardsPoint
  response : Response
  right4 : Response

section Spec

variable {O : Oracles} {party : Party} {pp : PublicParams EdwardsPoint} {coins : RunCoins}
  {ms : ℕ → Message} {out : List UInt8}

/-- The transcript of a run on the messages `ms` that returned `Some(out)`: a message of each
round, `sigma` checked, a response of its own, and the items of the other revealed. -/
structure Transcript.Completes (t : Transcript) (O : Oracles) (party : Party)
    (pp : PublicParams EdwardsPoint) (coins : RunCoins) (ms : ℕ → Message) (out : List UInt8) :
    Prop where
  round1 : ms 0 = .round1 (hashSigma O t.rightPk t._rightPoints)
  round2 : ms 1 = .round2 t.rightPk t._rightPoints
  round3 : ms 2 = .round3 t.rightProof t._shuffled
  round4 : ms 3 = .round4 t.right4.proof t.right4._unblinded t.right4.ind
  rightPoints : Decompressed t._rightPoints t.rightPoints
  shuffle : party.blindShuffle O pp t.rightPoints t._rightPoints = .ok t.shuffle
  shuffled : Decompressed t._shuffled t.shuffled
  response : party.finalResponse O pp coins t.rightPk party.ownPoints t.shuffled party._ownPoints
    t._shuffled t._rightPoints t.rightProof = .ok (some t.response)
  reveal : party.reveal O t.rightPk t.shuffle t.right4 = .ok (some out)

/-- A check that ends the dialogue with `None` when it fails. -/
theorem run_ite_none (b : Bool) (k : Dialogue (Run (Option β))) :
    (if !b then Dialogue.done (.ok none) else k).run ms =
      if !b then .ok none else k.run ms := by
  cases b with
  | true => rfl
  | false => rfl

theorem run_ite_true {b : Bool} (hb : b = true) (k : Dialogue (Run (Option β))) :
    (if !b then Dialogue.done (.ok none) else k).run ms = k.run ms := by
  rw [hb]
  rfl

theorem returns_ite_none {γ : Type} {b : Bool} {x : Run (Option γ)} :
    Returns (if !b then .ok none else x) ↔ (b = true → Returns x) := by
  cases b with
  | true => exact ⟨fun h _ => h, fun h => h rfl⟩
  | false => exact ⟨fun _ => nofun, fun _ => returns_ok none⟩

/-- **A run that returned `Some`** has a transcript. -/
theorem exists_transcript (h : (party.protocol O pp coins).run ms = .ok (some out)) :
    ∃ t : Transcript, t.Completes O party pp coins ms out := by
  simp only [protocol, Dialogue.run_attempt, gen_eq, ok_bind, Dialogue.run_exchange,
    Dialogue.orNone_eq_some, Message.round1?_eq_some, Message.round2?_eq_some, bind_eq_ok,
    verifySigma_eq_ok, run_ite_none] at h
  obtain ⟨rightSigma, h₁, right, h₂, checked, ⟨hpoints, hsigma⟩, h⟩ := h
  cases hvalid : checked.1 with
  | false =>
    rw [hvalid] at h
    cases h
  | true =>
    have hsigma : hashSigma O right.1 right.2 = rightSigma :=
      eq_of_beq (hsigma.symm.trans hvalid)
    simp only [hvalid, Bool.not_true, Bool.false_eq_true, if_false, bind_eq_ok,
      Dialogue.orNone_eq_some, Message.round3?_eq_some, Dialogue.run_attempt, mapM_decompress,
      Dialogue.run_exchange, Message.round4?_eq_some] at h
    obtain ⟨shuffle, hshuffle, right3, h₃, shuffled, hshuffled, response, hresponse, response',
      heq, right4, h₄, hreveal⟩ := h
    cases heq
    exact ⟨⟨right.1, right.2, checked.2, shuffle, right3.1, right3.2, shuffled, response', right4⟩,
      hsigma ▸ h₁, h₂, h₃, h₄, hpoints, hshuffle, hshuffled, hresponse, hreveal⟩

/-- The rounds of a run that does not panic. -/
theorem returns_protocol : Returns ((party.protocol O pp coins).run ms) ↔
    ∀ sigma, ms 0 = .round1 sigma → ∀ right : EdwardsPoint × List CompressedEdwardsY,
      ms 1 = .round2 right.1 right.2 → ∃ points, Decompressed right.2 points ∧
        (hashSigma O right.1 right.2 = sigma → ∃ shuffle,
          party.blindShuffle O pp points right.2 = .ok shuffle ∧
          ∀ right3 : AdaptedShuffleProof × List CompressedEdwardsY,
            ms 2 = .round3 right3.1 right3.2 → ∃ shuffled, Decompressed right3.2 shuffled ∧
              ∃ response, party.finalResponse O pp coins right.1 party.ownPoints shuffled
                party._ownPoints right3.2 right.2 right3.1 = .ok response ∧
              ∀ own, response = some own → ∀ right4 : Response,
                ms 3 = .round4 right4.proof right4._unblinded right4.ind →
                Returns (party.reveal O right.1 shuffle right4)) := by
  simp only [protocol, Dialogue.run_attempt, gen_eq, ok_bind, Dialogue.run_exchange,
    Dialogue.returns_orNone, Message.round1?_eq_some, Message.round2?_eq_some,
    Message.round3?_eq_some, Message.round4?_eq_some, returns_bind, verifySigma_eq_ok,
    run_ite_none, returns_ite_none, mapM_decompress, Dialogue.run]
  refine forall₂_congr fun sigma _ => forall₂_congr fun right _ => ?_
  constructor
  · rintro ⟨⟨valid, points⟩, ⟨hpoints, rfl⟩, h⟩
    exact ⟨points, hpoints, fun hsigma => h (beq_iff_eq.mpr hsigma)⟩
  · rintro ⟨points, hpoints, h⟩
    exact ⟨⟨_, points⟩, ⟨hpoints, rfl⟩, fun hsigma => h (eq_of_beq hsigma)⟩

end Spec

end Party

end MaliciousPsu
