import MaliciousPsu.Bincode
import MaliciousPsu.OneSided.SenderProof
import MaliciousPsu.Ot.Runs

/-!
# The one-sided protocols on a stream

The two threads of `semi_honest_psu1` and of `sender_malicious_psu1`, message by message and with
the oblivious transfers that they call, against each other in any order of steps.

* `exchange_msg`, `ends_of_long`: a message shorter than `2^32` bytes arrives, a longer one ends
  both threads.
* `semiHonestPsu1_exact_iff`: every run of two honest parties ends with the exact indicator, by
  abscissas and by encodings, exactly when both sets have fewer than `2^27` items.
* `senderMaliciousPsu1_proved`: every run of the second protocol that does not end in a panic before
  has all its items proved.
-/

namespace MaliciousPsu

open Session

/-! ### Messages in a program -/

section Messages

variable {α β : Type} (C : Bincode)

/-- `write_msg(..).unwrap()`. -/
def sendMsg (msg : Message) : Program UInt8 Panic Unit := do
  let payload := C.serialize msg
  .write (leBytes 4 payload.length)
  .write payload

/-- `read_msg(..).unwrap()`. -/
def recvMsg : Program UInt8 Panic Message := do
  let len ← .read 4 .unwrapErr
  let buf ← .read (leNat len) .unwrapErr
  .lift (decodeMsg C buf)

/-- The bytes of a party that goes on with the message it has read. -/
theorem readMsg_eq (k : Message → Process UInt8 (Run α)) :
    readMsg C k = Process.bind (recvMsg C) (resume k) := by
  refine congrArg (Process.read 4) (funext fun len => ?_)
  cases len with
  | none => rfl
  | some len =>
    refine congrArg (Process.read (leNat len)) (funext fun buf => ?_)
    cases buf with
    | none => rfl
    | some buf => rfl

theorem resume_eq (k : Message → Program UInt8 Panic α) : resume k = ExceptT.bindCont k := by
  funext msg
  cases msg with
  | error e => rfl
  | ok msg => rfl

variable {C} {msg : Message}

/-- **A message shorter than `2^32` bytes arrives.** -/
theorem exchange_msg (hm : msg.Encodable) (h : msg.size < 2 ^ 32) :
    Exchange (sendMsg C msg) (recvMsg C) (.ok ()) (.ok msg) := by
  have hlen : leNat (leBytes 4 (C.serialize msg).length) = (C.serialize msg).length := by
    rw [leNat_header, Nat.mod_eq_of_lt h, C.length_serialize]
  have hdecode : decodeMsg C (C.serialize msg) = .ok msg := by
    rw [decodeMsg, C.deserialize_serialize hm]
  have hpayload : Exchange (Program.write (C.serialize msg) : Program UInt8 Panic Unit)
      (Program.read (leNat (leBytes 4 (C.serialize msg).length)) .unwrapErr >>= fun buf =>
        Program.lift (decodeMsg C buf)) (.ok ()) (.ok msg) := by
    rw [← bind_pure (Program.write (C.serialize msg) : Program UInt8 Panic Unit), hlen]
    refine .bind (.write_read rfl _) ?_
    rw [hdecode]
    exact .pure () msg
  exact .bind (.write_read (length_leBytes 4 _) _) hpayload

/-- **A longer message** makes its reader panic, and then its writer, which waits for an answer. -/
theorem ends_of_long {k : Message → Program UInt8 Panic α} {k' : Message → Program UInt8 Panic β}
    (hm : msg.Encodable) (h : 2 ^ 32 ≤ msg.size) :
    Ends (sendMsg C msg >>= fun _ => recvMsg C >>= k) (recvMsg C >>= k') (.error .unwrapErr)
      (.error .unwrapErr) := by
  have hcut := write_read C msg (recvMsg C >>= k : Program UInt8 Panic α) k'
  rw [transmit_of_le hm h, readMsg_eq, resume_eq] at hcut
  exact ⟨_, _, hcut.trans (.left_eof (by decide))⟩

/-- Fewer than `2^27` points arrive. -/
theorem exchange_hashDH {points : List MontgomeryPoint} (h : points.length < 2 ^ 27) :
    Exchange (sendMsg C (.hashDH points)) (recvMsg C) (.ok ()) (.ok (.hashDH points)) :=
  exchange_msg (show points.length < 2 ^ 64 by omega)
    (show 12 + 32 * points.length < 2 ^ 32 by omega)

theorem exchange_hashDH2 {points : List CompressedEdwardsY} (h : points.length < 2 ^ 27) :
    Exchange (sendMsg C (.hashDH2 points)) (recvMsg C) (.ok ()) (.ok (.hashDH2 points)) :=
  exchange_msg (show points.length < 2 ^ 64 by omega)
    (show 12 + 32 * points.length < 2 ^ 32 by omega)

section Long

variable {k : Message → Program UInt8 Panic α} {k' : Message → Program UInt8 Panic β}

/-- `2^27` points do not. -/
theorem ends_hashDH {points : List MontgomeryPoint} (h : points.length < 2 ^ 64)
    (hle : 2 ^ 27 ≤ points.length) :
    Ends (sendMsg C (.hashDH points) >>= fun _ => recvMsg C >>= k) (recvMsg C >>= k')
      (.error .unwrapErr) (.error .unwrapErr) :=
  ends_of_long h (show 2 ^ 32 ≤ 12 + 32 * points.length by omega)

theorem ends_hashDH2 {points : List CompressedEdwardsY} (h : points.length < 2 ^ 64)
    (hle : 2 ^ 27 ≤ points.length) :
    Ends (sendMsg C (.hashDH2 points) >>= fun _ => recvMsg C >>= k) (recvMsg C >>= k')
      (.error .unwrapErr) (.error .unwrapErr) :=
  ends_of_long h (show 2 ^ 32 ≤ 12 + 32 * points.length by omega)

end Long

end Messages

/-! ### The semi-honest protocol -/

section SemiHonest

variable (T : ObliviousTransfer) (O : Oracles) (C : Bincode)

/-- The thread that `semi_honest_psu1` spawns. -/
def PartySender.thread (sender : Sender) (ms : List (Block × Block))
    (coins : T.SenderInit × T.SendCoins) : Program UInt8 Panic Unit := do
  let (sdM1, _) := PartySender.gen O sender
  sendMsg C (.hashDH sdM1)
  match ← recvMsg C with
  | .hashDH rcM1 =>
      let sdM2 ← .lift (PartySender.blindAndShuffle sender rcM1)
      sendMsg C (.hashDH sdM2)
      let otext ← unwrapOt (T.initSender coins.1)
      let _ ← unwrapOt (T.send otext ms coins.2)
  | _ => return ()

/-- The caller's thread; the indicator and the results, which the source drops. -/
def PartyReceiver.thread (receiver : Receiver) (coins : T.ReceiverInit × T.ReceiveCoins) :
    Program UInt8 Panic (Option (List Bool × List Block)) := do
  let rcM1 := PartyReceiver.gen O receiver
  match ← recvMsg C with
  | .hashDH sdM1 =>
      sendMsg C (.hashDH rcM1)
      let blinded := PartyReceiver.blind receiver sdM1
      match ← recvMsg C with
      | .hashDH sdM2 =>
          let indicator := PartyReceiver.compare blinded sdM2
          let otext ← unwrapOt (T.initReceiver coins.1)
          let (results, _) ← unwrapOt (T.receive otext indicator coins.2)
          return some (indicator, results)
      | _ => return none
  | _ => return none

/-- `semi_honest_psu1`. -/
def semiHonestPsu1 (sender : Sender) (receiver : Receiver) (ms : List (Block × Block))
    (coins : T.SenderInit × T.SendCoins) (coins' : T.ReceiverInit × T.ReceiveCoins) :
    Session UInt8 (Run Unit) (Run (Option (List Bool × List Block))) :=
  .init (PartySender.thread T O C sender ms coins) (PartyReceiver.thread T O C receiver coins')

variable {T C} {Linked : T.Sender → T.Receiver → Prop} {S R : List Block} (rawS rawR : Bytes32)
  (π : Equiv.Perm (Fin R.length)) {ms : List (Block × Block)}

/-- The two threads of honest parties over a transfer that delivers. -/
theorem exchange_semiHonest (hT : T.Correct Linked) (hS : S.length < 2 ^ 27)
    (hR : R.length < 2 ^ 27) (hms : ms.length = S.length)
    (coins : T.SenderInit × T.SendCoins) (coins' : T.ReceiverInit × T.ReceiveCoins) :
    Exchange (PartySender.thread T O C (Sender.new (flatten S) S.length rawS π) ms coins)
      (PartyReceiver.thread T O C (Receiver.new (flatten R) R.length rawR) coins') (.ok ())
      (.ok (some (S.map fun s => decide (Matches O R s),
        otReceive ms (S.map fun s => decide (Matches O R s))))) := by
  obtain ⟨sdM2, hanswer, hlen, hindicator⟩ :=
    PartyReceiver.exists_indicator O R rawS rawR S π
  rw [← hindicator]
  obtain ⟨_, _, hl, hinit⟩ := hT.init coins.1 coins'.1
  obtain ⟨_, _, -, hsend⟩ := hT.transfer hl ms _ coins.2 coins'.2
    (hms.trans ((congrArg List.length hindicator).trans (List.length_map _)).symm)
  refine .bind (exchange_hashDH ?_) (.bind (exchange_hashDH ?_).symm (.lift_left hanswer
    (.bind (exchange_hashDH ?_) (.bind (exchange_unwrapOt hinit)
      (.bind (exchange_unwrapOt hsend) (.pure _ _))))))
  · exact (PartySender.length_gen ..).trans_lt hS
  · exact (PartyReceiver.length_gen ..).trans_lt hR
  · exact hlen.trans_lt hR

/-- **From `2^27` items on** both threads panic. -/
theorem ends_semiHonest (hS : S.length < 2 ^ 64) (hR : R.length < 2 ^ 64)
    (hlong : ¬ (S.length < 2 ^ 27 ∧ R.length < 2 ^ 27)) (ms : List (Block × Block))
    (coins : T.SenderInit × T.SendCoins) (coins' : T.ReceiverInit × T.ReceiveCoins) :
    Ends (PartySender.thread T O C (Sender.new (flatten S) S.length rawS π) ms coins)
      (PartyReceiver.thread T O C (Receiver.new (flatten R) R.length rawR) coins')
      (.error .unwrapErr) (.error .unwrapErr) := by
  have hsender := PartySender.length_gen (n := S.length) O S rawS π
  have hreceiver := PartyReceiver.length_gen (n := R.length) O R rawR
  by_cases h : S.length < 2 ^ 27
  · -- the sender's points arrive, and the receiver's end the sender
    have hle : 2 ^ 27 ≤ R.length := not_lt.mp fun hlt => hlong ⟨h, hlt⟩
    exact (exchange_hashDH (hsender.trans_lt h)).bind_ends
      (ends_hashDH (hreceiver.trans_lt hR) (hle.trans_eq hreceiver.symm)).symm
  · exact ends_hashDH (hsender.trans_lt hS) ((not_lt.mp h).trans_eq hsender.symm)

end SemiHonest

/-! ### The protocol against a malicious sender -/

section SenderMalicious

variable (T : ObliviousTransfer) (O : Oracles) (C : Bincode)

/-- The thread that `sender_malicious_psu1` spawns; its transfers are the calls of one sender. -/
def PartySender1M.thread (sender : Sender) (ms : List (Block × Block)) (raws : ℕ → Bytes32)
    (coins : T.SenderInit × (ℕ → T.SendCoins)) : Program UInt8 Panic Unit := do
  let (_points, original, _original) ← .lift (PartySender1M.gen O sender)
  sendMsg C (.hashDH2 _points)
  match ← recvMsg C with
  | .hashDH2 rcM1 =>
      let sdM2 ← .lift (PartySender1M.blindAndShuffle sender rcM1)
      sendMsg C (.hashDH2 sdM2)
      let chunk ← .lift (senderOt O sender _points original _original ms raws)
      let otext ← unwrapOt (T.initSender coins.1)
      let otext ← unwrapOt (T.send otext chunk.items (coins.2 0))
      let otext ← unwrapOt (T.send otext chunk.c (coins.2 1))
      let otext ← unwrapOt (T.send otext chunk.z0 (coins.2 2))
      let _ ← unwrapOt (T.send otext chunk.z1 (coins.2 3))
  | _ => return ()

/-- The caller's thread; `n` is the sender's. -/
def PartyReceiver1M.thread (receiver : Receiver) (n : ℕ)
    (coins : T.ReceiverInit × (ℕ → T.ReceiveCoins)) :
    Program UInt8 Panic (Option Received) := do
  let rcM1 ← .lift (PartyReceiver1M.gen O receiver)
  match ← recvMsg C with
  | .hashDH2 _senderPoints =>
      sendMsg C (.hashDH2 rcM1)
      let (_blinded, senderPoints) ← .lift (PartyReceiver1M.blind receiver _senderPoints)
      match ← recvMsg C with
      | .hashDH2 sdM2 =>
          let indicator := PartyReceiver1M.compare _blinded sdM2
          let otext ← unwrapOt (T.initReceiver coins.1)
          let (results, otext) ← unwrapOt (T.receive otext indicator (coins.2 0))
          let (c, otext) ← unwrapOt (T.receive otext indicator (coins.2 1))
          let (z0, otext) ← unwrapOt (T.receive otext indicator (coins.2 2))
          let (z1, _) ← unwrapOt (T.receive otext indicator (coins.2 3))
          let r ← .lift (recomputeLoop O n
            { _senderPoints, senderPoints, indicator, results, c, z0, z1 })
          return some r
      | _ => return none
  | _ => return none

/-- `sender_malicious_psu1`. -/
def senderMaliciousPsu1 (sender : Sender) (receiver : Receiver) (ms : List (Block × Block))
    (raws : ℕ → Bytes32) (coins : T.SenderInit × (ℕ → T.SendCoins))
    (coins' : T.ReceiverInit × (ℕ → T.ReceiveCoins)) :
    Session UInt8 (Run Unit) (Run (Option Received)) :=
  .init (PartySender1M.thread T O C sender ms raws coins)
    (PartyReceiver1M.thread T O C receiver sender.n coins')

variable {T C} {Linked : T.Sender → T.Receiver → Prop} {S R : List Block} (rawS rawR : Bytes32)
  (π : Equiv.Perm (Fin R.length)) {ms : List (Block × Block)} (raws : ℕ → Bytes32)

/-- The two threads of honest parties over a transfer that delivers. -/
theorem exchange_senderMalicious (hT : T.Correct Linked) (hS : S.length < 2 ^ 27)
    (hR : R.length < 2 ^ 27) (hms : ms.length = S.length)
    (coins : T.SenderInit × (ℕ → T.SendCoins)) (coins' : T.ReceiverInit × (ℕ → T.ReceiveCoins)) :
    ∃ r, Exchange
        (PartySender1M.thread T O C (Sender.new (flatten S) S.length rawS π) ms raws coins)
        (PartyReceiver1M.thread T O C (Receiver.new (flatten R) R.length rawR) S.length coins')
        (.ok ()) (.ok (some r)) ∧
      r.indicator = S.map (fun s => decide (Matches1M O R s)) ∧
      r.results = otReceive ms r.indicator ∧ (ms.map Prod.fst = S → r.Proved O) := by
  have hindicator : (S.map fun s => decide (Matches1M O R s)).length = S.length :=
    List.length_map _
  have hsent : ∀ {V : List Block} {f : Block → CompressedEdwardsY}, V.length < 2 ^ 27 →
      (V.map f).length < 2 ^ 27 := by
    intro V f h
    rwa [List.length_map]
  have hlen : ∀ {xs : List (Block × Block)}, xs.length = S.length →
      (otReceive xs (S.map fun s => decide (Matches1M O R s))).length = S.length :=
    fun h => (length_otReceive (h.trans hindicator.symm)).trans hindicator
  obtain ⟨_, _, hl, hinit⟩ := hT.init coins.1 coins'.1
  obtain ⟨_, _, hl, hitems⟩ := hT.transfer hl ms _ (coins.2 0) (coins'.2 0)
    (hms.trans hindicator.symm)
  obtain ⟨_, _, hl, hc⟩ := hT.transfer hl _ _ (coins.2 1) (coins'.2 1)
    (List.length_ofFn.trans hindicator.symm)
  obtain ⟨_, _, hl, hz0⟩ := hT.transfer hl _ _ (coins.2 2) (coins'.2 2)
    (List.length_ofFn.trans hindicator.symm)
  obtain ⟨_, _, -, hz1⟩ := hT.transfer hl _ _ (coins.2 3) (coins'.2 3)
    (List.length_ofFn.trans hindicator.symm)
  have hcompare := PartyReceiver1M.compare_eq O R rawS rawR S π
  refine ⟨_, ?_, rfl, rfl, fun hms => proved_of_honest O S R rawS π ms raws hms _ hindicator⟩
  refine .lift_left (PartySender1M.gen_eq O S rawS π) (.lift_right (PartyReceiver1M.gen_eq O R rawR)
    (.bind (exchange_hashDH2 (hsent hS)) (.bind (exchange_hashDH2 (hsent hR)).symm
      (.lift_left (PartySender1M.blindAndShuffle_eq O R rawS rawR S π S.length)
        (.lift_right (PartyReceiver1M.blind_map _ S _)
          (.bind (exchange_hashDH2 (by rwa [List.length_ofFn]))
            (.lift_left (senderOt_eq O S π rawS ms raws) ?_)))))))
  dsimp only
  rw [show (Receiver.new (flatten R) R.length rawR).sk = (Keys.new rawR).sk from rfl, hcompare]
  refine .bind (exchange_unwrapOt hinit) (.bind (exchange_unwrapOt hitems)
    (.bind (exchange_unwrapOt hc) (.bind (exchange_unwrapOt hz0)
      (.bind (exchange_unwrapOt hz1) (.lift_right (recomputeLoop_of_filled ?_) (.pure _ _))))))
  exact ⟨(List.length_map _).ge, (List.length_map _).ge, hindicator.ge, (hlen hms).ge,
    (hlen List.length_ofFn).ge, (hlen List.length_ofFn).ge, (hlen List.length_ofFn).ge⟩

/-- **From `2^27` items on** both threads panic. -/
theorem ends_senderMalicious (hS : S.length < 2 ^ 64) (hR : R.length < 2 ^ 64)
    (hlong : ¬ (S.length < 2 ^ 27 ∧ R.length < 2 ^ 27)) (ms : List (Block × Block))
    (coins : T.SenderInit × (ℕ → T.SendCoins)) (coins' : T.ReceiverInit × (ℕ → T.ReceiveCoins)) :
    Ends (PartySender1M.thread T O C (Sender.new (flatten S) S.length rawS π) ms raws coins)
      (PartyReceiver1M.thread T O C (Receiver.new (flatten R) R.length rawR) S.length coins')
      (.error .unwrapErr) (.error .unwrapErr) := by
  have hsent : ∀ {V : List Block} {f : Block → CompressedEdwardsY} {k : ℕ},
      V.length < k → (V.map f).length < k := by
    intro V f k h
    rwa [List.length_map]
  refine .lift_left (PartySender1M.gen_eq O S rawS π) (.lift_right (PartyReceiver1M.gen_eq O R rawR)
    ?_)
  by_cases h : S.length < 2 ^ 27
  · -- the sender's points arrive, and the receiver's end the sender
    have hle : 2 ^ 27 ≤ R.length := not_lt.mp fun hlt => hlong ⟨h, hlt⟩
    refine (exchange_hashDH2 (hsent h)).bind_ends (Ends.symm ?_)
    dsimp only
    rw [PartyReceiver1M.blind_map]
    exact ends_hashDH2 (hsent hR) (hle.trans_eq (List.length_map _).symm)
  · exact ends_hashDH2 (hsent hS) ((not_lt.mp h).trans_eq (List.length_map _).symm)

end SenderMalicious

/-! ### Over the transfers of the source -/

section Transfers

variable (G : Type) [AddCommGroup G] [BasePoint G] [PointEncoding G]
  (keyedHash : Bytes32 → List UInt8 → Bytes32) (rng : AesRng) (aes : Block → Block)

/-- **When the indicator is exact.**  Every run of two honest parties, over the transfers that the
source takes, ends with the exact indicator and the blocks that it asks for, exactly when both sets
have fewer than `2^27` items; on encodings the indicator is the same without the sign. -/
theorem semiHonestPsu1_exact_iff (O : Oracles) (C : Bincode) {S R : List Block}
    (hS : S.length < 2 ^ 64) (hR : R.length < 2 ^ 64) (rawS rawR : Bytes32)
    (π : Equiv.Perm (Fin R.length)) {ms : List (Block × Block)} (hms : ms.length = S.length)
    (raws : ℕ → Bytes32) :
    let sender := Sender.new (flatten S) S.length rawS π
    let receiver := Receiver.new (flatten R) R.length rawR
    (∀ coins coins', (semiHonestPsu1 (alsz (chouOrlandi G keyedHash) rng aes) O C sender receiver ms
        coins coins').EveryRun (fun _ got =>
          ∃ out, got = .ok (some out) ∧ Exact (Matches O R) S R ms out) ↔
      S.length < 2 ^ 27 ∧ R.length < 2 ^ 27) ∧
    ∀ coins coins', (senderMaliciousPsu1 (kos (chouOrlandi G keyedHash) rng aes) O C sender receiver
        ms raws coins coins').EveryRun (fun _ got =>
          ∃ r, got = .ok (some r) ∧ Exact (Matches1M O R) S R ms (r.indicator, r.results)) ↔
      S.length < 2 ^ 27 ∧ R.length < 2 ^ 27 := by
  intro sender receiver
  refine ⟨fun coins coins' => ⟨fun hevery => ?_, fun ⟨hS, hR⟩ => ?_⟩,
    fun coins coins' => ⟨fun hevery => ?_, fun ⟨hS, hR⟩ => ?_⟩⟩
  · by_contra hlong
    obtain ⟨out, hout, -⟩ := hevery.of_ends (ends_semiHonest O rawS rawR π hS hR hlong ms coins
      coins')
    cases hout
  · have hrun := exchange_semiHonest (C := C) O rawS rawR π
      (alsz_correct (chouOrlandi_correct (G := G) keyedHash) rng aes) hS hR hms coins coins'
    exact everyRun_of_exchange hrun
      ⟨_, rfl, .of_indicator (fun _ => matches_of_mem) ms⟩
  · by_contra hlong
    obtain ⟨r, hr, -⟩ := hevery.of_ends (ends_senderMalicious O rawS rawR π raws hS hR hlong ms
      coins coins')
    cases hr
  · obtain ⟨r, hrun, hindicator, hresults, -⟩ := exchange_senderMalicious (C := C) O rawS rawR π
      raws (kos_correct (chouOrlandi_correct (G := G) keyedHash) rng aes) hS hR hms coins coins'
    refine everyRun_of_exchange hrun ⟨r, rfl, ?_⟩
    rw [hresults, hindicator]
    exact .of_indicator (fun _ => matches1M_of_mem) ms

/-- The sender has 3 and 4, the receiver 4. -/
theorem semiHonestPsu1_exact_iff_two :
    let O := Oracles.reading
    let sender := Sender.new (flatten [3, 4]) 2 0 (1 : Equiv.Perm (Fin 1))
    let receiver := Receiver.new (flatten [4]) 1 0
    (∀ coins coins', (semiHonestPsu1 (alsz (chouOrlandi EdwardsPoint fun _ _ => 7)
        (aesRng fun _ b => b) id) O bincode sender receiver [(3, 0), (4, 0)] coins
        coins').EveryRun (fun _ got =>
          ∃ out, got = .ok (some out) ∧ Exact (Matches O [4]) [3, 4] [4] [(3, 0), (4, 0)] out) ↔
      2 < 2 ^ 27 ∧ 1 < 2 ^ 27) ∧
    ∀ coins coins', (senderMaliciousPsu1 (kos (chouOrlandi EdwardsPoint fun _ _ => 7)
        (aesRng fun _ b => b) id) O bincode sender receiver [(3, 0), (4, 0)] (fun _ => 5) coins
        coins').EveryRun (fun _ got => ∃ r, got = .ok (some r) ∧
          Exact (Matches1M O [4]) [3, 4] [4] [(3, 0), (4, 0)] (r.indicator, r.results)) ↔
      2 < 2 ^ 27 ∧ 1 < 2 ^ 27 :=
  semiHonestPsu1_exact_iff EdwardsPoint (fun _ _ => 7) (aesRng fun _ b => b) id Oracles.reading
    bincode (S := [3, 4]) (R := [4]) (by decide) (by decide) 0 0 1 rfl (fun _ => 5)

/-- A sender of one item, `2^27` times or more, against a receiver of this item. -/
theorem not_exact_replicate {n : ℕ} (hle : 2 ^ 27 ≤ n) (hlt : n < 2 ^ 64) (item : Block) :
    ∀ coins coins', ¬ (semiHonestPsu1 (alsz (chouOrlandi G keyedHash) rng aes) Oracles.reading
      bincode (Sender.new (flatten (List.replicate n item)) n 0 (1 : Equiv.Perm (Fin 1)))
      (Receiver.new (flatten [item]) 1 0) (List.replicate n (item, 0)) coins coins').EveryRun
      fun _ got => ∃ out, got = .ok (some out) ∧ Exact (Matches Oracles.reading [item])
        (List.replicate n item) [item] (List.replicate n (item, 0)) out := by
  intro coins coins' hevery
  have hlength : (List.replicate n item).length = n := List.length_replicate
  have hlong : ¬ ((List.replicate n item).length < 2 ^ 27 ∧ [item].length < 2 ^ 27) := by
    rw [hlength]
    exact fun h => absurd h.1 (not_lt.mpr hle)
  have hends := ends_semiHonest (C := bincode) Oracles.reading 0 0 (R := [item]) 1
    (hlength.trans_lt hlt) (List.length_singleton.trans_lt (by decide)) hlong
    (List.replicate n (item, 0)) coins coins'
  rw [hlength] at hends
  obtain ⟨out, hout, -⟩ := hevery.of_ends hends
  cases hout

/-- **`2^27` items of the sender** end every run without an indicator. -/
theorem semiHonestPsu1_fails_long :
    ¬ (semiHonestPsu1 (alsz (chouOrlandi EdwardsPoint fun _ _ => 7) (aesRng fun _ b => b) id)
      Oracles.reading bincode
      (Sender.new (flatten (List.replicate (2 ^ 27) 3)) (2 ^ 27) 0 (1 : Equiv.Perm (Fin 1)))
      (Receiver.new (flatten [3]) 1 0) (List.replicate (2 ^ 27) (3, 0)) ((5, (), fun _ => 1), ())
      ((fun _ => (1, 2), (3 : Scalar), ()), ())).EveryRun
      fun _ got => ∃ out, got = .ok (some out) ∧ Exact (Matches Oracles.reading [3])
        (List.replicate (2 ^ 27) 3) [3] (List.replicate (2 ^ 27) (3, 0)) out :=
  not_exact_replicate EdwardsPoint (fun _ _ => 7) (aesRng fun _ b => b) id (by decide) (by decide) 3
    _ _

/-- **Every item that the receiver of an honest run gets is proved**, in every run that does not end
in a panic on a set of `2^27` items or more, before any hash is recomputed. -/
theorem senderMaliciousPsu1_proved (O : Oracles) (C : Bincode) {S R : List Block}
    (hS : S.length < 2 ^ 64) (hR : R.length < 2 ^ 64) (rawS rawR : Bytes32)
    (π : Equiv.Perm (Fin R.length)) {ms : List (Block × Block)} (hms : ms.map Prod.fst = S)
    (raws : ℕ → Bytes32) :
    let sender := Sender.new (flatten S) S.length rawS π
    let receiver := Receiver.new (flatten R) R.length rawR
    ∀ coins coins', (senderMaliciousPsu1 (kos (chouOrlandi G keyedHash) rng aes) O C sender receiver
        ms raws coins coins').EveryRun fun _ got =>
      (S.length < 2 ^ 27 ∧ R.length < 2 ^ 27 ∧ ∃ r, got = .ok (some r) ∧
        r.indicator = S.map (fun s => decide (Matches1M O R s)) ∧ r.Proved O) ∨
      ((2 ^ 27 ≤ S.length ∨ 2 ^ 27 ≤ R.length) ∧ got = .error .unwrapErr) := by
  intro sender receiver coins coins'
  by_cases h : S.length < 2 ^ 27 ∧ R.length < 2 ^ 27
  · have hlen : ms.length = S.length := by rw [← hms, List.length_map]
    obtain ⟨r, hrun, hindicator, -, hproved⟩ := exchange_senderMalicious (C := C) O rawS rawR π
      raws (kos_correct (chouOrlandi_correct (G := G) keyedHash) rng aes) h.1 h.2 hlen coins coins'
    exact everyRun_of_exchange hrun (Or.inl ⟨h.1, h.2, r, rfl, hindicator, hproved hms⟩)
  · have hends := ends_senderMalicious (C := C) O rawS rawR π raws hS hR h ms coins coins'
    refine hends.everyRun (Or.inr ⟨?_, rfl⟩)
    rwa [not_and_or, not_lt, not_lt] at h

/-- The sender has 3 and 4, the receiver 4. -/
theorem senderMaliciousPsu1_proved_two :
    let sender := Sender.new (flatten [3, 4]) 2 0 (1 : Equiv.Perm (Fin 1))
    let receiver := Receiver.new (flatten [4]) 1 0
    ∀ coins coins', (senderMaliciousPsu1 (kos (chouOrlandi EdwardsPoint fun _ _ => 7)
        (aesRng fun _ b => b) id) Oracles.reading bincode sender receiver [(3, 0), (4, 0)]
        (fun _ => 5) coins coins').EveryRun fun _ got =>
      (2 < 2 ^ 27 ∧ 1 < 2 ^ 27 ∧ ∃ r, got = .ok (some r) ∧
        r.indicator = [3, 4].map (fun s => decide (Matches1M Oracles.reading [4] s)) ∧
        r.Proved Oracles.reading) ∨
      ((2 ^ 27 ≤ 2 ∨ 2 ^ 27 ≤ 1) ∧ got = .error .unwrapErr) :=
  senderMaliciousPsu1_proved EdwardsPoint (fun _ _ => 7) (aesRng fun _ b => b) id Oracles.reading
    bincode (S := [3, 4]) (R := [4]) (by decide) (by decide) 0 0 1 rfl (fun _ => 5)

end Transfers

end MaliciousPsu
