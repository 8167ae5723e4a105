import MaliciousPsu.Edwards
import MaliciousPsu.Ot.Alsz
import MaliciousPsu.Ot.ChouOrlandi
import MaliciousPsu.Ot.Kos

/-!
# Transfers from end to end

Runs of the transfers over the base transfer that `ot/mod.rs` gives them, the two threads of
`otext.rs` among them.

* `kos_everyRun`: any number of calls, in any order of steps, deliver.
* `otext_everyRun`: so do the two threads of `otext`.
* `ChouOrlandi.sender_view`: whatever a peer does, its runs with a receiver are its runs with a
  receiver that chooses otherwise.
-/

namespace MaliciousPsu

open ObliviousTransfer Session

/-! ### The threads of `otext` -/

section Threads

variable {α β : Type}

/-- A transfer's `unwrap()`. -/
def unwrapOt (p : Program UInt8 OtError α) : Program UInt8 Panic α := p.mapError fun _ => .unwrapErr

theorem exchange_unwrapOt {p : Program UInt8 OtError α} {q : Program UInt8 OtError β} {a : α}
    {b : β} (h : Exchange p q (.ok a) (.ok b)) :
    Exchange (unwrapOt p) (unwrapOt q) (.ok a) (.ok b) := h.mapError _ _

variable (T : ObliviousTransfer)

/-- The thread that `otext` spawns. -/
def otextSender (ms : List (Block × Block)) (coins : T.SenderInit × T.SendCoins) :
    Program UInt8 Panic Unit := do
  let otext ← unwrapOt (T.initSender coins.1)
  let _ ← unwrapOt (T.send otext ms coins.2)

/-- The rest of `otext`. -/
def otextReceiver (choices : List Bool) (coins : T.ReceiverInit × T.ReceiveCoins) :
    Program UInt8 Panic (List Block) := do
  let otext ← unwrapOt (T.initReceiver coins.1)
  let (results, _) ← unwrapOt (T.receive otext choices coins.2)
  return results

end Threads

section Runs

variable (G : Type) [AddCommGroup G] [BasePoint G] [PointEncoding G]
  (keyedHash : Bytes32 → List UInt8 → Bytes32) (rng : AesRng) (aes : Block → Block)

/-- `KosSender` and `KosReceiver`, over the transfer of Chou and Orlandi. -/
abbrev kosOverChouOrlandi : ObliviousTransfer := kos (chouOrlandi G keyedHash) rng aes

/-- **Any number of calls to `KosSender` and `KosReceiver`**, one after the other over one setup,
end with the blocks chosen, in any order of steps. -/
theorem kos_everyRun (c : (kosOverChouOrlandi G keyedHash rng aes).SenderInit)
    (c' : (kosOverChouOrlandi G keyedHash rng aes).ReceiverInit)
    {xs : List (List (Block × Block) × (kosOverChouOrlandi G keyedHash rng aes).SendCoins)}
    {ys : List (List Bool × (kosOverChouOrlandi G keyedHash rng aes).ReceiveCoins)}
    (hlen : List.Forall₂ (fun x y => x.1.length = y.1.length) xs ys) :
    (Session.init (senderRun c xs) (receiverRun c' ys)).EveryRun fun sent got =>
      sent = .ok () ∧ got = .ok (List.zipWith (fun x y => chosen x.1 y.1) xs ys) :=
  (kos_correct (chouOrlandi_correct keyedHash) rng aes).everyRun c c' hlen

/-- Two calls, of two pairs and of one. -/
theorem kos_everyRun_two :
    let T := kosOverChouOrlandi EdwardsPoint (fun _ _ => 7) (aesRng fun _ b => b) id
    (Session.init
      (senderRun (T := T) (5, (), fun _ => 1)
        [([(1, 2), (3, 4)], (6 : Block)), ([(5, 6)], (7 : Block))])
      (receiverRun (T := T) (fun _ => (1, 2), (3 : Scalar), ())
        [([true, false], fun _ => 8, (9 : Block)), ([true], fun _ => 8, (9 : Block))])).EveryRun
      fun sent got => sent = .ok () ∧ got = .ok [[2, 3], [6]] :=
  kos_everyRun EdwardsPoint (fun _ _ => 7) (aesRng fun _ b => b) id _ _
    (.cons rfl (.cons rfl .nil))

/-- **`otext`** over a transfer that delivers. -/
theorem otext_everyRun {T : ObliviousTransfer} {Linked : T.Sender → T.Receiver → Prop}
    (hT : T.Correct Linked) {ms : List (Block × Block)} {choices : List Bool}
    (hlen : ms.length = choices.length) (coins : T.SenderInit × T.SendCoins)
    (coins' : T.ReceiverInit × T.ReceiveCoins) :
    (Session.init (otextSender T ms coins) (otextReceiver T choices coins')).EveryRun
      fun sent got => sent = .ok () ∧ got = .ok (chosen ms choices) := by
  obtain ⟨_, _, hl, hinit⟩ := hT.init coins.1 coins'.1
  obtain ⟨_, _, -, htransfer⟩ := hT.transfer hl ms choices coins.2 coins'.2 hlen
  exact everyRun_of_exchange (.bind (exchange_unwrapOt hinit)
    (.bind (exchange_unwrapOt htransfer) (.pure _ _))) ⟨rfl, rfl⟩

/-- Two pairs. -/
theorem otext_everyRun_two :
    let T := kos (chouOrlandi EdwardsPoint fun _ _ => 7) (aesRng fun _ b => b) id
    (Session.init (otextSender T [(1, 2), (3, 4)] ((5, (), fun _ => 1), (6 : Block)))
      (otextReceiver T [true, false]
        ((fun _ => (1, 2), (3 : Scalar), ()), fun _ => 8, (9 : Block)))).EveryRun
      fun sent got => sent = .ok () ∧ got = .ok [2, 3] :=
  otext_everyRun (kos_correct (chouOrlandi_correct _) _ _) rfl _ _

end Runs

/-! ### What a peer sees of the choices -/

namespace ChouOrlandi

variable {G : Type} [AddCommGroup G] [BasePoint G] [PointEncoding G]
  (keyedHash : Bytes32 → List UInt8 → Bytes32) {receiver : Receiver G} {y : Scalar}

/-- **A peer's runs with a receiver** are its runs with one that chooses otherwise and draws other
scalars, one for each: the peer and what is on its way are the same after every number of steps. -/
theorem sender_view (hs : receiver.s = mulBase y) {choices choices' : List Bool}
    (hlen : choices.length = choices'.length) : ∃ e : (ℕ → Scalar) ≃ (ℕ → Scalar),
    ∀ {α : Type} (peer : Process UInt8 α) (toRight toLeft : List UInt8) (xs : ℕ → Scalar) (n : ℕ)
      (t : Session UInt8 α (Except OtError (List Block × Receiver G))),
      Steps Step n ⟨peer, receiver.receive keyedHash choices xs, toRight, toLeft⟩ t →
      ∃ q, Steps Step n ⟨peer, receiver.receive keyedHash choices' (e xs), toRight, toLeft⟩
        (t.withRight q) :=
  ⟨shift y choices choices', fun _ _ _ xs _ _ hrun =>
    have ⟨q, hq, _⟩ := alike_run (receive_hides keyedHash hs hlen xs) hrun
    ⟨q, hq⟩⟩

/-- A receiver of the triple of the basepoint, and two choices. -/
theorem sender_view_two : ∃ e : (ℕ → Scalar) ≃ (ℕ → Scalar),
    ∀ {α : Type} (peer : Process UInt8 α) (toRight toLeft : List UInt8) (xs : ℕ → Scalar) (n : ℕ)
      (t : Session UInt8 α (Except OtError (List Block × Receiver EdwardsPoint))),
      let receiver : Receiver EdwardsPoint := ⟨mulBase 3, 0⟩
      Steps Step n ⟨peer, receiver.receive (fun _ _ => 7) [true, false] xs, toRight, toLeft⟩ t →
      ∃ q, Steps Step n
        ⟨peer, receiver.receive (fun _ _ => 7) [false, false] (e xs), toRight, toLeft⟩
        (t.withRight q) :=
  sender_view (fun _ _ => 7) (y := 3) (rfl : (⟨mulBase 3, 0⟩ : Receiver EdwardsPoint).s = _) rfl

end ChouOrlandi

end MaliciousPsu
