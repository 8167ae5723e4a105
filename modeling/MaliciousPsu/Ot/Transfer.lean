import MaliciousPsu.Bytes
import MaliciousPsu.Group
import MaliciousPsu.Lib.Exchange
import MaliciousPsu.Rust

/-!
# Oblivious transfer

The traits of `ot/mod.rs` over the channel of `scuttlebutt`, each method with the values that it
draws for an argument.

* `exchange_block`, `exchange_pt`: what one side writes, the other reads.
* `ObliviousTransfer.Correct`: the receiver gets the blocks that it chose, whatever was transferred
  before.
* `Correct.everyRun`: so any number of transfers between one sender and one receiver end with these
  blocks, in any order of steps.
-/

namespace MaliciousPsu

/-! ### The channel -/

/-- `std::io::Error`. -/
inductive IoError
  | unexpectedEof
  | invalidData (text : String)
  deriving DecidableEq, Repr

/-- `cointoss::Error`. -/
inductive CoinTossError
  | ioError (e : IoError)
  | commitmentCheckFailed
  deriving DecidableEq, Repr

/-- `ocelot::Error`, as far as oblivious transfers raise it. -/
inductive OtError
  | ioError (e : IoError)
  | coinTossError (e : CoinTossError)
  deriving DecidableEq, Repr

/-- The errors that `?` makes of an I/O error. -/
class FromIo (ε : Type) where
  fromIo : IoError → ε

instance : FromIo CoinTossError := ⟨.ioError⟩

instance : FromIo OtError := ⟨.ioError⟩

section Channel

variable {ε ε' : Type} [FromIo ε]

/-- `read_bytes`. -/
def readBytes (n : ℕ) : Program UInt8 ε (List UInt8) := .read n (FromIo.fromIo .unexpectedEof)

/-- `write_bytes`. -/
def writeBytes (bytes : List UInt8) : Program UInt8 ε Unit := .write bytes

/-- `read_block`. -/
def readBlock : Program UInt8 ε Block := do return Block.ofBytes (← readBytes 16)

/-- `write_block`. -/
def writeBlock (b : Block) : Program UInt8 ε Unit := writeBytes (Block.bytes b)

variable {G : Type} [PointEncoding G]

/-- `read_pt`. -/
def readPt : Program UInt8 ε G := do
  let data ← readBytes 32
  match decompress (BitVec.ofNat 256 (leNat data) : Bytes32) with
  | some pt => return pt
  | none => .lift (.error (FromIo.fromIo (.invalidData "unable to decompress ristretto point")))

/-- `write_pt`. -/
def writePt (pt : G) : Program UInt8 ε Unit := writeBytes (Bytes32.bytes (compress pt))

open Session

theorem exchange_bytes {n : ℕ} {bytes : List UInt8} (h : bytes.length = n) :
    Exchange (writeBytes bytes : Program UInt8 ε' Unit) (readBytes n : Program UInt8 ε _) (.ok ())
      (.ok bytes) := .write_read h _

/-- A block that is written is read. -/
theorem exchange_block (b : Block) :
    Exchange (writeBlock b : Program UInt8 ε' Unit) (readBlock : Program UInt8 ε Block) (.ok ())
      (.ok b) := by
  have h : Exchange (writeBytes (Block.bytes b) : Program UInt8 ε' Unit)
      (readBytes 16 : Program UInt8 ε _) _ _ := exchange_bytes (Block.length_bytes b)
  replace h := h.map_right Block.ofBytes
  rw [Block.ofBytes_bytes] at h
  exact h

/-- A point that is written is read. -/
theorem exchange_pt (pt : G) :
    Exchange (writePt pt : Program UInt8 ε' Unit) (readPt : Program UInt8 ε G) (.ok ())
      (.ok pt) := by
  have hread : (readPt : Program UInt8 ε G) = readBytes 32 >>= fun data =>
      match decompress (BitVec.ofNat 256 (leNat data) : Bytes32) with
      | some pt => return pt
      | none => .lift (.error (FromIo.fromIo
        (.invalidData "unable to decompress ristretto point"))) := rfl
  have hwrite : (writePt pt : Program UInt8 ε' Unit) =
      writeBytes (Bytes32.bytes (compress pt)) >>= pure := (bind_pure _).symm
  rw [hread, hwrite]
  refine .bind (exchange_bytes (Bytes32.length_bytes _)) ?_
  rw [Bytes32.leNat_bytes, BitVec.ofNat_toNat, BitVec.setWidth_eq,
    PointEncoding.decompress_compress]
  exact .pure _ _

end Channel

/-! ### Loops over two lists -/

section Lists

variable {α β γ ι : Type} {n : ℕ}

theorem zipIdx_ofFn (f : Fin n → α) : (List.ofFn f).zipIdx = List.ofFn fun i => (f i, (i : ℕ)) :=
  List.ext_getElem (by simp) fun i hi hi' => by simp

theorem zipWith_ofFn (g : α → β → γ) (f : Fin n → α) (f' : Fin n → β) :
    List.zipWith g (List.ofFn f) (List.ofFn f') = List.ofFn fun i => g (f i) (f' i) :=
  List.ext_getElem (by simp) fun i hi hi' => by simp

theorem range_eq_ofFn (n : ℕ) : List.range n = List.ofFn fun i : Fin n => (i : ℕ) := by
  rw [List.ofFn_eq_map, List.map_coe_finRange_eq_range]

variable {σ ε ε' : Type}

open Session

theorem exchange_mapM {f : α → Program σ ε β} {g : γ → Program σ ε' ι} {x : Fin n → α}
    {y : Fin n → γ} {a : Fin n → β} {b : Fin n → ι}
    (h : ∀ i, Exchange (f (x i)) (g (y i)) (.ok (a i)) (.ok (b i))) :
    Exchange ((List.ofFn x).mapM f) ((List.ofFn y).mapM g) (.ok (List.ofFn a))
      (.ok (List.ofFn b)) := by
  simp only [List.ofFn_eq_map]
  exact .mapM fun i _ => h i

theorem exchange_forM_mapM {f : α → Program σ ε PUnit} {g : γ → Program σ ε' ι} {x : Fin n → α}
    {y : Fin n → γ} {b : Fin n → ι} (h : ∀ i, Exchange (f (x i)) (g (y i)) (.ok ()) (.ok (b i))) :
    Exchange ((List.ofFn x).forM f) ((List.ofFn y).mapM g) (.ok ()) (.ok (List.ofFn b)) := by
  simp only [List.ofFn_eq_map]
  exact .forM_mapM fun i _ => h i

end Lists

/-! ### Transfers -/

/-- What the receiver chooses of the sender's pairs. -/
def chosen (inputs : List (Block × Block)) (choices : List Bool) : List Block :=
  List.zipWith (fun input b => if b then input.2 else input.1) inputs choices

/-- The traits `Sender` and `Receiver`. -/
structure ObliviousTransfer where
  Sender : Type
  Receiver : Type
  /-- What the two `init`, `send` and `receive` draw. -/
  SenderInit : Type
  ReceiverInit : Type
  SendCoins : Type
  ReceiveCoins : Type
  initSender : SenderInit → Program UInt8 OtError Sender
  initReceiver : ReceiverInit → Program UInt8 OtError Receiver
  send : Sender → List (Block × Block) → SendCoins → Program UInt8 OtError Sender
  receive : Receiver → List Bool → ReceiveCoins → Program UInt8 OtError (List Block × Receiver)

namespace ObliviousTransfer

variable (T : ObliviousTransfer)

/-- Senders and receivers that belong together stay so, and every transfer delivers. -/
structure Correct (Linked : T.Sender → T.Receiver → Prop) : Prop where
  init : ∀ c c', ∃ sender receiver, Linked sender receiver ∧
    Session.Exchange (T.initSender c) (T.initReceiver c') (.ok sender) (.ok receiver)
  transfer : ∀ {sender receiver}, Linked sender receiver → ∀ inputs choices c c',
    inputs.length = choices.length → ∃ sender' receiver', Linked sender' receiver' ∧
      Session.Exchange (T.send sender inputs c) (T.receive receiver choices c') (.ok sender')
        (.ok (chosen inputs choices, receiver'))

variable {T}

/-- `send`, call after call. -/
def sendAll (sender : T.Sender) : List (List (Block × Block) × T.SendCoins) →
    Program UInt8 OtError Unit
  | [] => return ()
  | x :: xs => do sendAll (← T.send sender x.1 x.2) xs

/-- `receive`, call after call. -/
def receiveAll (receiver : T.Receiver) : List (List Bool × T.ReceiveCoins) →
    Program UInt8 OtError (List (List Block))
  | [] => return []
  | x :: xs => do
    let (out, receiver) ← T.receive receiver x.1 x.2
    return out :: (← receiveAll receiver xs)

/-- A sender that is made and sends. -/
def senderRun (c : T.SenderInit) (xs : List (List (Block × Block) × T.SendCoins)) :
    Program UInt8 OtError Unit := do sendAll (← T.initSender c) xs

/-- A receiver that is made and receives. -/
def receiverRun (c : T.ReceiverInit) (ys : List (List Bool × T.ReceiveCoins)) :
    Program UInt8 OtError (List (List Block)) := do receiveAll (← T.initReceiver c) ys

variable {Linked : T.Sender → T.Receiver → Prop}

/-- **Transfers, one after the other.** -/
theorem Correct.transfers (h : T.Correct Linked) {sender : T.Sender} {receiver : T.Receiver}
    (hl : Linked sender receiver) {xs : List (List (Block × Block) × T.SendCoins)}
    {ys : List (List Bool × T.ReceiveCoins)}
    (hlen : List.Forall₂ (fun x y => x.1.length = y.1.length) xs ys) :
    Session.Exchange (sendAll sender xs) (receiveAll receiver ys) (.ok ())
      (.ok (List.zipWith (fun x y => chosen x.1 y.1) xs ys)) := by
  induction hlen generalizing sender receiver with
  | nil => exact .pure _ _
  | cons hxy _ ih =>
      obtain ⟨sender', receiver', hl', hx⟩ := h.transfer hl _ _ _ _ hxy
      exact .bind hx ((ih hl').map_right _)

/-- **Any number of transfers between a sender and a receiver** ends with the blocks chosen, in any
order of steps. -/
theorem Correct.everyRun (h : T.Correct Linked) (c : T.SenderInit) (c' : T.ReceiverInit)
    {xs : List (List (Block × Block) × T.SendCoins)} {ys : List (List Bool × T.ReceiveCoins)}
    (hlen : List.Forall₂ (fun x y => x.1.length = y.1.length) xs ys) :
    (Session.init (senderRun c xs) (receiverRun c' ys)).EveryRun fun sent got =>
      sent = .ok () ∧ got = .ok (List.zipWith (fun x y => chosen x.1 y.1) xs ys) := by
  obtain ⟨sender, receiver, hl, hinit⟩ := h.init c c'
  exact Session.everyRun_of_exchange (.bind hinit (h.transfers hl hlen)) ⟨rfl, rfl⟩

end ObliviousTransfer

end MaliciousPsu
