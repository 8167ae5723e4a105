import MaliciousPsu.Lib.Views
import MaliciousPsu.Ot.Transfer
import Mathlib.Data.List.GetD

/-!
# The base transfer

`chou_orlandi.rs`, over any group with a basepoint and an encoding: the sender masks its blocks by
hashes of `y•R` and `y•R - y•S`, of which the receiver knows the one that its choice names.

* `chouOrlandi_correct`: the receiver gets the blocks that it chose.
* `receive_hides`: what it sends does not depend on them, whatever point the sender sent first.
-/

namespace MaliciousPsu

variable {G : Type} [AddCommGroup G] [BasePoint G] [PointEncoding G]
  (keyedHash : Bytes32 → List UInt8 → Bytes32)

/-- `hash_pt`; `blake3::keyed_hash` is a parameter. -/
def hashPt (tweak : ℕ) (pt : G) : Block :=
  Block.ofBytes ((Bytes32.bytes (keyedHash (compress pt) (leBytes 16 tweak))).take 16)

namespace ChouOrlandi

/-- `Sender`. -/
structure Sender (G : Type) where
  y : Scalar
  s : G
  counter : ℕ

/-- `Receiver`; its table of multiples is the point. -/
structure Receiver (G : Type) where
  s : G
  counter : ℕ

/-- `Sender::init`. -/
def Sender.init (y : Scalar) : Program UInt8 OtError (Sender G) := do
  let s := mulBase y
  writePt s
  return { y, s, counter := 0 }

/-- `Sender::send`. -/
def Sender.send (sender : Sender G) (inputs : List (Block × Block)) :
    Program UInt8 OtError (Sender G) := do
  let ys := mulScalar sender.s sender.y
  let ks ← (List.range inputs.length).mapM fun i => do
    let r ← readPt
    let yr := mulScalar r sender.y
    return (hashPt keyedHash (sender.counter + i) yr,
      hashPt keyedHash (sender.counter + i) (yr - ys))
  let counter := sender.counter + inputs.length
  (inputs.zip ks).forM fun input => do
    writeBlock (input.2.1 ^^^ input.1.1)
    writeBlock (input.2.2 ^^^ input.1.2)
  return { sender with counter }

/-- `Receiver::init`. -/
def Receiver.init : Program UInt8 OtError (Receiver G) := do
  let s ← readPt
  return { s, counter := 0 }

/-- The point that a choice sends, from a scalar `x`. -/
def Receiver.point (receiver : Receiver G) (b : Bool) (x : Scalar) : G :=
  let zero := mulScalar receiver.s 0
  let one := mulScalar receiver.s 1
  (if b then one else zero) + mulBase x

/-- `Receiver::receive`, on the scalars that it draws. -/
def Receiver.receive (receiver : Receiver G) (inputs : List Bool) (xs : ℕ → Scalar) :
    Program UInt8 OtError (List Block × Receiver G) := do
  let ks ← inputs.zipIdx.mapM fun input => do
    writePt (receiver.point input.1 (xs input.2))
    return hashPt keyedHash (receiver.counter + input.2) (mulScalar receiver.s (xs input.2))
  let counter := receiver.counter + inputs.length
  let out ← (inputs.zip ks).mapM fun input => do
    let c0 ← readBlock
    let c1 ← readBlock
    return input.2 ^^^ (if input.1 then c1 else c0)
  return (out, { receiver with counter })

end ChouOrlandi

open ChouOrlandi

/-- `ChouOrlandiSender` and `ChouOrlandiReceiver`. -/
def chouOrlandi (G : Type) [AddCommGroup G] [BasePoint G] [PointEncoding G]
    (keyedHash : Bytes32 → List UInt8 → Bytes32) : ObliviousTransfer where
  Sender := ChouOrlandi.Sender G
  Receiver := ChouOrlandi.Receiver G
  SenderInit := Scalar
  ReceiverInit := Unit
  SendCoins := Unit
  ReceiveCoins := ℕ → Scalar
  initSender := ChouOrlandi.Sender.init
  initReceiver _ := ChouOrlandi.Receiver.init
  send sender inputs _ := sender.send keyedHash inputs
  receive receiver inputs xs := receiver.receive keyedHash inputs xs

/-! ### Correctness -/

namespace ChouOrlandi

/-- A receiver made from what the sender sent, after as many transfers. -/
structure Linked (sender : Sender G) (receiver : Receiver G) : Prop where
  s_eq : sender.s = mulBase sender.y
  point : receiver.s = sender.s
  counter : receiver.counter = sender.counter

section Key

omit [PointEncoding G]

variable {sender : Sender G} {receiver : Receiver G}

/-- **The mask of the block chosen** is the one that the receiver knows. -/
theorem Linked.key_eq (h : Linked sender receiver) (b : Bool) (x : Scalar) :
    (if b then mulScalar (receiver.point b x) sender.y - mulScalar sender.s sender.y
      else mulScalar (receiver.point b x) sender.y) = mulScalar receiver.s x := by
  have hcomm : mulScalar (mulBase x : G) sender.y = mulScalar sender.s x := by
    rw [h.s_eq, mulBase, mulBase, mulScalar, mulScalar, mulScalar, mulScalar, smul_comm]
  have hone : mulScalar receiver.s 1 = sender.s := by
    rw [h.point, mulScalar, ZMod.val_one, one_nsmul]
  cases b with
  | true =>
      have hpoint : receiver.point true x = sender.s + mulBase x :=
        congrArg (· + mulBase x) hone
      rw [if_pos rfl, hpoint, mulScalar, nsmul_add, ← mulScalar, ← mulScalar, add_sub_cancel_left,
        hcomm, h.point]
  | false =>
      have hpoint : receiver.point false x = mulBase x := by
        refine (congrArg (· + mulBase x) (mulScalar_zero_right receiver.s)).trans ?_
        exact zero_add _
      rw [if_neg (by decide), hpoint, hcomm, h.point]

end Key

open Session

theorem exchange_init (y : Scalar) :
    Exchange (Sender.init y : Program UInt8 OtError (Sender G))
      (Receiver.init : Program UInt8 OtError (Receiver G))
      (.ok { y, s := mulBase y, counter := 0 }) (.ok { s := mulBase y, counter := 0 }) :=
  .bind (exchange_pt (mulBase y : G)) (.pure _ _)

section Transfer

variable (sender : Sender G) (receiver : Receiver G)

/-- The two masks that the sender has for a choice sent. -/
def Sender.masks (i : ℕ) (r : G) : Block × Block :=
  (hashPt keyedHash (sender.counter + i) (mulScalar r sender.y),
    hashPt keyedHash (sender.counter + i) (mulScalar r sender.y - mulScalar sender.s sender.y))

/-- The mask that the receiver has. -/
def Receiver.mask (i : ℕ) (x : Scalar) : Block :=
  hashPt keyedHash (receiver.counter + i) (mulScalar receiver.s x)

variable {sender receiver} in
theorem Linked.mask_eq (h : Linked sender receiver) (i : ℕ) (b : Bool) (x : Scalar) :
    (if b then (sender.masks keyedHash i (receiver.point b x)).2
      else (sender.masks keyedHash i (receiver.point b x)).1) = receiver.mask keyedHash i x := by
  rw [Receiver.mask, ← h.key_eq b x, h.counter, Sender.masks]
  cases b <;> rfl

theorem exchange_key (i : ℕ) (b : Bool) (x : Scalar) :
    Exchange (do
        let r ← readPt
        return sender.masks keyedHash i r : Program UInt8 OtError (Block × Block))
      (do
        writePt (receiver.point b x)
        return receiver.mask keyedHash i x : Program UInt8 OtError Block)
      (.ok (sender.masks keyedHash i (receiver.point b x)))
      (.ok (receiver.mask keyedHash i x)) :=
  .bind (exchange_pt _).symm (.pure _ _)

/-- A pair of masked blocks, of which one is unmasked. -/
theorem exchange_masked (c₀ c₁ k : Block) (b : Bool) :
    Exchange (do
        writeBlock c₀
        writeBlock c₁ : Program UInt8 OtError Unit)
      (do
        let c0 ← readBlock
        let c1 ← readBlock
        return k ^^^ (if b then c1 else c0) : Program UInt8 OtError Block)
      (.ok ()) (.ok (k ^^^ (if b then c₁ else c₀))) :=
  .bind (exchange_block c₀) ((exchange_block c₁).map_right _)

variable {sender receiver} in
/-- **One transfer.** -/
theorem Linked.exchange (h : Linked sender receiver) {n : ℕ} (m : Fin n → Block × Block)
    (b : Fin n → Bool) (xs : ℕ → Scalar) :
    Exchange (sender.send keyedHash (List.ofFn m)) (receiver.receive keyedHash (List.ofFn b) xs)
      (.ok { sender with counter := sender.counter + n })
      (.ok (List.ofFn fun i => if b i then (m i).2 else (m i).1,
        { receiver with counter := receiver.counter + n })) := by
  rw [Sender.send, Receiver.receive, List.length_ofFn, List.length_ofFn, zipIdx_ofFn,
    range_eq_ofFn]
  refine .bind (exchange_mapM fun i => exchange_key keyedHash sender receiver i (b i) (xs i)) ?_
  rw [List.zip, List.zip, zipWith_ofFn, zipWith_ofFn]
  refine .bind (exchange_forM_mapM fun i => exchange_masked _ _ _ (b i)) ?_
  have hout : ∀ i : Fin n, receiver.mask keyedHash i (xs i) ^^^
      (if b i then (sender.masks keyedHash i (receiver.point (b i) (xs i))).2 ^^^ (m i).2
        else (sender.masks keyedHash i (receiver.point (b i) (xs i))).1 ^^^ (m i).1) =
      if b i then (m i).2 else (m i).1 := by
    intro i
    rw [← h.mask_eq keyedHash i (b i) (xs i)]
    cases b i with
    | true => rw [if_pos rfl, if_pos rfl, if_pos rfl, ← BitVec.xor_assoc, BitVec.xor_self,
        BitVec.zero_xor]
    | false => rw [if_neg Bool.false_ne_true, if_neg Bool.false_ne_true,
        if_neg Bool.false_ne_true, ← BitVec.xor_assoc, BitVec.xor_self, BitVec.zero_xor]
  simp only [hout]
  exact .pure _ _

end Transfer

end ChouOrlandi

/-- **The base transfer delivers** the blocks chosen. -/
theorem chouOrlandi_correct : (chouOrlandi G keyedHash).Correct Linked where
  init y _ := ⟨{ y, s := mulBase y, counter := 0 }, { s := mulBase y, counter := 0 },
    ⟨rfl, rfl, rfl⟩, exchange_init y⟩
  transfer {sender receiver} h inputs choices _ xs hlen := by
    obtain ⟨n, b, rfl⟩ : ∃ n, ∃ b : Fin n → Bool, choices = List.ofFn b :=
      ⟨_, exists_ofFn rfl⟩
    obtain ⟨m, rfl⟩ := exists_ofFn (hlen.trans List.length_ofFn)
    refine ⟨{ sender with counter := sender.counter + n },
      { receiver with counter := receiver.counter + n },
      ⟨h.s_eq, h.point, congrArg (· + n) h.counter⟩, ?_⟩
    rw [chosen, zipWith_ofFn]
    exact h.exchange keyedHash m b xs

/-! ### What the sender sees -/

namespace ChouOrlandi

/-- The scalars with which other choices send the same points. -/
def shift (y : Scalar) (choices choices' : List Bool) : (ℕ → Scalar) ≃ (ℕ → Scalar) :=
  Equiv.addRight fun i =>
    (if choices.getD i false then y else 0) - if choices'.getD i false then y else 0

variable {receiver : Receiver G} {y : Scalar}

omit [PointEncoding G] in
/-- A choice moves the scalar. -/
theorem point_eq (hs : receiver.s = mulBase y) (b : Bool) (x : Scalar) :
    receiver.point b x = mulBase (x + if b then y else 0) := by
  have hmem : basepoint ∈ primeSubgroup G := BasePoint.basepoint_mem
  have hadd : (mulBase y + mulBase x : G) = mulBase (x + y) := by
    rw [mulBase, mulBase, mulBase, mulScalar_coe ⟨_, hmem⟩, mulScalar_coe ⟨_, hmem⟩,
      mulScalar_coe ⟨_, hmem⟩, add_comm x, add_smul, AddSubgroup.coe_add]
  cases b with
  | true =>
      rw [if_pos rfl, ← hadd, ← hs]
      refine congrArg (· + mulBase x) ?_
      rw [if_pos rfl, mulScalar, ZMod.val_one, one_nsmul]
  | false =>
      rw [if_neg (by decide), add_zero]
      refine (congrArg (· + mulBase x) (mulScalar_zero_right receiver.s)).trans ?_
      exact zero_add _

open Program (Alike)

/-- **The choices are hidden**: with other choices the receiver does the same on other scalars, one
for each. -/
theorem receive_hides (hs : receiver.s = mulBase y) {choices choices' : List Bool}
    (hlen : choices.length = choices'.length) (xs : ℕ → Scalar) :
    Alike (fun r r' => r.2 = r'.2) (receiver.receive keyedHash choices xs)
      (receiver.receive keyedHash choices' (shift y choices choices' xs)) := by
  have hpoint : ∀ i (h : i < choices.length) (h' : i < choices'.length),
      receiver.point choices'[i] (shift y choices choices' xs i) =
        receiver.point choices[i] (xs i) := by
    intro i h h'
    have hshift : shift y choices choices' xs i =
        xs i + ((if choices[i] then y else 0) - if choices'[i] then y else 0) := by
      rw [← List.getD_eq_getElem _ false h, ← List.getD_eq_getElem _ false h']
      rfl
    rw [point_eq hs, point_eq hs, hshift]
    exact congrArg mulBase (by ring)
  refine .bind (.mapM (R := fun _ _ => True) (List.forall₂_iff_get.mpr ⟨by simp [hlen], ?_⟩))
    fun hks => .bind (.mapM (R := fun _ _ => True) (List.forall₂_iff_get.mpr ⟨?_, ?_⟩))
      fun _ => .pure ?_
  · intro i h h'
    simp only [List.get_eq_getElem, List.getElem_zipIdx, zero_add]
    rw [hpoint i (by simpa using h) (by simpa using h')]
    exact .bind (.write _) fun _ => .pure trivial
  · rw [List.length_zip, List.length_zip, hlen, hks.length_eq]
  · intro i h h'
    have hblock : Alike (fun _ _ => True) (readBlock : Program UInt8 OtError Block) readBlock :=
      .bind (.read 16 _) fun _ => .pure trivial
    exact .bind hblock fun _ => .bind hblock fun _ => .pure trivial
  · rw [hlen]

end ChouOrlandi

end MaliciousPsu
