import MaliciousPsu.Ot.Transfer
import MaliciousPsu.Ot.Transpose

/-!
# The extension of a transfer

`alsz.rs`: from 128 base transfers of seeds, any number of transfers.  The extension's sender
chooses among the seeds by the bits of `s`, and each transfer takes one more column of the two
matrices of bits that the seeds generate.

* `Linked.exchange_setup`: column `j` of the sender is that of the receiver, plus `s` where the
  receiver's choice is `true`; the generators stay in step.
* `alsz_correct`: the receiver gets the blocks that it chose.
-/

namespace MaliciousPsu

/-- `AesRng`. -/
structure AesRng where
  State : Type
  fromSeed : Block → State
  fillBytes : State → ℕ → List UInt8 × State
  length_fillBytes : ∀ rng k, (fillBytes rng k).1.length = k

/-- The cipher in counter mode, read in words of 64 bits; a call drops what it leaves of a word. -/
def aesRng (aes : Block → Block → Block) : AesRng where
  State := Block × ℕ
  fromSeed seed := (seed, 0)
  fillBytes rng k :=
    let word i := leBytes 8
      ((aes rng.1 (BitVec.ofNat 128 (i / 2 % 2 ^ 64))).toNat / 2 ^ (64 * (i % 2)) % 2 ^ 64)
    (((List.range ((k + 7) / 8)).flatMap fun i => word (rng.2 + i)).take k,
      (rng.1, rng.2 + (k + 7) / 8))
  length_fillBytes rng k := by
    have hlen : ∀ n, (List.flatMap (fun i => leBytes 8
        ((aes rng.1 (BitVec.ofNat 128 ((rng.2 + i) / 2 % 2 ^ 64))).toNat /
          2 ^ (64 * ((rng.2 + i) % 2)) % 2 ^ 64)) (List.range n)).length = n * 8 := by
      intro n
      rw [List.length_flatMap, List.map_congr_left fun i _ => length_leBytes 8 _,
        List.map_const', List.sum_replicate, List.length_range, smul_eq_mul]
    rw [List.length_take, hlen]
    omega

/-- `Block::from(<[u8; 16]>::try_from(&bytes[j * 16..(j + 1) * 16]))`. -/
def blockAt (bytes : List UInt8) (j : ℕ) : Block := Block.ofBytes ((bytes.drop (j * 16)).take 16)

/-- `m`, rounded up to a multiple of 8. -/
def roundUp (m : ℕ) : ℕ := if m % 8 != 0 then m + (8 - m % 8) else m

/-- `AesHash::cr_hash`, for the fixed-key cipher `aes`. -/
def crHash (aes : Block → Block) (x : Block) : Block := aes x ^^^ x

namespace Alsz

/-- `Sender`. -/
structure Sender (R : AesRng) where
  s : List Bool
  s_ : Block
  rngs : List R.State

/-- `Receiver`. -/
structure Receiver (R : AesRng) where
  rngs : List (R.State × R.State)

variable (T : ObliviousTransfer) (R : AesRng) (aes : Block → Block)

/-- `Sender::init_fixed_key`. -/
def Sender.initFixedKey (s_ : Block) (coins : T.ReceiverInit × T.ReceiveCoins) :
    Program UInt8 OtError (Sender R) := do
  let ot ← T.initReceiver coins.1
  let s := u8vecToBoolvec (Block.bytes s_)
  let (ks, _) ← T.receive ot s coins.2
  let rngs := ks.map R.fromSeed
  return { s, s_, rngs }

/-- `Receiver::init`, on the pairs of seeds that it draws. -/
def Receiver.init (ks : Fin 128 → Block × Block) (coins : T.SenderInit × T.SendCoins) :
    Program UInt8 OtError (Receiver R) := do
  let ot ← T.initSender coins.1
  let ks := List.ofFn ks
  let _ ← T.send ot ks coins.2
  let rngs := ks.map fun k => (R.fromSeed k.1, R.fromSeed k.2)
  return { rngs }

variable {R}

/-- `Sender::send_setup`. -/
def Sender.sendSetup (sender : Sender R) (m : ℕ) :
    Program UInt8 OtError (List UInt8 × Sender R) := do
  let nrows := 128
  let ncols := roundUp m
  let zero : List UInt8 := List.replicate (ncols / 8) 0
  let qs ← (sender.s.zip sender.rngs).mapM fun x => do
    let u ← readBytes (ncols / 8)
    let q := R.fillBytes x.2 (ncols / 8)
    return (xorInplace q.1 (if x.1 then u else zero), q.2)
  -- rows that no generator fills stay zero
  let rows := qs.map Prod.fst ++ List.replicate (nrows - qs.length) zero
  return (sseTrans rows.flatten nrows ncols, { sender with rngs := qs.map Prod.snd })

/-- `Receiver::receive_setup`. -/
def Receiver.receiveSetup (receiver : Receiver R) (r : List UInt8) (m : ℕ) :
    Program UInt8 OtError (List UInt8 × Receiver R) := do
  let nrows := 128
  let ncols := roundUp m
  let zero : List UInt8 := List.replicate (ncols / 8) 0
  let ts ← receiver.rngs.mapM fun rngs => do
    let t := R.fillBytes rngs.1 (ncols / 8)
    let g := R.fillBytes rngs.2 (ncols / 8)
    writeBytes (xorInplace (xorInplace g.1 t.1) r)
    return (t.1, t.2, g.2)
  let rows := ts.map Prod.fst ++ List.replicate (nrows - ts.length) zero
  return (sseTrans rows.flatten nrows ncols, { rngs := ts.map Prod.snd })

/-- `Sender::send`. -/
def Sender.send (sender : Sender R) (inputs : List (Block × Block)) :
    Program UInt8 OtError (Sender R) := do
  let m := inputs.length
  let (qs, sender) ← sender.sendSetup m
  inputs.zipIdx.forM fun input => do
    let q := blockAt qs input.2
    let y0 := crHash aes q ^^^ input.1.1
    let q := q ^^^ sender.s_
    let y1 := crHash aes q ^^^ input.1.2
    writeBlock y0
    writeBlock y1
  return sender

/-- `Receiver::receive`. -/
def Receiver.receive (receiver : Receiver R) (inputs : List Bool) :
    Program UInt8 OtError (List Block × Receiver R) := do
  let r := boolvecToU8vec inputs
  let (ts, receiver) ← receiver.receiveSetup r inputs.length
  let out ← inputs.zipIdx.mapM fun input => do
    let t := blockAt ts input.2
    let y0 ← readBlock
    let y1 ← readBlock
    let y := if input.1 then y1 else y0
    return y ^^^ crHash aes t
  return (out, receiver)

end Alsz

/-! ### Columns -/

section Columns

theorem eight_dvd_roundUp (m : ℕ) : roundUp m = 8 * ((m + 7) / 8) := by
  rw [roundUp]
  by_cases h : m % 8 = 0
  · rw [if_neg (by simp [h])]
    omega
  · rw [if_pos (by simpa using h)]
    omega

theorem le_roundUp (m : ℕ) : m ≤ roundUp m := by
  rw [eight_dvd_roundUp]
  omega

/-- The bits of the block at `j`. -/
theorem getLsbD_blockAt (bytes : List UInt8) (j : ℕ) {c : ℕ} (hc : c < 128) :
    (blockAt bytes j).getLsbD c = getBit bytes (j * 128 + c) := by
  rw [blockAt, Block.getLsbD_ofBytes hc, getBit, getBit, List.getD_eq_getElem?_getD,
    List.getElem?_take_of_lt (by omega), List.getElem?_drop, ← List.getD_eq_getElem?_getD,
    show j * 16 + c / 8 = (j * 128 + c) / 8 by omega, show (j * 128 + c) % 8 = c % 8 by omega]

/-- **Block `j` of the transposed rows** is column `j`. -/
theorem getLsbD_column {k : ℕ} (row : Fin 128 → List UInt8) (hrow : ∀ i, (row i).length = k)
    {j : ℕ} (hj : j < 8 * k) (c : Fin 128) :
    (blockAt (sseTrans (List.ofFn row).flatten 128 (8 * k)) j).getLsbD c = getBit (row c) j := by
  have h := (sseTrans_isTranspose 8 k (List.ofFn row).flatten).getBit c c.isLt j hj
  have hlen : ∀ r ∈ List.ofFn row, r.length = k := by
    intro r hr
    obtain ⟨i, rfl⟩ := List.mem_ofFn.mp hr
    exact hrow i
  rw [getLsbD_blockAt _ _ c.isLt]
  refine h.trans ((getBit_flatten hlen hj).trans ?_)
  rw [List.getD_eq_getElem _ _ (List.length_ofFn.symm ▸ c.isLt), List.getElem_ofFn]

end Columns

/-! ### Correctness -/

namespace Alsz

open Session

variable {R : AesRng}

/-- A sender that has, of each pair of the receiver's generators, the one that its bit names. -/
structure Linked (sender : Sender R) (receiver : Receiver R) : Prop where
  s_eq : sender.s = u8vecToBoolvec (Block.bytes sender.s_)
  length : receiver.rngs.length = 128
  rngs : sender.rngs =
    List.zipWith (fun b rngs => if b then rngs.2 else rngs.1) sender.s receiver.rngs

/-- The bits of a block, in order. -/
theorem u8vecToBoolvec_bytes (s : Block) :
    u8vecToBoolvec (Block.bytes s) = List.ofFn fun c : Fin 128 => s.getLsbD c := by
  have hlen : (u8vecToBoolvec (Block.bytes s)).length = 128 := by
    rw [length_u8vecToBoolvec, Block.length_bytes]
  refine List.ext_getElem (hlen.trans List.length_ofFn.symm) fun i hi hi' => ?_
  rw [← List.getD_eq_getElem _ false hi, getD_u8vecToBoolvec, List.getElem_ofFn,
    ← Block.getLsbD_ofBytes (hlen ▸ hi), Block.ofBytes_bytes]

theorem length_xorInplace₃ {k : ℕ} {g t r : List UInt8} (hg : g.length = k) (ht : t.length = k)
    (hr : r.length = k) : (xorInplace (xorInplace g t) r).length = k := by
  rw [length_xorInplace (by rw [length_xorInplace (hg.trans ht.symm), hg, hr]),
    length_xorInplace (hg.trans ht.symm), hg]

/-- A row of the sender's matrix, from its generator's bytes and the row that arrived. -/
theorem getBit_row {k : ℕ} {g t r : List UInt8} (hg : g.length = k) (ht : t.length = k)
    (hr : r.length = k) (b : Bool) (i : ℕ) :
    getBit (xorInplace (if b then g else t)
        (if b then xorInplace (xorInplace g t) r else List.replicate k 0)) i =
      (getBit t i ^^ (b && getBit r i)) := by
  have hgt : g.length = t.length := hg.trans ht.symm
  have hzero : getBit (List.replicate k 0) i = false := by
    rw [getBit, getD_replicate_self]
    simp
  cases b with
  | true =>
      rw [if_pos rfl, if_pos rfl, getBit_xorInplace (by rw [length_xorInplace₃ hg ht hr, hg]),
        getBit_xorInplace (by rw [length_xorInplace hgt, hg, hr]), getBit_xorInplace hgt,
        Bool.true_and, ← Bool.xor_assoc, ← Bool.xor_assoc, Bool.xor_self, Bool.false_xor]
  | false =>
      rw [if_neg (by decide), if_neg (by decide), getBit_xorInplace (by simp [ht]), hzero,
        Bool.false_and]

/-- **The setup**: column `j` of the sender is that of the receiver, plus `s` where `r` has a one;
the generators stay in step. -/
theorem Linked.exchange_setup {sender : Sender R} {receiver : Receiver R}
    (h : Linked sender receiver) (m : ℕ) {r : List UInt8} (hr : r.length = roundUp m / 8) :
    ∃ qs ts sender' receiver', Linked sender' receiver' ∧ sender'.s_ = sender.s_ ∧
      Exchange (sender.sendSetup m) (receiver.receiveSetup r m) (.ok (qs, sender'))
        (.ok (ts, receiver')) ∧
      ∀ j < roundUp m, blockAt qs j = blockAt ts j ^^^ if getBit r j then sender.s_ else 0 := by
  obtain ⟨ρ, hρ⟩ := exists_ofFn h.length
  have hs : sender.s = List.ofFn fun c : Fin 128 => sender.s_.getLsbD c :=
    h.s_eq.trans (u8vecToBoolvec_bytes _)
  have hrngs := h.rngs
  rw [hs, hρ, zipWith_ofFn] at hrngs
  generalize hk : roundUp m / 8 = k at hr
  have hncols : roundUp m = 8 * k := by
    rw [← hk, eight_dvd_roundUp, Nat.mul_div_cancel_left _ (by decide)]
  let σ (c : Fin 128) : Bool := sender.s_.getLsbD c
  let t (c : Fin 128) := R.fillBytes (ρ c).1 k
  let g (c : Fin 128) := R.fillBytes (ρ c).2 k
  let u (c : Fin 128) := xorInplace (xorInplace (g c).1 (t c).1) r
  let q (c : Fin 128) := R.fillBytes (if σ c then (ρ c).2 else (ρ c).1) k
  let row (c : Fin 128) := xorInplace (q c).1 (if σ c then u c else List.replicate k 0)
  have ht : ∀ c, (t c).1.length = k := fun c => R.length_fillBytes _ _
  have hg : ∀ c, (g c).1.length = k := fun c => R.length_fillBytes _ _
  have hu : ∀ c, (u c).length = k := fun c => length_xorInplace₃ (hg c) (ht c) hr
  have hq : ∀ c, q c = if σ c then g c else t c := by
    intro c
    simp only [q, g, t]
    cases σ c <;> rfl
  have hbit : ∀ c i, getBit (row c) i = (getBit (t c).1 i ^^ (σ c && getBit r i)) := by
    intro c i
    have hfst : (q c).1 = if σ c then (g c).1 else (t c).1 := by
      rw [hq]
      cases σ c <;> rfl
    have hrow := getBit_row (hg c) (ht c) hr (σ c) i
    rw [← hfst] at hrow
    exact hrow
  have hrow : ∀ c, (row c).length = k := by
    intro c
    have hlen : (q c).1.length = k := R.length_fillBytes _ _
    have hother : (if σ c then u c else List.replicate k 0).length = k := by
      cases σ c <;> simp [hu c]
    exact (length_xorInplace (hlen.trans hother.symm)).trans hlen
  refine ⟨sseTrans (List.ofFn row).flatten 128 (8 * k),
    sseTrans (List.ofFn fun c => (t c).1).flatten 128 (8 * k),
    { sender with rngs := List.ofFn fun c => (q c).2 },
    { rngs := List.ofFn fun c => ((t c).2, (g c).2) }, ⟨h.s_eq, List.length_ofFn, ?_⟩, rfl, ?_, ?_⟩
  · rw [hs, zipWith_ofFn]
    refine congrArg List.ofFn (funext fun c => ?_)
    change (q c).2 = if σ c then (g c).2 else (t c).2
    rw [hq]
    cases σ c <;> rfl
  · rw [Sender.sendSetup, Receiver.receiveSetup, hncols, Nat.mul_div_cancel_left k (by decide),
      hrngs, hρ, hs, List.zip, zipWith_ofFn]
    have hturn : ∀ c : Fin 128, Exchange (do
          let u ← readBytes k
          return (xorInplace (q c).1 (if σ c then u else List.replicate k 0), (q c).2) :
          Program UInt8 OtError (List UInt8 × R.State))
        (do
          writeBytes (u c)
          return ((t c).1, (t c).2, (g c).2) :
          Program UInt8 OtError (List UInt8 × R.State × R.State))
        (.ok (row c, (q c).2)) (.ok ((t c).1, (t c).2, (g c).2)) :=
      fun c => .bind (exchange_bytes (hu c)).symm (.pure _ _)
    refine .bind (exchange_mapM hturn) ?_
    simp only [List.length_ofFn, Nat.sub_self, List.replicate_zero, List.append_nil, List.map_ofFn]
    exact .pure _ _
  · intro j hj
    rw [hncols] at hj
    refine BitVec.eq_of_getLsbD_eq fun c hc => ?_
    rw [BitVec.getLsbD_xor, getLsbD_column row hrow hj ⟨c, hc⟩,
      getLsbD_column (fun c => (t c).1) ht hj ⟨c, hc⟩, hbit]
    refine congrArg (getBit (t ⟨c, hc⟩).1 j ^^ ·) ?_
    cases getBit r j with
    | true => rw [if_pos rfl, Bool.and_true]
    | false => simp

/-- A pair of blocks under hashes of a column, of which the receiver opens the one it chose. -/
theorem exchange_pair (hash : Block → Block) {q t s : Block} {b : Bool}
    (hq : q = t ^^^ if b then s else 0) (input : Block × Block) :
    Exchange (do
        writeBlock (hash q ^^^ input.1)
        writeBlock (hash (q ^^^ s) ^^^ input.2) : Program UInt8 OtError Unit)
      (do
        let y0 ← readBlock
        let y1 ← readBlock
        return (if b then y1 else y0) ^^^ hash t : Program UInt8 OtError Block)
      (.ok ()) (.ok (if b then input.2 else input.1)) := by
  have hout : (if b then hash (q ^^^ s) ^^^ input.2 else hash q ^^^ input.1) ^^^ hash t =
      if b then input.2 else input.1 := by
    subst hq
    cases b with
    | true =>
        rw [if_pos rfl, if_pos rfl, if_pos rfl, BitVec.xor_assoc t, BitVec.xor_self,
          BitVec.xor_zero, BitVec.xor_comm, ← BitVec.xor_assoc, BitVec.xor_self, BitVec.zero_xor]
    | false =>
        rw [if_neg (by decide), if_neg (by decide), if_neg (by decide), BitVec.xor_comm,
          ← BitVec.xor_assoc]
        simp
  rw [← hout]
  exact .bind (exchange_block _) ((exchange_block _).map_right _)

variable {T : ObliviousTransfer} {Base : T.Sender → T.Receiver → Prop}

/-- **The base transfers** hand the sender the seeds of its generators. -/
theorem exchange_init (hT : T.Correct Base) (s_ : Block) (ks : Fin 128 → Block × Block)
    (c : T.ReceiverInit × T.ReceiveCoins) (c' : T.SenderInit × T.SendCoins) :
    ∃ sender receiver, Linked sender receiver ∧ sender.s_ = s_ ∧
      Exchange (Sender.initFixedKey T R s_ c) (Receiver.init T R ks c') (.ok sender)
        (.ok receiver) := by
  obtain ⟨otSender, otReceiver, hl, hinit⟩ := hT.init c'.1 c.1
  obtain ⟨otSender', otReceiver', -, htransfer⟩ := hT.transfer hl (List.ofFn ks)
    (u8vecToBoolvec (Block.bytes s_)) c'.2 c.2 (by
      rw [List.length_ofFn, length_u8vecToBoolvec, Block.length_bytes])
  refine ⟨_, _, ⟨rfl, ?_, ?_⟩, rfl, .bind hinit.symm (.bind htransfer.symm (.pure _ _))⟩
  · rw [List.length_map, List.length_ofFn]
  · rw [u8vecToBoolvec_bytes, chosen, zipWith_ofFn, List.map_ofFn, List.map_ofFn, zipWith_ofFn]
    refine congrArg List.ofFn (funext fun c => ?_)
    simp only [Function.comp_apply]
    cases s_.getLsbD c <;> rfl

/-- **One transfer.** -/
theorem Linked.exchange (aes : Block → Block) {sender : Sender R} {receiver : Receiver R}
    (h : Linked sender receiver) {n : ℕ} (input : Fin n → Block × Block) (b : Fin n → Bool) :
    ∃ sender' receiver', Linked sender' receiver' ∧
      Exchange (sender.send aes (List.ofFn input)) (receiver.receive aes (List.ofFn b))
        (.ok sender') (.ok (List.ofFn fun i => if b i then (input i).2 else (input i).1,
          receiver')) := by
  obtain ⟨qs, ts, sender', receiver', hl, hs, hsetup, hcol⟩ := h.exchange_setup n
    (r := boolvecToU8vec (List.ofFn b)) (by
      rw [length_boolvecToU8vec, List.length_ofFn, eight_dvd_roundUp]
      omega)
  refine ⟨sender', receiver', hl, ?_⟩
  rw [Sender.send, Receiver.receive, List.length_ofFn, List.length_ofFn, zipIdx_ofFn, zipIdx_ofFn]
  refine .bind hsetup (.bind (exchange_forM_mapM fun j => ?_) (.pure _ _))
  have hq := hcol j (j.isLt.trans_le (le_roundUp n))
  rw [getBit_boolvecToU8vec, List.getD_eq_getElem _ _ (by simp), List.getElem_ofFn, ← hs] at hq
  exact exchange_pair (crHash aes) hq (input j)

end Alsz

open Alsz

/-- `AlszSender` and `AlszReceiver`, for any base transfer. -/
def alsz (T : ObliviousTransfer) (R : AesRng) (aes : Block → Block) : ObliviousTransfer where
  Sender := Alsz.Sender R
  Receiver := Alsz.Receiver R
  SenderInit := Block × T.ReceiverInit × T.ReceiveCoins
  ReceiverInit := (Fin 128 → Block × Block) × T.SenderInit × T.SendCoins
  SendCoins := Unit
  ReceiveCoins := Unit
  initSender coins := Alsz.Sender.initFixedKey T R coins.1 coins.2
  initReceiver coins := Alsz.Receiver.init T R coins.1 coins.2
  send sender inputs _ := sender.send aes inputs
  receive receiver inputs _ := receiver.receive aes inputs

/-- **The extension delivers** the blocks chosen, over any base transfer that does. -/
theorem alsz_correct {T : ObliviousTransfer} {Base : T.Sender → T.Receiver → Prop}
    (hT : T.Correct Base) (R : AesRng) (aes : Block → Block) :
    (alsz T R aes).Correct Linked where
  init c c' := by
    obtain ⟨sender, receiver, hl, -, hinit⟩ := exchange_init (R := R) hT c.1 c'.1 c.2 c'.2
    exact ⟨sender, receiver, hl, hinit⟩
  transfer {sender receiver} h inputs choices _ _ hlen := by
    obtain ⟨n, b, rfl⟩ : ∃ n, ∃ b : Fin n → Bool, choices = List.ofFn b :=
      ⟨_, exists_ofFn rfl⟩
    obtain ⟨input, rfl⟩ := exists_ofFn (hlen.trans List.length_ofFn)
    rw [chosen, zipWith_ofFn]
    exact h.exchange aes input b

end MaliciousPsu
