import MaliciousPsu.Ot.Alsz
import MaliciousPsu.Ot.Carryless

/-!
# The extension with a consistency check

`kos.rs`: the extension of `alsz.rs` on 168 columns more, with a check that the receiver used the
same choices in all 128 rows.  Both sides add up the columns with the coefficients of a coin toss,
as polynomials over the field of two elements.

* `CoinToss.exchange`: both sides of a coin toss get the same coins.
* `checkFails_eq_false_iff`: what the check compares.
* `kos_correct`: an honest receiver passes it and gets the blocks that it chose.
-/

namespace MaliciousPsu

open Polynomial Session

/-! ### Coin tossing -/

namespace CoinToss

variable (R : AesRng)

/-- `PRG(seed)`, a block of it. -/
def commitment (seed : Block) : Block := Block.ofBytes (R.fillBytes (R.fromSeed seed) 16).1

/-- `cointoss::send`. -/
def send (seeds : List Block) : Program UInt8 CoinTossError (List Block) := do
  seeds.forM fun seed => writeBlock (commitment R seed)
  let out ← seeds.mapM fun seed => do
    let seed_ ← readBlock
    return seed ^^^ seed_
  seeds.forM writeBlock
  return out

/-- `cointoss::receive`. -/
def receive (seeds : List Block) : Program UInt8 CoinTossError (List Block) := do
  let coms ← seeds.mapM fun _ => readBlock
  seeds.forM writeBlock
  (seeds.zip coms).mapM fun x => do
    let seed_ ← readBlock
    if commitment R seed_ != x.2 then .lift (.error .commitmentCheckFailed)
    else return x.1 ^^^ seed_

/-- **Both sides get the same coins.** -/
theorem exchange {n : ℕ} (s r : Fin n → Block) :
    Exchange (send R (List.ofFn s)) (receive R (List.ofFn r))
      (.ok (List.ofFn fun i => s i ^^^ r i)) (.ok (List.ofFn fun i => s i ^^^ r i)) := by
  have hreply : Exchange ((List.ofFn r).forM writeBlock : Program UInt8 CoinTossError Unit)
      ((List.ofFn s).mapM fun seed => do
        let seed_ ← readBlock
        return seed ^^^ seed_ : Program UInt8 CoinTossError (List Block)) (.ok ())
      (.ok (List.ofFn fun i => s i ^^^ r i)) :=
    exchange_forM_mapM fun i => (exchange_block (r i)).map_right _
  have hopen : Exchange ((List.ofFn s).forM writeBlock : Program UInt8 CoinTossError Unit)
      ((List.ofFn fun i => (r i, commitment R (s i))).mapM fun x => do
        let seed_ ← readBlock
        if commitment R seed_ != x.2 then .lift (.error .commitmentCheckFailed)
        else return x.1 ^^^ seed_ : Program UInt8 CoinTossError (List Block)) (.ok ())
      (.ok (List.ofFn fun i => s i ^^^ r i)) := by
    refine exchange_forM_mapM fun i => ?_
    have hlast : Exchange (pure () : Program UInt8 CoinTossError Unit)
        (if commitment R (s i) != commitment R (s i) then .lift (.error .commitmentCheckFailed)
          else pure (r i ^^^ s i) : Program UInt8 CoinTossError Block) (.ok ())
        (.ok (s i ^^^ r i)) := by
      rw [if_neg (by simp), BitVec.xor_comm]
      exact .pure _ _
    rw [← bind_pure (writeBlock (s i))]
    exact .bind (exchange_block (s i)) hlast
  refine .bind (exchange_forM_mapM fun i => exchange_block (commitment R (s i))) ?_
  refine .bind hreply.symm ?_
  rw [List.zip, zipWith_ofFn]
  exact (hopen.symm.map_right _).symm

end CoinToss

/-! ### The check -/

/-- The challenges: a block of the generator for each column. -/
def challenges (R : AesRng) (rng : R.State) : ℕ → List Block
  | 0 => []
  | n + 1 => Block.ofBytes (R.fillBytes rng 16).1 :: challenges R (R.fillBytes rng 16).2 n

/-- `xor_two_blocks`. -/
def xorTwoBlocks (x y : Block × Block) : Block × Block := (x.1 ^^^ y.1, x.2 ^^^ y.2)

/-- The columns, each multiplied by its challenge, added up. -/
def checksum (columns chis : List Block) : Block × Block :=
  (columns.zip chis).foldl (fun sum x => xorTwoBlocks sum (carrylessMulWide x.1 x.2)) (0, 0)

/-- The challenges of the columns that are chosen, added up. -/
def choiceSum (r : List Bool) (chis : List Block) : Block :=
  (r.zip chis).foldl (fun sum x => sum ^^^ if x.1 then x.2 else 0) 0

/-- `check != (t0, t1)`, of the sender. -/
def checkFails (columns chis : List Block) (s_ x t0 t1 : Block) : Bool :=
  xorTwoBlocks (checksum columns chis) (carrylessMulWide x s_) != (t0, t1)

/-- `SSP`. -/
def SSP : ℕ := 40

/-- `AesHash::tccr_hash`, for the fixed-key cipher `aes`. -/
def tccrHash (aes : Block → Block) (i x : Block) : Block :=
  let y := aes x
  let t := y ^^^ i
  let z := aes t
  y ^^^ z

namespace Kos

open Alsz

variable {R : AesRng} (aes : Block → Block)

/-- `Sender::send_setup`, on the seed that it draws. -/
def sendSetup (sender : Alsz.Sender R) (m : ℕ) (seed : Block) :
    Program UInt8 OtError (List UInt8 × Alsz.Sender R) := do
  let m := roundUp m
  let ncols := m + 128 + SSP
  let (qs, sender) ← sender.sendSetup ncols
  let seed ← (CoinToss.send R [seed]).mapError .coinTossError
  let chis := challenges R (R.fromSeed (seed.getD 0 0)) ncols
  let x ← readBlock
  let t0 ← readBlock
  let t1 ← readBlock
  if checkFails ((List.range ncols).map (blockAt qs)) chis sender.s_ x t0 t1 then
    .lift (.error (.ioError (.invalidData "Consistency check failed")))
  else return (qs, sender)

/-- `Receiver::receive_setup`, on the bytes and the seed that it draws. -/
def receiveSetup (receiver : Alsz.Receiver R) (inputs : List Bool) (pad : ℕ → UInt8)
    (seed : Block) : Program UInt8 OtError (List UInt8 × Alsz.Receiver R) := do
  let m := roundUp inputs.length
  let m_ := m + 128 + SSP
  let r := boolvecToU8vec inputs ++ (List.range ((m_ - m) / 8)).map pad
  let (ts, receiver) ← receiver.receiveSetup r m_
  let seed ← (CoinToss.receive R [seed]).mapError .coinTossError
  let r_ := u8vecToBoolvec r
  let chis := challenges R (R.fromSeed (seed.getD 0 0)) r_.length
  let x := choiceSum r_ chis
  let t := checksum ((List.range r_.length).map (blockAt ts)) chis
  writeBlock x
  writeBlock t.1
  writeBlock t.2
  return (ts, receiver)

/-- `Sender::send`. -/
def send (sender : Alsz.Sender R) (inputs : List (Block × Block)) (seed : Block) :
    Program UInt8 OtError (Alsz.Sender R) := do
  let m := inputs.length
  let (qs, sender) ← sendSetup sender m seed
  inputs.zipIdx.forM fun input => do
    let q := blockAt qs input.2
    let y0 := tccrHash aes (BitVec.ofNat 128 input.2) q ^^^ input.1.1
    let q := q ^^^ sender.s_
    let y1 := tccrHash aes (BitVec.ofNat 128 input.2) q ^^^ input.1.2
    writeBlock y0
    writeBlock y1
  return sender

/-- `Receiver::receive`. -/
def receive (receiver : Alsz.Receiver R) (inputs : List Bool) (pad : ℕ → UInt8) (seed : Block) :
    Program UInt8 OtError (List Block × Alsz.Receiver R) := do
  let (ts, receiver) ← receiveSetup receiver inputs pad seed
  let out ← inputs.zipIdx.mapM fun input => do
    let t := blockAt ts input.2
    let y0 ← readBlock
    let y1 ← readBlock
    let y := if input.1 then y1 else y0
    return y ^^^ tccrHash aes (BitVec.ofNat 128 input.2) t
  return (out, receiver)

end Kos

/-- `KosSender` and `KosReceiver`, for any base transfer. -/
def kos (T : ObliviousTransfer) (R : AesRng) (aes : Block → Block) : ObliviousTransfer where
  Sender := Alsz.Sender R
  Receiver := Alsz.Receiver R
  SenderInit := Block × T.ReceiverInit × T.ReceiveCoins
  ReceiverInit := (Fin 128 → Block × Block) × T.SenderInit × T.SendCoins
  SendCoins := Block
  ReceiveCoins := (ℕ → UInt8) × Block
  initSender coins := Alsz.Sender.initFixedKey T R coins.1 coins.2
  initReceiver coins := Alsz.Receiver.init T R coins.1 coins.2
  send sender inputs seed := Kos.send aes sender inputs seed
  receive receiver inputs coins := Kos.receive aes receiver inputs coins.1 coins.2

/-! ### What the check compares -/

section Check

/-- Two blocks as a polynomial. -/
noncomputable def wide (p : Block × Block) : (ZMod 2)[X] := gf2 (p.2 ++ p.1)

theorem wide_injective : Function.Injective wide := by
  intro p q h
  have happ := gf2_injective h
  have hlo := congrArg (BitVec.setWidth 128) happ
  have hhi := congrArg (BitVec.extractLsb' 128 128) happ
  rw [BitVec.setWidth_append_eq_right, BitVec.setWidth_append_eq_right] at hlo
  rw [BitVec.extractLsb'_append_eq_left, BitVec.extractLsb'_append_eq_left] at hhi
  exact Prod.ext hlo hhi

theorem wide_xorTwoBlocks (x y : Block × Block) : wide (xorTwoBlocks x y) = wide x + wide y := by
  rw [wide, wide, wide, ← gf2_xor, xorTwoBlocks, BitVec.xor_append]

theorem wide_carrylessMulWide (a b : Block) : wide (carrylessMulWide a b) = gf2 a * gf2 b :=
  gf2_carrylessMulWide a b

variable {n : ℕ}

theorem wide_foldl : ∀ (xs : List (Block × Block)) (sum : Block × Block),
    wide (xs.foldl (fun sum x => xorTwoBlocks sum (carrylessMulWide x.1 x.2)) sum) =
      wide sum + (xs.map fun x => gf2 x.1 * gf2 x.2).sum
  | [], sum => by simp
  | x :: xs, sum => by
      rw [List.foldl_cons, wide_foldl xs, wide_xorTwoBlocks, wide_carrylessMulWide, List.map_cons,
        List.sum_cons, add_assoc]

theorem gf2_foldl : ∀ (xs : List (Bool × Block)) (sum : Block),
    gf2 (xs.foldl (fun sum x => sum ^^^ if x.1 then x.2 else 0) sum) =
      gf2 sum + (xs.map fun x => if x.1 then gf2 x.2 else 0).sum
  | [], sum => by simp
  | x :: xs, sum => by
      rw [List.foldl_cons, gf2_foldl xs, gf2_xor, List.map_cons, List.sum_cons, add_assoc,
        apply_ite gf2, gf2_zero]

/-- The sum of the columns. -/
theorem wide_checksum (q χ : Fin n → Block) :
    wide (checksum (List.ofFn q) (List.ofFn χ)) = ∑ j, gf2 (q j) * gf2 (χ j) := by
  have hzero : wide (0, 0) = 0 := gf2_zero
  rw [checksum, wide_foldl, List.zip, zipWith_ofFn, List.map_ofFn, List.sum_ofFn, hzero, zero_add]
  rfl

/-- The sum of the choices. -/
theorem gf2_choiceSum (b : Fin n → Bool) (χ : Fin n → Block) :
    gf2 (choiceSum (List.ofFn b) (List.ofFn χ)) = ∑ j, if b j then gf2 (χ j) else 0 := by
  have hzero : gf2 (0 : Block) = 0 := gf2_zero
  rw [choiceSum, gf2_foldl, List.zip, zipWith_ofFn, List.map_ofFn, List.sum_ofFn, hzero, zero_add]
  rfl

/-- **What the check compares**, as polynomials. -/
theorem checkFails_eq_false_iff (q χ : Fin n → Block) (s_ x t0 t1 : Block) :
    checkFails (List.ofFn q) (List.ofFn χ) s_ x t0 t1 = false ↔
      ∑ j, gf2 (q j) * gf2 (χ j) + gf2 x * gf2 s_ = wide (t0, t1) := by
  rw [checkFails, bne_eq_false_iff_eq, ← wide_injective.eq_iff, wide_xorTwoBlocks, wide_checksum,
    wide_carrylessMulWide]

/-- **An honest receiver passes.** -/
theorem checkFails_of_honest (t χ : Fin n → Block) (b : Fin n → Bool) (s_ : Block) :
    checkFails (List.ofFn fun j => t j ^^^ if b j then s_ else 0) (List.ofFn χ) s_
      (choiceSum (List.ofFn b) (List.ofFn χ)) (checksum (List.ofFn t) (List.ofFn χ)).1
      (checksum (List.ofFn t) (List.ofFn χ)).2 = false := by
  rw [checkFails_eq_false_iff, gf2_choiceSum, wide_checksum, Finset.sum_mul,
    ← Finset.sum_add_distrib]
  refine Finset.sum_congr rfl fun j _ => ?_
  cases b j with
  | true =>
      have h2 : (2 : (ZMod 2)[X]) = 0 := CharTwo.two_eq_zero
      simp only [if_true, gf2_xor]
      linear_combination gf2 (χ j) * gf2 s_ * h2
  | false => simp

end Check

/-! ### Correctness -/

section Correct

theorem length_challenges (R : AesRng) : ∀ (n : ℕ) (rng : R.State),
    (challenges R rng n).length = n
  | 0, _ => rfl
  | n + 1, rng => by rw [challenges, List.length_cons, length_challenges R n]

theorem getBit_append {as bs : List UInt8} {i : ℕ} (h : i < 8 * as.length) :
    getBit (as ++ bs) i = getBit as i := by
  rw [getBit, getBit, List.getD_append _ _ _ _ (by omega)]

/-- The bits of a byte string, in order. -/
theorem u8vecToBoolvec_eq_ofFn {bs : List UInt8} {n : ℕ} (h : n = 8 * bs.length) :
    u8vecToBoolvec bs = List.ofFn fun j : Fin n => getBit bs j := by
  subst h
  refine List.ext_getElem (by rw [length_u8vecToBoolvec, List.length_ofFn]) fun i hi hi' => ?_
  rw [← List.getD_eq_getElem _ false hi, getD_u8vecToBoolvec, List.getElem_ofFn]

namespace Kos

open Alsz

variable {R : AesRng}

/-- The check between honest parties. -/
theorem exchange_check {α β : Type} {n : ℕ} {q t : Fin n → Block} {b : Fin n → Bool} {s : Block}
    (hq : ∀ j, q j = t j ^^^ if b j then s else 0) (χ : Fin n → Block) (sent : α) (got : β) :
    Exchange (do
        let x ← readBlock
        let t0 ← readBlock
        let t1 ← readBlock
        if checkFails (List.ofFn q) (List.ofFn χ) s x t0 t1 then
          .lift (.error (.ioError (.invalidData "Consistency check failed")))
        else return sent : Program UInt8 OtError α)
      (do
        writeBlock (choiceSum (List.ofFn b) (List.ofFn χ))
        writeBlock (checksum (List.ofFn t) (List.ofFn χ)).1
        writeBlock (checksum (List.ofFn t) (List.ofFn χ)).2
        return got : Program UInt8 OtError β) (.ok sent) (.ok got) := by
  have hpass := checkFails_of_honest t χ b s
  rw [← funext hq] at hpass
  refine .bind (exchange_block _).symm (.bind (exchange_block _).symm
    (.bind (exchange_block _).symm ?_))
  rw [hpass]
  exact .pure sent got

/-- **The setup with the check** between honest parties. -/
theorem exchange_setup {sender : Alsz.Sender R} {receiver : Alsz.Receiver R}
    (h : Linked sender receiver) {n : ℕ} (b : Fin n → Bool) (pad : ℕ → UInt8) (seed seed' : Block) :
    ∃ qs ts sender' receiver', Linked sender' receiver' ∧
      Exchange (sendSetup sender n seed) (receiveSetup receiver (List.ofFn b) pad seed')
        (.ok (qs, sender')) (.ok (ts, receiver')) ∧
      ∀ j : Fin n, blockAt qs j = blockAt ts j ^^^ if b j then sender'.s_ else 0 := by
  let ncols := roundUp n + 128 + SSP
  let r := boolvecToU8vec (List.ofFn b) ++ (List.range ((ncols - roundUp n) / 8)).map pad
  have hround := eight_dvd_roundUp n
  have hbits : (boolvecToU8vec (List.ofFn b)).length = (n + 7) / 8 := by
    rw [length_boolvecToU8vec, List.length_ofFn]
  have hncols : ncols = 8 * ((n + 7) / 8 + 21) := by
    simp only [ncols, SSP, hround]
    ring
  have hr : r.length = (n + 7) / 8 + 21 := by
    simp only [r, List.length_append, List.length_map, List.length_range, hbits]
    omega
  have hcols : roundUp ncols = ncols := by
    rw [eight_dvd_roundUp]
    omega
  obtain ⟨qs, ts, sender', receiver', hl, hs, hsetup, hcol⟩ :=
    h.exchange_setup ncols (r := r) (by rw [hcols]; omega)
  rw [hcols] at hcol
  refine ⟨qs, ts, sender', receiver', hl, ?_, fun j => ?_⟩
  · have hr_ : u8vecToBoolvec r = List.ofFn fun j : Fin ncols => getBit r j :=
      u8vecToBoolvec_eq_ofFn (by omega)
    have htoss := (CoinToss.exchange R (n := 1) (fun _ => seed) fun _ => seed').mapError
      OtError.coinTossError OtError.coinTossError
    rw [sendSetup, receiveSetup, List.length_ofFn]
    refine .bind hsetup (.bind htoss ?_)
    obtain ⟨χ, hχ⟩ := exists_ofFn (length_challenges R ncols
      (R.fromSeed ((List.ofFn fun _ : Fin 1 => seed ^^^ seed').getD 0 0)))
    have hcolumns : ∀ bs, (List.range ncols).map (blockAt bs) =
        List.ofFn fun j : Fin ncols => blockAt bs j := by
      intro bs
      rw [range_eq_ofFn, List.map_ofFn]
      rfl
    have hcheck := exchange_check (q := fun j : Fin ncols => blockAt qs j) (s := sender'.s_)
      (fun j => by rw [hcol j j.isLt, hs]) χ (qs, sender') (ts, receiver')
    rw [← hcolumns, ← hcolumns, ← hχ, ← hr_] at hcheck
    have hlen : (u8vecToBoolvec r).length = ncols := by rw [hr_, List.length_ofFn]
    change Exchange _ (do
      let chis := challenges R _ (u8vecToBoolvec r).length
      let t := checksum ((List.range (u8vecToBoolvec r).length).map (blockAt ts)) chis
      writeBlock (choiceSum (u8vecToBoolvec r) chis)
      writeBlock t.1
      writeBlock t.2
      return (ts, receiver')) _ _
    rw [hlen]
    exact hcheck
  · have hj := hcol j (j.isLt.trans_le ((le_roundUp n).trans (by omega)))
    have hbit : getBit r j = b j := by
      have h8 : (j : ℕ) < 8 * (boolvecToU8vec (List.ofFn b)).length := by
        have := j.isLt
        omega
      rw [getBit_append h8, getBit_boolvecToU8vec, List.getD_eq_getElem _ _ (by simp),
        List.getElem_ofFn]
    rw [hbit, ← hs] at hj
    exact hj

/-- **One transfer.** -/
theorem exchange (aes : Block → Block) {sender : Alsz.Sender R} {receiver : Alsz.Receiver R}
    (h : Linked sender receiver) {n : ℕ} (input : Fin n → Block × Block) (b : Fin n → Bool)
    (pad : ℕ → UInt8) (seed seed' : Block) :
    ∃ sender' receiver', Linked sender' receiver' ∧
      Exchange (send aes sender (List.ofFn input) seed)
        (receive aes receiver (List.ofFn b) pad seed') (.ok sender')
        (.ok (List.ofFn fun i => if b i then (input i).2 else (input i).1, receiver')) := by
  obtain ⟨qs, ts, sender', receiver', hl, hsetup, hcol⟩ := exchange_setup h b pad seed seed'
  refine ⟨sender', receiver', hl, ?_⟩
  rw [send, receive, List.length_ofFn, zipIdx_ofFn, zipIdx_ofFn]
  refine .bind hsetup (.bind (exchange_forM_mapM fun j => ?_) (.pure _ _))
  exact exchange_pair (tccrHash aes (BitVec.ofNat 128 j)) (hcol j) (input j)

end Kos

end Correct

/-- **The extension with the check delivers** the blocks chosen, if the base transfer does. -/
theorem kos_correct {T : ObliviousTransfer} {Base : T.Sender → T.Receiver → Prop}
    (hT : T.Correct Base) (R : AesRng) (aes : Block → Block) :
    (kos T R aes).Correct Alsz.Linked where
  init c c' := by
    obtain ⟨sender, receiver, hl, -, hinit⟩ := Alsz.exchange_init (R := R) hT c.1 c'.1 c.2 c'.2
    exact ⟨sender, receiver, hl, hinit⟩
  transfer {sender receiver} h inputs choices seed coins hlen := by
    obtain ⟨n, b, rfl⟩ : ∃ n, ∃ b : Fin n → Bool, choices = List.ofFn b :=
      ⟨_, exists_ofFn rfl⟩
    obtain ⟨input, rfl⟩ := exists_ofFn (hlen.trans List.length_ofFn)
    rw [chosen, zipWith_ofFn]
    exact Kos.exchange aes h input b coins.1 seed coins.2

end MaliciousPsu
