import MaliciousPsu.Bytes
import MaliciousPsu.Lib.Store
import Mathlib.Data.List.GetD
import Mathlib.Tactic.IntervalCases

/-!
# Bits of byte strings

`utils.rs` of the oblivious transfer: bits packed in bytes, least significant first.

* `getBit_setBit`, `getBit_xorInplace`, `getBit_flatten`: the bits of what the operations make.
* `boolvecToU8vec_u8vecToBoolvec`, `u8vecToBoolvec_boolvecToU8vec`: packing and unpacking undo each
  other, but for the padding of the last byte.
-/

namespace MaliciousPsu

/-- `get_bit`. -/
def getBit (src : List UInt8) (i : ℕ) : Bool := (src.getD (i / 8) 0).toBitVec.getLsbD (i % 8)

/-- `xor_inplace`: bytes of `a` past the end of `b` stay. -/
def xorInplace (a b : List UInt8) : List UInt8 :=
  List.zipWith (· ^^^ ·) a b ++ a.drop b.length

/-- `boolvec_to_u8vec`. -/
def boolvecToU8vec (bv : List Bool) : List UInt8 :=
  let offset := if bv.length % 8 == 0 then 0 else 1
  bv.zipIdx.foldl (fun v x =>
    v.set (x.2 / 8) (v.getD (x.2 / 8) 0 ||| x.1.toUInt8 <<< UInt8.ofNat (x.2 % 8)))
    (List.replicate (bv.length / 8 + offset) 0)

/-- `u8vec_to_boolvec`. -/
def u8vecToBoolvec (v : List UInt8) : List Bool :=
  v.flatMap fun byte => (List.range 8).map fun i => (1 <<< UInt8.ofNat i) &&& byte != 0

/-! ### Bits -/

section Bits

variable {bs cs : List UInt8} {i j : ℕ}

/-- A byte has eight bits. -/
theorem getLsbD_mask (hi : i < 8) (hj : j < 8) :
    (1 <<< UInt8.ofNat i : UInt8).toBitVec.getLsbD j = decide (j = i) := by
  interval_cases i <;> interval_cases j <;> rfl

theorem getBit_of_le (h : 8 * bs.length ≤ i) : getBit bs i = false := by
  rw [getBit, List.getD_eq_default _ _ (by omega)]
  simp

/-- **Byte strings with the same bits** are the same. -/
theorem eq_of_getBit (hlen : bs.length = cs.length)
    (h : ∀ i < 8 * bs.length, getBit bs i = getBit cs i) : bs = cs := by
  refine List.ext_getElem hlen fun i hi hi' => ?_
  rw [← UInt8.toBitVec_inj]
  refine BitVec.eq_of_getLsbD_eq fun j hj => ?_
  have hbit := h (8 * i + j) (by omega)
  rw [getBit, getBit, show (8 * i + j) / 8 = i by omega, show (8 * i + j) % 8 = j by omega,
    List.getD_eq_getElem _ _ hi, List.getD_eq_getElem _ _ hi'] at hbit
  exact hbit

/-- The bits of the number that a byte string spells. -/
theorem testBit_leNat : ∀ (bs : List UInt8) (i : ℕ), (leNat bs).testBit i = getBit bs i
  | [], i => by simp [leNat, getBit]
  | b :: bs, i => by
      have hlt : b.toNat < 2 ^ 8 := b.toNat_lt
      rw [leNat, add_comm, show 256 = 2 ^ 8 from rfl, Nat.testBit_two_pow_mul_add _ hlt]
      by_cases hi : i < 8
      · rw [if_pos hi, getBit, Nat.div_eq_of_lt hi, Nat.mod_eq_of_lt hi, List.getD_cons_zero]
        rfl
      · rw [if_neg hi, testBit_leNat bs, getBit, getBit, show i / 8 = (i - 8) / 8 + 1 by omega,
          show i % 8 = (i - 8) % 8 by omega, List.getD_cons_succ]

theorem length_xorInplace (h : bs.length = cs.length) :
    (xorInplace bs cs).length = bs.length := by
  simp [xorInplace, h]

/-- The bits of a sum. -/
theorem getBit_xorInplace (h : bs.length = cs.length) :
    getBit (xorInplace bs cs) i = (getBit bs i ^^ getBit cs i) := by
  have hdrop : bs.drop cs.length = [] := List.drop_eq_nil_of_le h.le
  by_cases hi : i / 8 < bs.length
  · rw [getBit, xorInplace, hdrop, List.append_nil, List.getD_eq_getElem _ _ (by simp [← h, hi]),
      List.getElem_zipWith, UInt8.toBitVec_xor, BitVec.getLsbD_xor, getBit, getBit,
      List.getD_eq_getElem _ _ hi, List.getD_eq_getElem _ _ (h ▸ hi)]
  · have hbs : 8 * bs.length ≤ i := by omega
    have hcs : 8 * cs.length ≤ i := by omega
    rw [getBit_of_le (by rwa [length_xorInplace h]), getBit_of_le hbs, getBit_of_le hcs]
    rfl

/-- The bits of rows of `k` bytes laid end to end. -/
theorem getBit_flatten {k : ℕ} : ∀ {rows : List (List UInt8)}, (∀ row ∈ rows, row.length = k) →
    ∀ {r c : ℕ}, c < 8 * k → getBit rows.flatten (r * (8 * k) + c) = getBit (rows.getD r []) c
  | [], _, r, c, _ => by simp [getBit]
  | row :: rows, h, r, c, hc => by
      have hrow : row.length = k := h row (List.mem_cons_self ..)
      have hc8 : c / 8 < k := by omega
      cases r with
      | zero =>
          rw [Nat.zero_mul, Nat.zero_add, List.flatten_cons, List.getD_cons_zero, getBit, getBit,
            List.getD_append _ _ _ _ (hrow ▸ hc8)]
      | succ r =>
          have hrows : ∀ row' ∈ rows, row'.length = k :=
            fun row' hr => h row' (List.mem_cons_of_mem row hr)
          have ih := getBit_flatten hrows hc (r := r)
          have hidx : ((r + 1) * (8 * k) + c) / 8 = (r * (8 * k) + c) / 8 + k := by
            rw [show (r + 1) * (8 * k) + c = (r * (8 * k) + c) + 8 * k by ring]
            omega
          have hmod : ((r + 1) * (8 * k) + c) % 8 = (r * (8 * k) + c) % 8 := by
            rw [show (r + 1) * (8 * k) + c = (r * (8 * k) + c) + 8 * k by ring]
            omega
          rw [List.getD_cons_succ, ← ih, getBit, List.flatten_cons, hidx, hmod, getBit,
            List.getD_append_right _ _ _ _ (by omega), hrow, Nat.add_sub_cancel]

end Bits

/-- `[u8; 16]` as a block: bit `i` of a block is bit `i` of its bytes. -/
theorem Block.getLsbD_ofBytes {bs : List UInt8} {i : ℕ} (hi : i < 128) :
    (Block.ofBytes bs).getLsbD i = getBit bs i := by
  rw [Block.ofBytes, BitVec.getLsbD_ofNat, testBit_leNat, decide_eq_true hi, Bool.true_and]

/-! ### Packing -/

section Packing

theorem mask_and_ne_zero : ∀ (b : BitVec 8) (i : Fin 8),
    ((1 <<< UInt8.ofNat i) &&& UInt8.ofBitVec b != 0) = b.getLsbD i := by
  decide +kernel

theorem getLsbD_toUInt8 (b : Bool) {i j : ℕ} (hi : i < 8) (hj : j < 8) :
    (b.toUInt8 <<< UInt8.ofNat i).toBitVec.getLsbD j = (b && decide (j = i)) := by
  cases b with
  | true => exact (getLsbD_mask hi hj).trans (Bool.true_and _).symm
  | false => interval_cases i <;> interval_cases j <;> rfl

theorem getD_replicate_self {α : Type} (k i : ℕ) (a : α) : (List.replicate k a).getD i a = a := by
  rw [List.getD_eq_getElem?_getD, List.getElem?_getD_replicate_default_eq]

/-- One turn of the packing loop. -/
theorem getBit_or {v : List UInt8} {i : ℕ} (h : i < 8 * v.length) (b : Bool) (j : ℕ) :
    getBit (v.set (i / 8) (v.getD (i / 8) 0 ||| b.toUInt8 <<< UInt8.ofNat (i % 8))) j =
      (getBit v j || b && decide (j = i)) := by
  have hi : i % 8 < 8 := Nat.mod_lt _ (by decide)
  have hj : j % 8 < 8 := Nat.mod_lt _ (by decide)
  rw [getBit, Store.getD_set (by omega)]
  by_cases hji : j / 8 = i / 8
  · have heq : j = i ↔ j % 8 = i % 8 := by omega
    rw [if_pos hji, UInt8.toBitVec_or, BitVec.getLsbD_or, getLsbD_toUInt8 b hi hj, getBit, hji]
    simp only [← heq]
  · have hne : j ≠ i := fun h => hji (by rw [h])
    rw [if_neg hji, getBit, decide_eq_false hne, Bool.and_false, Bool.or_false]

/-- The packing loop, from bit `k` on. -/
theorem getBit_pack : ∀ (bv : List Bool) (k : ℕ) (v : List UInt8), k + bv.length ≤ 8 * v.length →
    ∀ j, getBit ((bv.zipIdx k).foldl (fun v x =>
        v.set (x.2 / 8) (v.getD (x.2 / 8) 0 ||| x.1.toUInt8 <<< UInt8.ofNat (x.2 % 8))) v) j =
      (getBit v j || decide (k ≤ j) && bv.getD (j - k) false)
  | [], k, v, _, j => by simp
  | b :: bv, k, v, h, j => by
      rw [List.length_cons] at h
      rw [List.zipIdx_cons, List.foldl_cons, getBit_pack bv (k + 1) _ (by
        rw [List.length_set]
        omega), getBit_or (by omega)]
      rcases lt_trichotomy j k with hlt | rfl | hgt
      · simp [hlt.ne, not_le.mpr hlt, not_le.mpr (hlt.trans (Nat.lt_succ_self k))]
      · simp
      · obtain ⟨d, rfl⟩ := Nat.exists_eq_add_of_lt hgt
        simp [show k + d + 1 - (k + 1) = d by omega, show k + d + 1 - k = d + 1 by omega,
          show k + 1 ≤ k + d + 1 by omega, show k ≤ k + d + 1 by omega,
          show k + d + 1 ≠ k by omega]

theorem length_pack : ∀ (xs : List (Bool × ℕ)) (v : List UInt8),
    (xs.foldl (fun v x =>
      v.set (x.2 / 8) (v.getD (x.2 / 8) 0 ||| x.1.toUInt8 <<< UInt8.ofNat (x.2 % 8))) v).length =
      v.length
  | [], _ => rfl
  | x :: xs, v => by rw [List.foldl_cons, length_pack xs, List.length_set]

theorem length_boolvecToU8vec (bv : List Bool) :
    (boolvecToU8vec bv).length = (bv.length + 7) / 8 := by
  rw [boolvecToU8vec, length_pack, List.length_replicate]
  by_cases h : bv.length % 8 = 0
  · simp only [h, beq_self_eq_true, if_true]
    omega
  · simp only [beq_iff_eq, h, if_false]
    omega

/-- **The bits that are packed.** -/
theorem getBit_boolvecToU8vec (bv : List Bool) (i : ℕ) :
    getBit (boolvecToU8vec bv) i = bv.getD i false := by
  have hzero : ∀ k, getBit (List.replicate k 0) i = false := by
    intro k
    rw [getBit, getD_replicate_self]
    simp
  have hlen := length_boolvecToU8vec bv
  rw [boolvecToU8vec, length_pack] at hlen
  rw [boolvecToU8vec, getBit_pack _ _ _ (by rw [hlen]; omega), hzero]
  simp

theorem length_u8vecToBoolvec (v : List UInt8) : (u8vecToBoolvec v).length = 8 * v.length := by
  induction v with
  | nil => rfl
  | cons b v ih =>
      rw [u8vecToBoolvec, List.flatMap_cons, List.length_append, ← u8vecToBoolvec, ih,
        List.length_map, List.length_range, List.length_cons]
      ring

/-- **The bits that are unpacked.** -/
theorem getD_u8vecToBoolvec : ∀ (v : List UInt8) (i : ℕ),
    (u8vecToBoolvec v).getD i false = getBit v i
  | [], i => by simp [u8vecToBoolvec, getBit]
  | b :: v, i => by
      rw [u8vecToBoolvec, List.flatMap_cons, ← u8vecToBoolvec, getBit]
      by_cases hi : i < 8
      · rw [List.getD_append _ _ _ _ (by simpa using hi),
          List.getD_eq_getElem _ _ (by simpa using hi), List.getElem_map, List.getElem_range,
          Nat.div_eq_of_lt hi, Nat.mod_eq_of_lt hi,
          List.getD_cons_zero]
        exact mask_and_ne_zero b.toBitVec ⟨i, hi⟩
      · rw [List.getD_append_right _ _ _ _ (by simpa using hi), List.length_map, List.length_range,
          getD_u8vecToBoolvec v, getBit, show i / 8 = (i - 8) / 8 + 1 by omega,
          show i % 8 = (i - 8) % 8 by omega, List.getD_cons_succ]

/-- **Packing what was unpacked.** -/
theorem boolvecToU8vec_u8vecToBoolvec (v : List UInt8) : boolvecToU8vec (u8vecToBoolvec v) = v := by
  refine eq_of_getBit ?_ fun i _ => ?_
  · rw [length_boolvecToU8vec, length_u8vecToBoolvec]
    omega
  · rw [getBit_boolvecToU8vec, getD_u8vecToBoolvec]

/-- **Unpacking what was packed** gives the bits and the padding of the last byte. -/
theorem u8vecToBoolvec_boolvecToU8vec (bv : List Bool) :
    u8vecToBoolvec (boolvecToU8vec bv) =
      bv ++ List.replicate (8 * ((bv.length + 7) / 8) - bv.length) false := by
  have hlen : (u8vecToBoolvec (boolvecToU8vec bv)).length = 8 * ((bv.length + 7) / 8) := by
    rw [length_u8vecToBoolvec, length_boolvecToU8vec]
  refine List.ext_getElem (by rw [hlen, List.length_append, List.length_replicate]; omega)
    fun i hi hi' => ?_
  rw [← List.getD_eq_getElem _ false hi, ← List.getD_eq_getElem _ false hi', getD_u8vecToBoolvec,
    getBit_boolvecToU8vec]
  rcases lt_or_ge i bv.length with h | h
  · rw [List.getD_append _ _ _ _ h]
  · rw [List.getD_append_right _ _ _ _ h, getD_replicate_self,
      List.getD_eq_default _ _ h]

end Packing

end MaliciousPsu
