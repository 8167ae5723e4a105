import MaliciousPsu.Lib.Digits
import MaliciousPsu.Lib.Store
import MaliciousPsu.Scalar

/-!
# Digits of scalars

The signed digits that `scalar.rs` writes a scalar in: its non-adjacent form, and its digits in
radix 16 to 256, recentered with a carry.

* `window_eq`: bits that straddle two words are read as one window.
* `Naf.Inv.step`: what each turn of the scan keeps.
* `nonAdjacentForm_spec`: the digits add up to the scalar, are odd, small and apart.
* `asRadix2w_spec`: the digits add up to the scalar and lie in `[-2^w/2, 2^w/2]`.
-/

namespace MaliciousPsu

open Digits

/-- `as i8`. -/
def asI8 (n : ℤ) : ℤ := n.bmod 256

/-- `read_le_u64_into`, one word of it. -/
def u64At (bytes : Bytes32) (i : ℕ) : ℕ := bytes.toNat / 2 ^ (64 * i) % 2 ^ 64

/-- `bit_buf`: the bits from `offset` on, of one word or of two. -/
def bitBuf (bytes : Bytes32) (inOne : Bool) (offset : ℕ) : ℕ :=
  let u64Idx := offset / 64
  let bitIdx := offset % 64
  if inOne then u64At bytes u64Idx >>> bitIdx
  else (u64At bytes u64Idx >>> bitIdx) ||| ((u64At bytes (1 + u64Idx) <<< (64 - bitIdx)) % 2 ^ 64)

/-! ### The non-adjacent form -/

/-- The variables of the loop of `non_adjacent_form`. -/
structure Naf where
  pos : ℕ
  carry : ℕ
  naf : List ℤ

/-- One turn of the loop. -/
def Naf.step (bytes : Bytes32) (w : ℕ) (s : Naf) : Naf :=
  let width := 2 ^ w
  let windowMask := width - 1
  let bitBuf := bitBuf bytes (s.pos % 64 < 64 - w) s.pos
  let window := s.carry + (bitBuf &&& windowMask)
  if window &&& 1 = 0 then { s with pos := s.pos + 1 }
  else if window < width / 2 then
    { pos := s.pos + w, carry := 0, naf := s.naf.set s.pos (asI8 window) }
  else { pos := s.pos + w, carry := 1, naf := s.naf.set s.pos (asI8 (asI8 window - asI8 width)) }

/-- The loop; every turn advances `pos`. -/
def Naf.loop (bytes : Bytes32) (w : ℕ) : ℕ → Naf → Naf
  | 0, s => s
  | fuel + 1, s => if s.pos < 256 then loop bytes w fuel (s.step bytes w) else s

/-- `non_adjacent_form`. -/
def nonAdjacentForm (bytes : Bytes32) (w : ℕ) : List ℤ :=
  (Naf.loop bytes w 256 ⟨0, 0, List.replicate 256 0⟩).naf

/-! ### Windows -/

section Window

variable {bytes : Bytes32} {w offset : ℕ}

theorem testBit_u64At (i j : ℕ) :
    (u64At bytes i).testBit j = (decide (j < 64) && bytes.toNat.testBit (64 * i + j)) := by
  rw [u64At, Nat.testBit_mod_two_pow, Nat.testBit_div_two_pow, add_comm j]

/-- **A window** of the bits from `offset` on. -/
theorem window_eq {inOne : Bool} (hw : w ≤ 64)
    (hone : inOne = true → offset % 64 + w ≤ 64 ∨ 192 ≤ offset)
    (htwo : inOne = false → 0 < offset % 64) :
    bitBuf bytes inOne offset &&& (2 ^ w - 1) = bytes.toNat / 2 ^ offset % 2 ^ w := by
  rw [Nat.and_two_pow_sub_one_eq_mod]
  refine Nat.eq_of_testBit_eq fun i => ?_
  rw [Nat.testBit_mod_two_pow, Nat.testBit_mod_two_pow, Nat.testBit_div_two_pow]
  by_cases hi : i < w
  · have hoffset := Nat.div_add_mod offset 64
    have hlow : (u64At bytes (offset / 64) >>> (offset % 64)).testBit i =
        (decide (offset % 64 + i < 64) && bytes.toNat.testBit (i + offset)) := by
      rw [Nat.testBit_shiftRight, testBit_u64At, ← add_assoc, hoffset, add_comm offset]
    cases inOne with
    | true =>
      rw [bitBuf, if_pos rfl, hlow]
      by_cases hin : offset % 64 + i < 64
      · simp [hin]
      · have hbit : bytes.toNat.testBit (i + offset) = false := by
          refine Nat.testBit_lt_two_pow (bytes.isLt.trans_le (Nat.pow_le_pow_right (by decide) ?_))
          have := hone rfl
          omega
        simp [hbit]
    | false =>
      have hb := htwo rfl
      have hlt := Nat.mod_lt offset (show 0 < 64 by decide)
      rw [bitBuf, if_neg Bool.false_ne_true, Nat.testBit_or, hlow, Nat.testBit_mod_two_pow,
        Nat.testBit_shiftLeft, testBit_u64At]
      by_cases hin : offset % 64 + i < 64
      · have hs : ¬ 64 - offset % 64 ≤ i := by omega
        simp [hin, hs]
      · have hidx : 64 * (1 + offset / 64) + (i - (64 - offset % 64)) = i + offset := by omega
        have hs : 64 - offset % 64 ≤ i := by omega
        have hi64 : i < 64 := by omega
        have hsub : i - (64 - offset % 64) < 64 := by omega
        rw [hidx]
        simp [hin, hs, hi64, hsub]
  · simp [hi]

end Window

/-! ### What a scan keeps -/

/-- What is left of `x` from bit `pos` on, with the carry. -/
def Naf.rest (x : ℕ) (s : Naf) : ℕ := x / 2 ^ s.pos + s.carry

/-- The digits below `pos` and the rest make up `x`; the digits that are not zero are odd, fit in
`w` bits and lie `w` apart. -/
structure Naf.Inv (x w : ℕ) (s : Naf) : Prop where
  length : s.naf.length = 256
  value : value 2 s.naf + 2 ^ s.pos * s.rest x = x
  carry_le : s.carry ≤ 1
  rest_le : s.rest x ≤ 2 ^ (255 - s.pos)
  rest_eq : 256 ≤ s.pos → s.rest x = 0
  digit : ∀ i, s.naf.getD i 0 ≠ 0 →
    i + w ≤ s.pos ∧ s.naf.getD i 0 % 2 = 1 ∧ |s.naf.getD i 0| < 2 ^ (w - 1)
  apart : ∀ i j, i < j → s.naf.getD i 0 ≠ 0 → s.naf.getD j 0 ≠ 0 → i + w ≤ j

theorem asI8_of_lt {n : ℤ} (h : -128 ≤ n) (h' : n < 128) : asI8 n = n := by
  rw [asI8, Int.bmod_def]
  omega

theorem asI8_sub (m n : ℤ) : asI8 (asI8 m - asI8 n) = asI8 (m - n) := by
  simp only [asI8, Int.bmod_def]
  omega

section Scan

variable {bytes : Bytes32} {w : ℕ} {s : Naf}

/-- The window of a turn: the low bits of what is left, with the carry. -/
theorem Naf.window_eq (bytes : Bytes32) (s : Naf) (hw : 2 ≤ w) (hw8 : w ≤ 8) :
    bitBuf bytes (s.pos % 64 < 64 - w) s.pos &&& (2 ^ w - 1) =
      bytes.toNat / 2 ^ s.pos % 2 ^ w := by
  refine MaliciousPsu.window_eq (by omega) (fun h => Or.inl ?_) fun h => ?_
  · have := of_decide_eq_true h
    omega
  · have := of_decide_eq_false h
    omega

/-- A digit `d` is emitted: `d` and `w` bits less make up what was left. -/
theorem Naf.Inv.emit {x : ℕ} (h : s.Inv x w) (hpos : s.pos < 256) (hw : 2 ≤ w) {d : ℤ}
    {carry : ℕ} (hc : carry ≤ 1) (hd : d + 2 ^ w * (x / 2 ^ (s.pos + w) + carry : ℕ) = s.rest x)
    (hodd : d % 2 = 1) (habs : |d| < 2 ^ (w - 1)) :
    Naf.Inv x w { pos := s.pos + w, carry, naf := s.naf.set s.pos d } := by
  have hlt : s.pos < s.naf.length := by rw [h.length]; exact hpos
  have hzero : s.naf.getD s.pos 0 = 0 := by
    by_contra hne
    have := (h.digit _ hne).1
    omega
  have hget : ∀ j, (s.naf.set s.pos d).getD j 0 = if j = s.pos then d else s.naf.getD j 0 :=
    Store.getD_set hlt _ _
  have hvalue := h.value
  obtain ⟨hdlow, hdhigh⟩ := abs_lt.mp habs
  have hpow : (2 : ℤ) ^ w = 2 * 2 ^ (w - 1) := by rw [← pow_succ', Nat.sub_add_cancel (by omega)]
  have hrest : (x / 2 ^ (s.pos + w) + carry : ℕ) ≤ 2 ^ (255 - (s.pos + w)) ∧
      (256 ≤ s.pos + w → (x / 2 ^ (s.pos + w) + carry : ℕ) = 0) := by
    have hle : (s.rest x : ℤ) ≤ 2 ^ (255 - s.pos) := by exact_mod_cast h.rest_le
    generalize (x / 2 ^ (s.pos + w) + carry : ℕ) = y at hd
    by_cases hend : s.pos + w ≤ 255
    · have hsplit : (2 : ℤ) ^ (255 - s.pos) = 2 ^ w * 2 ^ (255 - (s.pos + w)) := by
        rw [← pow_add]
        congr 1
        omega
      have hy : (2 : ℤ) ^ w * y < 2 ^ w * (2 ^ (255 - (s.pos + w)) + 1) := by linarith
      have hy' := lt_of_mul_lt_mul_left hy (by positivity)
      refine ⟨?_, fun hge => absurd hend (by omega)⟩
      exact_mod_cast Int.lt_add_one_iff.mp hy'
    · have hle' : (2 : ℤ) ^ (255 - s.pos) ≤ 2 ^ (w - 1) :=
        pow_le_pow_right₀ (by decide) (by omega)
      have hy : (2 : ℤ) ^ w * y < 2 ^ w * 1 := by linarith
      have hy' := lt_of_mul_lt_mul_left hy (by positivity)
      have hzero : y = 0 := by omega
      rw [hzero]
      exact ⟨Nat.zero_le _, fun _ => rfl⟩
  refine ⟨by rw [List.length_set, h.length], ?_, hc, hrest.1, hrest.2, fun j hj => ?_, ?_⟩
  · simp only [Naf.rest]
    rw [value_set d hlt, hzero, pow_add]
    linear_combination hvalue + 2 ^ s.pos * hd
  · rw [hget] at hj ⊢
    by_cases hjpos : j = s.pos
    · rw [if_pos hjpos]
      exact ⟨by simp only [hjpos]; omega, hodd, habs⟩
    · rw [if_neg hjpos] at hj ⊢
      obtain ⟨hle, hrest⟩ := h.digit j hj
      exact ⟨by simp only; omega, hrest⟩
  · intro i j hij hi hj
    rw [hget] at hi hj
    by_cases hjpos : j = s.pos
    · have hipos : i ≠ s.pos := by omega
      rw [if_neg hipos] at hi
      exact hjpos ▸ (h.digit i hi).1
    · rw [if_neg hjpos] at hj
      have hjle := (h.digit j hj).1
      have hipos : i ≠ s.pos := by omega
      rw [if_neg hipos] at hi
      exact h.apart i j hij hi hj

/-- **What each turn of the scan keeps.** -/
theorem Naf.Inv.step (h : s.Inv bytes.toNat w) (hpos : s.pos < 256) (hw : 2 ≤ w) (hw8 : w ≤ 8) :
    (s.step bytes w).Inv bytes.toNat w := by
  have hwin := Naf.window_eq bytes s hw hw8
  set x := bytes.toNat with hx
  have hc := h.carry_le
  have hpow : 2 ^ w = 2 * 2 ^ (w - 1) := by rw [← pow_succ', Nat.sub_add_cancel (by omega)]
  have heven : 2 ∣ 2 ^ (w - 1) := dvd_pow_self 2 (by omega)
  have hdiv := Nat.div_add_mod (x / 2 ^ s.pos) (2 ^ w)
  have hdd : x / 2 ^ (s.pos + w) = x / 2 ^ s.pos / 2 ^ w := by
    rw [pow_add, Nat.div_div_eq_div_mul]
  have hmodlt := Nat.mod_lt (x / 2 ^ s.pos) (Nat.two_pow_pos w)
  have hsmall : 2 ^ w ≤ 256 := (Nat.pow_le_pow_right (by decide) hw8).trans (by decide)
  have hq : ((x / 2 ^ s.pos : ℕ) : ℤ) =
      2 ^ w * (x / 2 ^ s.pos / 2 ^ w : ℕ) + (x / 2 ^ s.pos % 2 ^ w : ℕ) := by
    exact_mod_cast hdiv.symm
  simp only [Naf.step, hwin, Nat.and_one_is_mod]
  split
  · next hz =>
    -- the digit is zero, and the carry stays
    have hmod : x / 2 ^ s.pos % 2 ^ w % 2 = x / 2 ^ s.pos % 2 :=
      Nat.mod_mod_of_dvd _ (hpow ▸ dvd_mul_right ..)
    have hhalf : s.rest x = 2 * (x / 2 ^ (s.pos + 1) + s.carry) := by
      rw [Naf.rest, pow_succ, ← Nat.div_div_eq_div_mul]
      omega
    have hle := h.rest_le
    refine ⟨h.length, ?_, hc, ?_, ?_, fun i hi => ?_, h.apart⟩
    · have hrest : (s.rest x : ℤ) = 2 * (x / 2 ^ (s.pos + 1) + s.carry : ℕ) := by
        exact_mod_cast hhalf
      simp only [Naf.rest]
      linear_combination h.value - 2 ^ s.pos * hrest
    · simp only [Naf.rest]
      by_cases hlast : s.pos = 255
      · rw [hlast] at hle hhalf ⊢
        omega
      · have hsplit : 2 ^ (255 - s.pos) = 2 * 2 ^ (255 - (s.pos + 1)) := by
          rw [← pow_succ']
          congr 1
          omega
        omega
    · intro hge
      have hlast : s.pos = 255 := by simp only at hge; omega
      simp only [Naf.rest]
      rw [hlast] at hle hhalf ⊢
      omega
    · obtain ⟨hle, hrest⟩ := h.digit i hi
      exact ⟨by simp only; omega, hrest⟩
  · next hodd =>
    split
    · next hlt =>
      have hdigit : asI8 ((s.carry + x / 2 ^ s.pos % 2 ^ w : ℕ) : ℤ) =
          (s.carry + x / 2 ^ s.pos % 2 ^ w : ℕ) := asI8_of_lt (by omega) (by omega)
      rw [hdigit]
      refine h.emit hpos hw (by decide) ?_ (by omega) ?_
      · rw [Naf.rest, hdd, Nat.cast_add, Nat.cast_add, Nat.cast_add, hq]
        push_cast
        ring
      · rw [abs_of_nonneg (by omega)]
        exact_mod_cast (show s.carry + x / 2 ^ s.pos % 2 ^ w < 2 ^ (w - 1) by omega)
    · next hge =>
      have hdigit : asI8 (asI8 ((s.carry + x / 2 ^ s.pos % 2 ^ w : ℕ) : ℤ) - asI8 (2 ^ w : ℕ)) =
          (s.carry + x / 2 ^ s.pos % 2 ^ w : ℕ) - (2 ^ w : ℕ) := by
        rw [asI8_sub]
        exact asI8_of_lt (by omega) (by omega)
      rw [hdigit]
      refine h.emit hpos hw le_rfl ?_ (by omega) ?_
      · rw [Naf.rest, hdd, Nat.cast_add, Nat.cast_add, Nat.cast_add, hq]
        push_cast
        ring
      · have hge' : 2 ^ (w - 1) < s.carry + x / 2 ^ s.pos % 2 ^ w := by omega
        have hle' : s.carry + x / 2 ^ s.pos % 2 ^ w < 2 ^ w := by omega
        have hcast : ((2 ^ (w - 1) : ℕ) : ℤ) = 2 ^ (w - 1) := Nat.cast_pow 2 (w - 1)
        rw [abs_lt, ← hcast]
        omega

theorem Naf.pos_lt_step (bytes : Bytes32) (s : Naf) (hw : 2 ≤ w) :
    s.pos < (s.step bytes w).pos := by
  simp only [Naf.step]
  split
  · simp
  · split
    · simp only; omega
    · simp only; omega

/-- The scan, with a turn for each position that is left. -/
theorem Naf.Inv.loop (hw : 2 ≤ w) (hw8 : w ≤ 8) : ∀ {fuel : ℕ} {s : Naf},
    s.Inv bytes.toNat w → 256 ≤ s.pos + fuel →
    (Naf.loop bytes w fuel s).Inv bytes.toNat w ∧ 256 ≤ (Naf.loop bytes w fuel s).pos
  | 0, s, h, hfuel => ⟨h, hfuel⟩
  | fuel + 1, s, h, hfuel => by
      rw [Naf.loop]
      split
      · next hpos =>
        have hlt := Naf.pos_lt_step bytes s hw
        exact Naf.Inv.loop hw hw8 (h.step hpos hw hw8) (by omega)
      · next hpos => exact ⟨h, not_lt.mp hpos⟩

/-- **The non-adjacent form** of an integer below `2^255`: 256 digits that add up to it, of which
those that are not zero are odd, smaller than `2^(w-1)` and at least `w` places apart. -/
theorem nonAdjacentForm_spec (hbytes : bytes.toNat < 2 ^ 255) (hw : 2 ≤ w) (hw8 : w ≤ 8) :
    let naf := nonAdjacentForm bytes w
    naf.length = 256 ∧ value 2 naf = bytes.toNat ∧
      (∀ i, naf.getD i 0 ≠ 0 → naf.getD i 0 % 2 = 1 ∧ |naf.getD i 0| < 2 ^ (w - 1)) ∧
      ∀ i j, i < j → naf.getD i 0 ≠ 0 → naf.getD j 0 ≠ 0 → i + w ≤ j := by
  have hzero : ∀ i, (List.replicate 256 (0 : ℤ)).getD i 0 = 0 := by
    intro i
    rw [List.getD_eq_getElem?_getD, List.getElem?_replicate]
    split <;> rfl
  have hinit : (⟨0, 0, List.replicate 256 0⟩ : Naf).Inv bytes.toNat w := by
    refine ⟨List.length_replicate, ?_, Nat.zero_le _, ?_, fun h => absurd h (by decide),
      fun i hi => absurd (hzero i) hi, fun i j _ hi => absurd (hzero i) hi⟩
    · rw [value_replicate]
      simp [Naf.rest]
    · simpa [Naf.rest] using hbytes.le
  have hfuel : 256 ≤ 0 + 256 := by decide
  obtain ⟨hinv, hpos⟩ := Naf.Inv.loop hw hw8 hinit hfuel
  have hvalue := hinv.value
  rw [hinv.rest_eq hpos, Nat.cast_zero, mul_zero, add_zero] at hvalue
  exact ⟨hinv.length, hvalue, fun i hi => (hinv.digit i hi).2, hinv.apart⟩

end Scan

/-! ### Radix 16 -/

/-- One turn of the recentering in `as_radix_16`. -/
def recenter (output : List ℤ) (i : ℕ) : List ℤ :=
  let carry := (output.getD i 0 + 8) / 2 ^ 4
  let output := output.set i (output.getD i 0 - carry * 2 ^ 4)
  output.set (i + 1) (output.getD (i + 1) 0 + carry)

/-- The nibbles of a scalar. -/
def nibbles (bytes : Bytes32) : List ℤ :=
  let byte i := bytes.toNat / 256 ^ i % 256
  let botHalf x := x &&& 15
  let topHalf x := (x >>> 4) &&& 15
  (List.range 32).flatMap fun i => [(botHalf (byte i) : ℕ), (topHalf (byte i) : ℕ)]

/-- `as_radix_16`. -/
def asRadix16 (bytes : Bytes32) : List ℤ := (List.range 63).foldl recenter (nibbles bytes)

/-- The digits below `n` are recentered, the others are still nibbles, the next one with a carry. -/
structure Recentered (x : ℤ) (n : ℕ) (output : List ℤ) : Prop where
  length : output.length = 64
  value : value 16 output = x
  low : ∀ i < n, -8 ≤ output.getD i 0 ∧ output.getD i 0 < 8
  mid : 0 ≤ output.getD n 0 ∧ output.getD n 0 ≤ 16
  high : ∀ i, n < i → 0 ≤ output.getD i 0 ∧ output.getD i 0 ≤ 15

theorem Recentered.step {x : ℤ} {n : ℕ} {output : List ℤ} (h : Recentered x n output)
    (hn : n < 63) : Recentered x (n + 1) (recenter output n) := by
  have hlt : n < output.length := by rw [h.length]; omega
  set d := output.getD n 0 with hd
  set carry := (d + 8) / 2 ^ 4 with hcarry
  have hlt' : n + 1 < (output.set n (d - carry * 2 ^ 4)).length := by
    rw [List.length_set, h.length]
    omega
  have hnext : (output.set n (d - carry * 2 ^ 4)).getD (n + 1) 0 = output.getD (n + 1) 0 := by
    rw [Store.getD_set hlt, if_neg (by omega)]
  have hstep : recenter output n = (output.set n (d - carry * 2 ^ 4)).set (n + 1)
      ((output.set n (d - carry * 2 ^ 4)).getD (n + 1) 0 + carry) := rfl
  rw [hnext] at hstep
  have hget : ∀ i, (recenter output n).getD i 0 = if i = n + 1 then output.getD (n + 1) 0 + carry
      else if i = n then d - carry * 2 ^ 4 else output.getD i 0 := by
    intro i
    rw [hstep, Store.getD_set hlt', Store.getD_set hlt]
  have hmid := h.mid
  have hhigh := h.high (n + 1) (Nat.lt_succ_self n)
  rw [← hd] at hmid
  refine ⟨by rw [hstep, List.length_set, List.length_set, h.length], ?_, fun i hi => ?_, ?_,
    fun i hi => ?_⟩
  · rw [hstep, value_set _ hlt', hnext, value_set _ hlt, h.value, pow_succ, ← hd]
    ring
  · rw [hget, if_neg (by omega)]
    by_cases hin : i = n
    · rw [if_pos hin]
      omega
    · rw [if_neg hin]
      exact h.low i (by omega)
  · rw [hget, if_pos rfl]
    omega
  · rw [hget, if_neg (by omega), if_neg (by omega)]
    exact h.high i (by omega)

theorem Recentered.loop {x : ℤ} {output : List ℤ} (h : Recentered x 0 output) : ∀ n ≤ 63,
    Recentered x n ((List.range n).foldl recenter output)
  | 0, _ => h
  | n + 1, hn => by
      rw [List.range_succ, List.foldl_concat]
      exact (Recentered.loop h n (Nat.le_of_succ_le hn)).step hn

theorem and_fifteen (n : ℕ) : n &&& 15 = n % 16 := Nat.and_two_pow_sub_one_eq_mod n 4

theorem value_nibbles (bytes : Bytes32) : value 16 (nibbles bytes) = bytes.toNat := by
  have hsum := value_map_range 256 bytes.toNat 32
  rw [Nat.mod_eq_of_lt (bytes.isLt.trans_le (by decide))] at hsum
  rw [nibbles, value_flatMap, show ((16 : ℤ) ^ 2) = (256 : ℕ) by decide, ← hsum]
  refine congrArg (value _) (List.map_congr_left fun i _ => ?_)
  dsimp only
  rw [and_fifteen, and_fifteen, Nat.shiftRight_eq_div_pow]
  omega

theorem length_nibbles (bytes : Bytes32) : (nibbles bytes).length = 64 := by
  simp [nibbles, List.length_flatMap]

theorem nibbles_getD (bytes : Bytes32) (i : ℕ) :
    0 ≤ (nibbles bytes).getD i 0 ∧ (nibbles bytes).getD i 0 ≤ 15 := by
  have hmem : ∀ d ∈ nibbles bytes, 0 ≤ d ∧ d ≤ 15 := by
    intro d hd
    simp only [nibbles, List.mem_flatMap, List.mem_cons, List.not_mem_nil, or_false,
      and_fifteen] at hd
    obtain ⟨i, -, rfl | rfl⟩ := hd
    · omega
    · omega
  by_cases hi : i < (nibbles bytes).length
  · rw [List.getD_eq_getElem _ _ hi]
    exact hmem _ (List.getElem_mem hi)
  · rw [List.getD_eq_default _ _ (not_lt.mp hi)]
    decide

/-- **The digits in radix 16** of an integer below `2^255`. -/
theorem asRadix16_spec {bytes : Bytes32} (hbytes : bytes.toNat < 2 ^ 255) :
    let ds := asRadix16 bytes
    ds.length = 64 ∧ value 16 ds = bytes.toNat ∧
      (∀ i < 63, -8 ≤ ds.getD i 0 ∧ ds.getD i 0 < 8) ∧ 0 ≤ ds.getD 63 0 ∧ ds.getD 63 0 ≤ 8 := by
  have hinit : Recentered bytes.toNat 0 (nibbles bytes) := by
    refine ⟨length_nibbles bytes, value_nibbles bytes, fun i hi => absurd hi (Nat.not_lt_zero i),
      ?_, fun i _ => nibbles_getD bytes i⟩
    have := nibbles_getD bytes 0
    omega
  have h := hinit.loop 63 le_rfl
  refine ⟨h.length, h.value, h.low, last_digit_le (c := 16) (h := 8) (by decide) (by decide)
    h.length h.value (hbytes.trans_le (by decide)) fun i hi => ?_⟩
  obtain ⟨hlow, hhigh⟩ := h.low i hi
  exact abs_le.mpr ⟨hlow, hhigh.le⟩

/-! ### Radix `2^w` -/

/-- `to_radix_2w_size_hint`. -/
def toRadix2wSizeHint (w : ℕ) : ℕ := if w = 8 then (256 + w - 1) / w + 1 else (256 + w - 1) / w

/-- One turn of the loop of `as_radix_2w`. -/
def radix2wStep (bytes : Bytes32) (w : ℕ) (s : ℕ × List ℤ) (i : ℕ) : ℕ × List ℤ :=
  let radix := 2 ^ w
  let windowMask := radix - 1
  let bitOffset := i * w
  let bitBuf := bitBuf bytes (bitOffset % 64 < 64 - w || bitOffset / 64 = 3) bitOffset
  let coef := s.1 + (bitBuf &&& windowMask)
  let carry := (coef + radix / 2) >>> w
  (carry, s.2.set i (asI8 ((coef : ℤ) - (carry <<< w : ℕ))))

/-- `as_radix_2w`. -/
def asRadix2w (bytes : Bytes32) (w : ℕ) : List ℤ :=
  if w = 4 then asRadix16 bytes else
  let digitsCount := (256 + w - 1) / w
  let (carry, digits) :=
    (List.range digitsCount).foldl (radix2wStep bytes w) (0, List.replicate 64 0)
  if w = 8 then digits.set digitsCount (asI8 (digits.getD digitsCount 0 + asI8 carry))
  else digits.set (digitsCount - 1)
    (asI8 (digits.getD (digitsCount - 1) 0 + asI8 (carry <<< w : ℕ)))

/-- After `n` turns the digits and the carry make up the low bits of `x`. -/
structure Radix2wInv (x w n : ℕ) (s : ℕ × List ℤ) : Prop where
  length : s.2.length = 64
  carry_le : s.1 ≤ 1
  value : value (2 ^ w) s.2 + 2 ^ (n * w) * s.1 = (x % 2 ^ (n * w) : ℕ)
  low : ∀ i, -2 ^ (w - 1) ≤ s.2.getD i 0 ∧ s.2.getD i 0 < 2 ^ (w - 1)
  high : ∀ i, n ≤ i → s.2.getD i 0 = 0

theorem Radix2wInv.step {bytes : Bytes32} {w n : ℕ} {s : ℕ × List ℤ}
    (h : Radix2wInv bytes.toNat w n s) (hw : 4 < w) (hw8 : w ≤ 8) (hn : n < 64) :
    Radix2wInv bytes.toNat w (n + 1) (radix2wStep bytes w s n) := by
  have hwin : bitBuf bytes (n * w % 64 < 64 - w || n * w / 64 = 3) (n * w) &&& (2 ^ w - 1) =
      bytes.toNat / 2 ^ (n * w) % 2 ^ w := by
    refine window_eq (by omega) (fun h => ?_) fun h => ?_
    · rw [Bool.or_eq_true, decide_eq_true_eq, decide_eq_true_eq] at h
      omega
    · rw [Bool.or_eq_false_iff, decide_eq_false_iff_not, decide_eq_false_iff_not] at h
      omega
  have hlt : n < s.2.length := by rw [h.length]; exact hn
  have hpow : 2 ^ w = 2 * 2 ^ (w - 1) := by rw [← pow_succ', Nat.sub_add_cancel (by omega)]
  have hsmall : 2 ^ w ≤ 256 := (Nat.pow_le_pow_right (by decide) hw8).trans (by decide)
  have hc := h.carry_le
  have hmod := Nat.mod_lt (bytes.toNat / 2 ^ (n * w)) (Nat.two_pow_pos w)
  have hx : bytes.toNat % 2 ^ ((n + 1) * w) =
      bytes.toNat % 2 ^ (n * w) + 2 ^ (n * w) * (bytes.toNat / 2 ^ (n * w) % 2 ^ w) := by
    rw [Nat.add_mul, one_mul, pow_add, Nat.mod_mul]
  simp only [radix2wStep, hwin, Nat.shiftRight_eq_div_pow, Nat.shiftLeft_eq]
  generalize bytes.toNat / 2 ^ (n * w) % 2 ^ w = m at hmod hx ⊢
  set coef := s.1 + m with hcoef
  set carry := (coef + 2 ^ w / 2) / 2 ^ w with hcarry
  have hdiv := Nat.div_add_mod (coef + 2 ^ w / 2) (2 ^ w)
  have hdivlt := Nat.mod_lt (coef + 2 ^ w / 2) (Nat.two_pow_pos w)
  rw [← hcarry] at hdiv
  have hcarry1 : carry ≤ 1 := by
    have : carry < 2 := by
      rw [hcarry, Nat.div_lt_iff_lt_mul (Nat.two_pow_pos w)]
      omega
    omega
  have hcast : ((2 ^ (w - 1) : ℕ) : ℤ) = 2 ^ (w - 1) := Nat.cast_pow 2 (w - 1)
  have hbounds : -(2 ^ (w - 1) : ℕ) ≤ (coef : ℤ) - (carry * 2 ^ w : ℕ) ∧
      (coef : ℤ) - (carry * 2 ^ w : ℕ) < (2 ^ (w - 1) : ℕ) := by
    rw [mul_comm carry]
    omega
  have hdigit : asI8 ((coef : ℤ) - (carry * 2 ^ w : ℕ)) = (coef : ℤ) - (carry * 2 ^ w : ℕ) :=
    asI8_of_lt (by omega) (by omega)
  rw [hdigit]
  rw [hcast] at hbounds
  have hget : ∀ i, (s.2.set n ((coef : ℤ) - (carry * 2 ^ w : ℕ))).getD i 0 =
      if i = n then (coef : ℤ) - (carry * 2 ^ w : ℕ) else s.2.getD i 0 := Store.getD_set hlt _ _
  refine ⟨by simp only [List.length_set, h.length], hcarry1, ?_, fun i => ?_, fun i hi => ?_⟩
  · rw [hx, value_set _ hlt, h.high n le_rfl, ← pow_mul, mul_comm w n, Nat.add_mul, one_mul,
      pow_add]
    have hvalue := h.value
    push_cast at hvalue ⊢
    rw [hcoef]
    push_cast
    linear_combination hvalue
  · simp only [hget]
    split
    · exact hbounds
    · exact h.low i
  · simp only [hget]
    rw [if_neg (by omega)]
    exact h.high i (by omega)

theorem Radix2wInv.loop (bytes : Bytes32) {w : ℕ} (hw : 4 < w) (hw8 : w ≤ 8) : ∀ n ≤ 64,
    Radix2wInv bytes.toNat w n
      ((List.range n).foldl (radix2wStep bytes w) (0, List.replicate 64 0))
  | 0, _ => by
      have hzero : ∀ i, (List.replicate 64 (0 : ℤ)).getD i 0 = 0 := by
        intro i
        rw [List.getD_eq_getElem?_getD, List.getElem?_replicate]
        split <;> rfl
      refine ⟨List.length_replicate, Nat.zero_le _, ?_, fun i => ?_, fun i _ => hzero i⟩
      · rw [List.range_zero, List.foldl_nil, value_replicate]
        simp [Nat.mod_one]
      · simp only [List.range_zero, List.foldl_nil, hzero]
        simp
  | n + 1, hn => by
      rw [List.range_succ, List.foldl_concat]
      exact (Radix2wInv.loop bytes hw hw8 n (Nat.le_of_succ_le hn)).step hw hw8 hn

/-- The last carry is zero when the radix does not divide the 256 bits. -/
theorem Radix2wInv.carry_eq_zero {x w n : ℕ} {s : ℕ × List ℤ} (h : Radix2wInv x w n s)
    (hx : x < 2 ^ 255) (hn : 258 ≤ n * w) (hw : 4 < w) (hlen : n ≤ 64) : s.1 = 0 := by
  have hc := h.carry_le
  by_contra hne
  have hone : s.1 = 1 := by omega
  have hvalue := h.value
  have hxlt : x < 2 ^ (n * w) := hx.trans_le (Nat.pow_le_pow_right (by decide) (by omega))
  rw [hone, Nat.mod_eq_of_lt hxlt, ← value_take h.high] at hvalue
  have hmem : ∀ d ∈ s.2.take n, |d| ≤ (2 : ℤ) ^ (w - 1) := by
    intro d hd
    obtain ⟨i, hi, rfl⟩ := List.getElem_of_mem hd
    have hi' : i < s.2.length := by
      rw [List.length_take] at hi
      omega
    obtain ⟨hlow, hhigh⟩ := h.low i
    rw [List.getD_eq_getElem _ _ hi'] at hlow hhigh
    rw [List.getElem_take]
    exact abs_le.mpr ⟨hlow, hhigh.le⟩
  have hbound := abs_value_le (show (1 : ℤ) ≤ 2 ^ w from one_le_pow₀ (by decide)) hmem
  have hlen' : (s.2.take n).length = n := by
    rw [List.length_take, h.length]
    omega
  rw [hlen', ← pow_mul, mul_comm w n] at hbound
  have hpow : (2 : ℤ) ^ w = 2 * 2 ^ (w - 1) := by rw [← pow_succ', Nat.sub_add_cancel (by omega)]
  have hhalf : (16 : ℤ) ≤ 2 ^ (w - 1) :=
    (show (16 : ℤ) = 2 ^ 4 by decide) ▸ pow_le_pow_right₀ (by decide) (by omega)
  have hbig : (2 : ℤ) ^ 258 ≤ 2 ^ (n * w) := pow_le_pow_right₀ (by decide) hn
  have hxcast : (x : ℤ) < 2 ^ 255 := by exact_mod_cast hx
  rw [hpow] at hbound hvalue
  generalize (2 : ℤ) ^ (n * w) = B at hbound hbig hvalue
  generalize (2 : ℤ) ^ (w - 1) = H at hbound hhalf hvalue
  generalize Digits.value (2 * H) (s.2.take n) = v at hbound hvalue
  rw [Nat.cast_one, mul_one] at hvalue
  have habs : 7 * B ≤ 8 * |v| := by
    have := neg_le_abs v
    omega
  have hB : (0 : ℤ) ≤ B := by omega
  have hleft := mul_le_mul_of_nonneg_left habs (show (0 : ℤ) ≤ 2 * H - 1 by omega)
  have hright := mul_le_mul_of_nonneg_right hhalf hB
  linarith only [hbound, hleft, hright, hB, hhalf]

/-- **The digits in radix `2^w`** of an integer below `2^255`: they add up to it, lie in
`[-2^w/2, 2^w/2]`, fit in an `i8`, and are zero from `to_radix_2w_size_hint` on. -/
theorem asRadix2w_spec {bytes : Bytes32} {w : ℕ} (hbytes : bytes.toNat < 2 ^ 255) (hw : 4 ≤ w)
    (hw8 : w ≤ 8) :
    let ds := asRadix2w bytes w
    ds.length = 64 ∧ value (2 ^ w) ds = bytes.toNat ∧
      (∀ i, |ds.getD i 0| ≤ 2 ^ (w - 1) ∧ ds.getD i 0 < 128) ∧
      ∀ i, toRadix2wSizeHint w ≤ i → ds.getD i 0 = 0 := by
  rcases hw.eq_or_lt with rfl | hw
  · -- radix 16
    obtain ⟨hlen, hvalue, hlow, hlast⟩ := asRadix16_spec hbytes
    have hhigh : ∀ i, 64 ≤ i → (asRadix16 bytes).getD i 0 = 0 :=
      fun i hi => List.getD_eq_default _ _ (hlen.le.trans hi)
    refine ⟨hlen, hvalue, fun i => ?_, hhigh⟩
    rw [asRadix2w, if_pos rfl, abs_le]
    rcases lt_trichotomy i 63 with hi | rfl | hi
    · exact ⟨⟨(hlow i hi).1, (hlow i hi).2.le⟩, (hlow i hi).2.trans (by decide)⟩
    · exact ⟨⟨le_trans (by decide) hlast.1, hlast.2⟩, hlast.2.trans_lt (by decide)⟩
    · rw [hhigh i hi]
      decide
  · have hn : (256 + w - 1) / w ≤ 64 := by
      rw [Nat.div_le_iff_le_mul_add_pred (by omega)]
      omega
    have h := Radix2wInv.loop bytes hw hw8 _ hn
    have hcover : 256 ≤ (256 + w - 1) / w * w := by
      have := Nat.div_add_mod (256 + w - 1) w
      have := Nat.mod_lt (256 + w - 1) (show 0 < w by omega)
      rw [mul_comm]
      omega
    have hvalue := h.value
    rw [Nat.mod_eq_of_lt (bytes.isLt.trans_le (Nat.pow_le_pow_right (by decide) hcover))] at hvalue
    have hsmall : (2 : ℤ) ^ (w - 1) ≤ 128 :=
      (pow_le_pow_right₀ (by decide) (show w - 1 ≤ 7 by omega)).trans (by decide)
    simp only [asRadix2w, if_neg hw.ne']
    generalize (List.range ((256 + w - 1) / w)).foldl (radix2wStep bytes w)
      (0, List.replicate 64 0) = s at h hvalue
    have hlow := h.low
    have habs : ∀ i, |s.2.getD i 0| ≤ (2 : ℤ) ^ (w - 1) ∧ s.2.getD i 0 < 128 :=
      fun i => ⟨abs_le.mpr ⟨(hlow i).1, (hlow i).2.le⟩, (hlow i).2.trans_le hsmall⟩
    by_cases h8 : w = 8
    · -- the carry is a digit of its own
      subst h8
      have hc := h.carry_le
      have hcarry : asI8 s.1 = s.1 := asI8_of_lt (by omega) (by omega)
      have hdigit : asI8 (s.2.getD 32 0 + asI8 s.1) = s.1 := by
        rw [h.high 32 le_rfl, zero_add, hcarry, hcarry]
      have hlt : 32 < s.2.length := by rw [h.length]; decide
      have hget : ∀ i, (s.2.set 32 (s.1 : ℤ)).getD i 0 =
          if i = 32 then (s.1 : ℤ) else s.2.getD i 0 := Store.getD_set hlt _ _
      rw [if_pos rfl]
      refine ⟨by rw [List.length_set, h.length], ?_, fun i => ?_, fun i hi => ?_⟩
      · rw [hdigit, value_set _ hlt, h.high 32 le_rfl, ← hvalue]
        ring
      · rw [hdigit, hget]
        split
        · rw [abs_le]
          omega
        · exact habs i
      · have hi : 33 ≤ i := hi
        rw [hdigit, hget, if_neg (by omega)]
        exact h.high i (by omega)
    · have hzero : s.1 = 0 := h.carry_eq_zero hbytes (by interval_cases w <;> omega) hw hn
      have hlt : (256 + w - 1) / w - 1 < s.2.length := by
        rw [h.length]
        omega
      have hdigit : asI8 (s.2.getD ((256 + w - 1) / w - 1) 0 + asI8 (s.1 <<< w : ℕ)) =
          s.2[(256 + w - 1) / w - 1] := by
        have := hlow ((256 + w - 1) / w - 1)
        have h0 : asI8 0 = 0 := by decide
        rw [hzero, Nat.zero_shiftLeft, Nat.cast_zero, h0, add_zero,
          asI8_of_lt (by omega) (by omega), List.getD_eq_getElem _ _ hlt]
      rw [if_neg h8, hdigit, List.set_getElem_self]
      rw [hzero, Nat.cast_zero, mul_zero, add_zero] at hvalue
      refine ⟨h.length, hvalue, habs, fun i hi => h.high i ?_⟩
      rwa [toRadix2wSizeHint, if_neg h8] at hi

end MaliciousPsu
