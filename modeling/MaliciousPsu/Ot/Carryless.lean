import MaliciousPsu.Bytes
import MaliciousPsu.Lib.Gf2
import Mathlib.Tactic.FinCases
import Mathlib.Tactic.LinearCombination

/-!
# Carry-less multiplication

`carryless_mul` of `vectoreyes` without the instruction for it, by integer products of words with
holes between their bits, and the product of 128 bits by three of 64 that the consistency check of
the extension sums.

* `gf2_carrylessMul`: the product by integer products is the product of polynomials.
* `gf2_carrylessMulWide`: so is the one by three products.
-/

namespace MaliciousPsu

/-- `bmul64`: the lower half of a product. -/
def bmul64 (x y : BitVec 64) : BitVec 64 :=
  let x0 := x &&& 0x1111111111111111
  let x1 := x &&& 0x2222222222222222
  let x2 := x &&& 0x4444444444444444
  let x3 := x &&& 0x8888888888888888
  let y0 := y &&& 0x1111111111111111
  let y1 := y &&& 0x2222222222222222
  let y2 := y &&& 0x4444444444444444
  let y3 := y &&& 0x8888888888888888
  let z0 := (x0 * y0) ^^^ (x1 * y3) ^^^ (x2 * y2) ^^^ (x3 * y1)
  let z1 := (x0 * y1) ^^^ (x1 * y0) ^^^ (x2 * y3) ^^^ (x3 * y2)
  let z2 := (x0 * y2) ^^^ (x1 * y1) ^^^ (x2 * y0) ^^^ (x3 * y3)
  let z3 := (x0 * y3) ^^^ (x1 * y2) ^^^ (x2 * y1) ^^^ (x3 * y0)
  let z0 := z0 &&& 0x1111111111111111
  let z1 := z1 &&& 0x2222222222222222
  let z2 := z2 &&& 0x4444444444444444
  let z3 := z3 &&& 0x8888888888888888
  z0 ||| z1 ||| z2 ||| z3

/-- A step of `rev64`. -/
def revStep (mask : BitVec 64) (s : ℕ) (x : BitVec 64) : BitVec 64 :=
  ((x &&& mask) <<< s) ||| ((x >>> s) &&& mask)

/-- `rev64`. -/
def rev64 (x : BitVec 64) : BitVec 64 :=
  let x := revStep 0x5555555555555555 1 x
  let x := revStep 0x3333333333333333 2 x
  let x := revStep 0x0f0f0f0f0f0f0f0f 4 x
  let x := revStep 0x00ff00ff00ff00ff 8 x
  let x := revStep 0x0000ffff0000ffff 16 x
  x.rotateRight 32

/-- `carryless_mul`, of the lanes that `hiSelf` and `hiOther` pick. -/
def carrylessMul (hiOther hiSelf : Bool) (a b : BitVec 128) : BitVec 128 :=
  let x := a.extractLsb' (if hiSelf then 64 else 0) 64
  let y := b.extractLsb' (if hiOther then 64 else 0) 64
  (rev64 (bmul64 (rev64 x) (rev64 y)) >>> 1) ++ bmul64 x y

/-- `carryless_mul_wide`: the lower half of the product and the upper one. -/
def carrylessMulWide (a b : Block) : Block × Block :=
  let c := carrylessMul true true a b
  let d := carrylessMul false false a b
  let e := carrylessMul false false (a ^^^ (a >>> 64)) (b ^^^ (b >>> 64))
  (d ^^^ (d <<< 64) ^^^ (c <<< 64) ^^^ (e <<< 64), c ^^^ (c >>> 64) ^^^ (d >>> 64) ^^^ (e >>> 64))

open Polynomial Finset

/-! ### Reversing a word -/

section Reverse

theorem testBit_xor_two_pow : ∀ k < 6, ∀ i < 64,
    (i.testBit k = true → 2 ^ k ≤ i ∧ (i - 2 ^ k).testBit k = false ∧ i ^^^ 2 ^ k = i - 2 ^ k) ∧
    (i.testBit k = false → i ^^^ 2 ^ k = i + 2 ^ k ∧ i + 2 ^ k < 64 ∧
      (2 ^ k ≤ i → (i - 2 ^ k).testBit k = true)) := by
  decide +kernel

/-- A step swaps neighbouring groups of bits. -/
theorem getLsbD_revStep {mask : BitVec 64} {k : ℕ} (hk : k < 6)
    (hmask : ∀ i < 64, mask.getLsbD i = !i.testBit k) (x : BitVec 64) {i : ℕ} (hi : i < 64) :
    (revStep mask (2 ^ k) x).getLsbD i = x.getLsbD (i ^^^ 2 ^ k) := by
  obtain ⟨htrue, hfalse⟩ := testBit_xor_two_pow k hk i hi
  simp only [revStep, BitVec.getLsbD_or, BitVec.getLsbD_and, BitVec.getLsbD_shiftLeft,
    BitVec.getLsbD_ushiftRight]
  rw [hmask i hi, hmask (i - 2 ^ k) ((Nat.sub_le _ _).trans_lt hi)]
  cases hbit : i.testBit k with
  | true =>
      obtain ⟨hle, hsub, hxor⟩ := htrue hbit
      simp [hi, not_lt.mpr hle, hsub, hxor]
  | false =>
      obtain ⟨hxor, -, hsub⟩ := hfalse hbit
      by_cases hle : 2 ^ k ≤ i
      · simp [hsub hle, hxor, add_comm]
      · simp [not_le.mp hle, hxor, add_comm]

theorem xor_sixty_three : ∀ i < 64, (i ^^^ 32) < 64 ∧ (i ^^^ 32 ^^^ 16) < 64 ∧
    (i ^^^ 32 ^^^ 16 ^^^ 8) < 64 ∧ (i ^^^ 32 ^^^ 16 ^^^ 8 ^^^ 4) < 64 ∧
    (i ^^^ 32 ^^^ 16 ^^^ 8 ^^^ 4 ^^^ 2) < 64 ∧
    (i ^^^ 32 ^^^ 16 ^^^ 8 ^^^ 4 ^^^ 2 ^^^ 1) = 63 - i := by
  decide +kernel

/-- **The bits in reverse order.** -/
theorem getLsbD_rev64 (x : BitVec 64) {i : ℕ} (hi : i < 64) :
    (rev64 x).getLsbD i = x.getLsbD (63 - i) := by
  obtain ⟨h₀, h₁, h₂, h₃, h₄, h₅⟩ := xor_sixty_three i hi
  have hrot : ∀ y : BitVec 64, (y.rotateRight 32).getLsbD i = y.getLsbD (i ^^^ 32) := by
    intro y
    obtain ⟨htrue, hfalse⟩ := testBit_xor_two_pow 5 (by decide) i hi
    rw [BitVec.getLsbD_rotateRight]
    cases hbit : i.testBit 5 with
    | true =>
        obtain ⟨hle, -, hxor⟩ := htrue hbit
        have hidx : i ^^^ 32 = i - 32 := hxor
        simp [show ¬ i < 32 by omega, hi, hidx]
    | false =>
        obtain ⟨hxor, hlt, -⟩ := hfalse hbit
        have hidx : i ^^^ 32 = i + 32 := hxor
        simp [show i < 32 by omega, add_comm 32, hidx]
  have hstep : ∀ {mask : BitVec 64} {k j : ℕ} (y : BitVec 64), k < 6 →
      (∀ i < 64, mask.getLsbD i = !i.testBit k) → j < 64 →
      (revStep mask (2 ^ k) y).getLsbD j = y.getLsbD (j ^^^ 2 ^ k) :=
    fun y hk hmask hj => getLsbD_revStep hk hmask y hj
  rw [rev64, hrot, ← h₅]
  refine (hstep (k := 4) _ (by decide) (by decide +kernel) h₀).trans ?_
  refine (hstep (k := 3) _ (by decide) (by decide +kernel) h₁).trans ?_
  refine (hstep (k := 2) _ (by decide) (by decide +kernel) h₂).trans ?_
  refine (hstep (k := 1) _ (by decide) (by decide +kernel) h₃).trans ?_
  exact hstep (k := 0) _ (by decide) (by decide +kernel) h₄

/-- The polynomial of a reversed word. -/
theorem gf2_rev64 (x : BitVec 64) : gf2 (rev64 x) = reflect 63 (gf2 x) := by
  ext i
  rw [coeff_reflect, coeff_gf2, coeff_gf2]
  rcases lt_or_ge i 64 with hi | hi
  · rw [getLsbD_rev64 x hi, revAt_le (by omega)]
  · rw [BitVec.getLsbD_of_ge _ i hi, revAt_eq_self_of_lt (by omega), BitVec.getLsbD_of_ge _ i hi]

end Reverse

/-! ### Integer products -/

section Product

/-- The masks of every fourth bit. -/
def holeMask : Fin 4 → BitVec 64 :=
  ![0x1111111111111111, 0x2222222222222222, 0x4444444444444444, 0x8888888888888888]

theorem getLsbD_holeMask :
    ∀ (r : Fin 4), ∀ i < 64, (holeMask r).getLsbD i = decide (i % 4 = r) := by
  decide +kernel

theorem card_holes_le : ∀ n < 60, ∀ r < 4,
    ((antidiagonal n).filter fun p => p.1 % 4 = r).card ≤ 15 := by
  decide +kernel

variable (x y : BitVec 64) {r s : Fin 4} {k : ℕ}

/-- Of the product of two masked words, only every fourth coefficient is not zero. -/
theorem coeff_masked_eq_zero (hk : k % 4 ≠ (r + s) % 4) :
    (bitPoly (x &&& holeMask r) * bitPoly (y &&& holeMask s)).coeff k = 0 := by
  rw [coeff_mul]
  refine sum_eq_zero fun p hp => ?_
  have hsum : p.1 + p.2 = k := mem_antidiagonal.mp hp
  rw [coeff_bitPoly, coeff_bitPoly, BitVec.getLsbD_and, BitVec.getLsbD_and]
  by_cases h₁ : p.1 < 64
  · by_cases h₂ : p.2 < 64
    · rw [getLsbD_holeMask _ _ h₁, getLsbD_holeMask _ _ h₂]
      by_cases h : p.1 % 4 = r
      · have : p.2 % 4 ≠ s := by omega
        simp [this]
      · simp [h]
    · simp [BitVec.getLsbD_of_ge y p.2 (not_lt.mp h₂)]
  · simp [BitVec.getLsbD_of_ge x p.1 (not_lt.mp h₁)]

/-- And the first sixty fit between two holes. -/
theorem coeff_masked_le (r s : Fin 4) (hk : k < 60) :
    (bitPoly (x &&& holeMask r) * bitPoly (y &&& holeMask s)).coeff k ≤ 15 := by
  rw [coeff_mul]
  calc ∑ p ∈ antidiagonal k,
        (bitPoly (x &&& holeMask r)).coeff p.1 * (bitPoly (y &&& holeMask s)).coeff p.2
      ≤ ∑ p ∈ antidiagonal k, if p.1 % 4 = r then 1 else 0 := sum_le_sum fun p hp => by
        have hsum : p.1 + p.2 = k := mem_antidiagonal.mp hp
        rw [coeff_bitPoly, coeff_bitPoly, BitVec.getLsbD_and, getLsbD_holeMask _ _ (by omega)]
        by_cases h : p.1 % 4 = r
        · rw [if_pos h]
          exact (Nat.mul_le_mul (Bool.toNat_le _) (Bool.toNat_le _)).trans (by decide)
        · simp [h]
    _ = ((antidiagonal k).filter fun p => p.1 % 4 = (r : ℕ)).card := by rw [card_filter]
    _ ≤ 15 := card_holes_le k hk r r.isLt

/-- **A product of masked words** shows the coefficients of the product of polynomials. -/
theorem coeff_masked (hk : k < 64) (hrs : k % 4 = (r + s) % 4) :
    (if ((x &&& holeMask r) * (y &&& holeMask s)).getLsbD k then 1 else 0 : ZMod 2) =
      (gf2 (x &&& holeMask r) * gf2 (y &&& holeMask s)).coeff k := by
  rw [← testBit_mul (sum_lt_of_holes (fun i hi => ?_) fun i hi hne => ?_), ← BitVec.testBit_toNat,
    BitVec.toNat_mul, Nat.testBit_mod_two_pow, decide_eq_true hk, Bool.true_and]
  · rcases lt_or_ge i 60 with h | h
    · exact coeff_masked_le x y r s h
    · rw [coeff_masked_eq_zero x y (by omega)]
      exact Nat.zero_le _
  · exact coeff_masked_eq_zero x y (by omega)

/-- A word as the sum of its masked parts. -/
theorem gf2_eq_sum_masked : gf2 x = ∑ r, gf2 (x &&& holeMask r) := by
  ext i
  rw [finsetSum_coeff, coeff_gf2]
  simp only [coeff_gf2, BitVec.getLsbD_and]
  by_cases hi : i < 64
  · have hr : i % 4 < 4 := Nat.mod_lt _ (by decide)
    rw [sum_eq_single_of_mem (⟨i % 4, hr⟩ : Fin 4) (mem_univ _) fun r _ hne => ?_]
    · rw [getLsbD_holeMask _ _ hi, decide_eq_true rfl, Bool.and_true]
    · have : i % 4 ≠ r := fun h => hne (Fin.ext h.symm)
      rw [getLsbD_holeMask _ _ hi, decide_eq_false this]
      simp
  · simp [BitVec.getLsbD_of_ge x i (not_lt.mp hi)]

/-- The bits of class `t`. -/
def holeSum (t : Fin 4) : BitVec 64 :=
  ((x &&& holeMask 0) * (y &&& holeMask t)) ^^^ ((x &&& holeMask 1) * (y &&& holeMask (t - 1))) ^^^
    ((x &&& holeMask 2) * (y &&& holeMask (t - 2))) ^^^
    ((x &&& holeMask 3) * (y &&& holeMask (t - 3)))

theorem bmul64_eq : bmul64 x y =
    (holeSum x y 0 &&& holeMask 0) ||| (holeSum x y 1 &&& holeMask 1) |||
      (holeSum x y 2 &&& holeMask 2) ||| (holeSum x y 3 &&& holeMask 3) := rfl

theorem getLsbD_bmul64 (hk : k < 64) {t : Fin 4} (ht : k % 4 = t) :
    (bmul64 x y).getLsbD k = (holeSum x y t).getLsbD k := by
  rw [bmul64_eq]
  simp only [BitVec.getLsbD_or, BitVec.getLsbD_and, getLsbD_holeMask _ k hk, ht]
  fin_cases t <;> simp

/-- The coefficients of class `t`. -/
theorem coeff_mul_eq_sum {t : Fin 4} (ht : k % 4 = t) : (gf2 x * gf2 y).coeff k =
    ∑ r, (gf2 (x &&& holeMask r) * gf2 (y &&& holeMask (t - r))).coeff k := by
  rw [gf2_eq_sum_masked x, gf2_eq_sum_masked y, sum_mul_sum, finsetSum_coeff]
  refine sum_congr rfl fun r _ => ?_
  rw [finsetSum_coeff, sum_eq_single_of_mem (t - r) (mem_univ _) fun s _ hne => ?_]
  have hrs : k % 4 ≠ (r + s) % 4 := fun h => hne (Fin.ext (by
    rw [Fin.sub_def]
    dsimp only
    omega))
  rw [gf2, gf2, ← Polynomial.map_mul, coeff_map, coeff_masked_eq_zero x y hrs, map_zero]

/-- **The lower half of a product.** -/
theorem coeff_bmul64 (hk : k < 64) :
    (if (bmul64 x y).getLsbD k then 1 else 0 : ZMod 2) = (gf2 x * gf2 y).coeff k := by
  obtain ⟨t, ht⟩ : ∃ t : Fin 4, k % 4 = t := ⟨⟨k % 4, Nat.mod_lt _ (by decide)⟩, rfl⟩
  have hbit : ∀ a b : Bool, (if a ^^ b then 1 else 0 : ZMod 2) =
      (if a then 1 else 0) + if b then 1 else 0 := by decide
  have hclass : ∀ r : Fin 4, k % 4 = (r + (t - r : Fin 4)) % 4 := fun r => by
    rw [Fin.sub_def]
    dsimp only
    omega
  have hterm := fun r => coeff_masked x y hk (hclass r)
  have h0 := hterm 0
  rw [sub_zero] at h0
  rw [getLsbD_bmul64 x y hk ht, coeff_mul_eq_sum x y ht, Fin.sum_univ_four, holeSum,
    BitVec.getLsbD_xor, BitVec.getLsbD_xor, BitVec.getLsbD_xor, hbit, hbit, hbit, h0, hterm 1,
    hterm 2, hterm 3, sub_zero]

end Product

/-! ### Two lanes -/

section Lanes

variable (a b : BitVec 128)

/-- The product of two words reaches coefficient 126. -/
theorem coeff_mul_eq_zero (x y : BitVec 64) {i : ℕ} (hi : 127 ≤ i) :
    (gf2 x * gf2 y).coeff i = 0 := by
  refine coeff_eq_zero_of_natDegree_lt ?_
  have hx := natDegree_gf2_le x
  have hy := natDegree_gf2_le y
  have hmul := natDegree_mul_le (p := gf2 x) (q := gf2 y)
  omega

/-- **The upper half of a product**, from the lower half of that of the reversed words. -/
theorem coeff_upper (x y : BitVec 64) (i : ℕ) :
    (if (rev64 (bmul64 (rev64 x) (rev64 y)) >>> 1).getLsbD i then 1 else 0 : ZMod 2) =
      (gf2 x * gf2 y).coeff (64 + i) := by
  rw [BitVec.getLsbD_ushiftRight]
  rcases lt_or_ge i 63 with hi | hi
  · rw [getLsbD_rev64 _ (by omega), coeff_bmul64 _ _ (by omega), gf2_rev64, gf2_rev64,
      ← reflect_mul _ _ (natDegree_gf2_le x) (natDegree_gf2_le y), coeff_reflect,
      revAt_le (by omega)]
    congr 1
    omega
  · rw [BitVec.getLsbD_of_ge _ _ (by omega), coeff_mul_eq_zero x y (by omega)]
    rfl

/-- **The product without the instruction** is the product of polynomials. -/
theorem gf2_carrylessMul (hiOther hiSelf : Bool) : gf2 (carrylessMul hiOther hiSelf a b) =
    gf2 (a.extractLsb' (if hiSelf then 64 else 0) 64) *
      gf2 (b.extractLsb' (if hiOther then 64 else 0) 64) := by
  generalize hx : a.extractLsb' (if hiSelf then 64 else 0) 64 = x
  generalize hy : b.extractLsb' (if hiOther then 64 else 0) 64 = y
  rw [carrylessMul, hx, hy, gf2_append]
  ext i
  rw [coeff_add, coeff_X_pow_mul', coeff_gf2, coeff_gf2]
  rcases lt_or_ge i 64 with hi | hi
  · rw [if_neg (not_le.mpr hi), add_zero, coeff_bmul64 x y hi]
  · rw [if_pos hi, coeff_upper, BitVec.getLsbD_of_ge _ i hi, Nat.add_sub_cancel' hi]
    simp

/-- The lower lane of the two lanes added up. -/
theorem gf2_fold (a : BitVec 128) : gf2 ((a ^^^ (a >>> 64)).extractLsb' 0 64) =
    gf2 (a.extractLsb' 0 64) + gf2 (a.extractLsb' 64 64) := by
  rw [← gf2_xor]
  congr 1
  ext i hi
  simp

theorem gf2_lanes (a : BitVec 128) :
    gf2 a = gf2 (a.extractLsb' 0 64) + X ^ 64 * gf2 (a.extractLsb' 64 64) := by
  rw [← gf2_append]
  refine congrArg gf2 (BitVec.eq_of_getLsbD_eq fun i hi => ?_)
  rw [BitVec.getLsbD_append, BitVec.getLsbD_extractLsb', BitVec.getLsbD_extractLsb']
  rcases lt_or_ge i 64 with h | h
  · simp [h]
  · simp [not_lt.mpr h, h, show i - 64 < 64 by omega]

/-- **The product of 128 bits by three of 64.** -/
theorem gf2_carrylessMulWide :
    gf2 ((carrylessMulWide a b).2 ++ (carrylessMulWide a b).1) = gf2 a * gf2 b := by
  have hc := gf2_carrylessMul a b true true
  have hd := gf2_carrylessMul a b false false
  have he := gf2_carrylessMul (a ^^^ (a >>> 64)) (b ^^^ (b >>> 64)) false false
  simp only [if_true, Bool.false_eq_true, if_false, gf2_fold] at hc hd he
  rw [gf2_append]
  simp only [carrylessMulWide]
  generalize carrylessMul true true a b = c at hc ⊢
  generalize carrylessMul false false a b = d at hd ⊢
  generalize carrylessMul false false (a ^^^ (a >>> 64)) (b ^^^ (b >>> 64)) = e at he ⊢
  have hshift : ∀ v : BitVec 128, gf2 (v <<< 64) + X ^ 128 * gf2 (v >>> 64) = X ^ 64 * gf2 v := by
    intro v
    have h := gf2_shift v (n := 64) (by decide)
    rw [show 128 - 64 = 64 by decide] at h
    exact h
  have h2 : (2 : (ZMod 2)[X]) = 0 := CharTwo.two_eq_zero
  rw [gf2_lanes a, gf2_lanes b]
  generalize gf2 (a.extractLsb' 0 64) = a₀ at *
  generalize gf2 (a.extractLsb' 64 64) = a₁ at *
  generalize gf2 (b.extractLsb' 0 64) = b₀ at *
  generalize gf2 (b.extractLsb' 64 64) = b₁ at *
  simp only [gf2_xor]
  linear_combination hshift c + hshift d + hshift e + (1 + X ^ 64) * hd +
    (X ^ 64 + X ^ 128) * hc + X ^ 64 * he + X ^ 64 * (a₀ * b₀ + a₁ * b₁) * h2

example : carrylessMulWide 113718949524325212707291430558820879029
    305595614614064458589355305592899341783 =
    (181870553715282462853040151492428488859, 69303674900886469910632566104075007218) := by
  decide +kernel

end Lanes

end MaliciousPsu
