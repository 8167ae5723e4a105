import Mathlib.Algebra.Polynomial.Eval.Degree
import Mathlib.Algebra.Polynomial.Reverse
import Mathlib.Algebra.CharP.Two
import Mathlib.Algebra.Field.ZMod

/-!
# Words as polynomials

The bits of a word are the coefficients of a polynomial: of `bitPoly` over the numbers, where the
word is its value at 2, and of `gf2` over the field of two elements, where sums are exclusive ors
and products are carry-less.

* `gf2_xor`, `gf2_shift`: sums and shifts.
* `testBit_mul`: a product of integers shows the coefficients of the product of polynomials,
  modulo 2, as far as no carry reaches them.
* `sum_lt_of_holes`: none does when only every fourth coefficient is not zero and each is below 16.
-/

open Polynomial Finset

noncomputable section

variable {w : ℕ}

/-- The bits of a word as coefficients. -/
def bitPoly (v : BitVec w) : ℕ[X] := ∑ i ∈ range w, monomial i (v.getLsbD i).toNat

/-- The bits of a word as coefficients modulo 2. -/
def gf2 (v : BitVec w) : (ZMod 2)[X] := (bitPoly v).map (Nat.castRingHom (ZMod 2))

section Words

variable (u v : BitVec w) (i : ℕ)

@[simp] theorem coeff_bitPoly : (bitPoly v).coeff i = (v.getLsbD i).toNat := by
  by_cases hi : i < w
  · simp [bitPoly, coeff_monomial, hi]
  · simp [bitPoly, coeff_monomial, hi, BitVec.getLsbD_of_ge v i (not_lt.mp hi)]

@[simp] theorem coeff_gf2 : (gf2 v).coeff i = if v.getLsbD i then 1 else 0 := by
  rw [gf2, coeff_map, coeff_bitPoly]
  cases v.getLsbD i <;> simp

theorem natDegree_bitPoly_le : (bitPoly v).natDegree ≤ w - 1 := by
  refine natDegree_le_iff_coeff_eq_zero.mpr fun i hi => ?_
  rw [coeff_bitPoly, BitVec.getLsbD_of_ge v i (by omega)]
  rfl

theorem natDegree_gf2_le : (gf2 v).natDegree ≤ w - 1 :=
  natDegree_map_le.trans (natDegree_bitPoly_le v)

theorem gf2_injective : Function.Injective (gf2 : BitVec w → (ZMod 2)[X]) := by
  intro u v h
  refine BitVec.eq_of_getLsbD_eq fun i _ => ?_
  have hi := congrArg (fun p : (ZMod 2)[X] => p.coeff i) h
  simp only [coeff_gf2] at hi
  cases hu : u.getLsbD i <;> cases hv : v.getLsbD i <;> simp [hu, hv] at hi ⊢

@[simp] theorem gf2_zero : gf2 (0 : BitVec w) = 0 := by
  ext i
  simp

/-- **Sums are exclusive ors.** -/
@[simp] theorem gf2_xor : gf2 (u ^^^ v) = gf2 u + gf2 v := by
  ext i
  simp only [coeff_gf2, coeff_add, BitVec.getLsbD_xor]
  cases u.getLsbD i <;> cases v.getLsbD i <;> decide

/-- A single bit. -/
theorem gf2_twoPow {n : ℕ} (hn : n < w) : gf2 (BitVec.twoPow w n) = X ^ n := by
  ext i
  rw [coeff_gf2, coeff_X_pow, BitVec.getLsbD_twoPow]
  simp [hn, eq_comm]

/-- A word above another. -/
theorem gf2_append {n : ℕ} (u : BitVec n) (v : BitVec w) :
    gf2 (u ++ v) = gf2 v + X ^ w * gf2 u := by
  ext i
  rw [coeff_gf2, coeff_add, coeff_X_pow_mul', coeff_gf2, BitVec.getLsbD_append]
  by_cases hi : i < w
  · simp [hi, not_le.mpr hi]
  · simp [hi, not_lt.mp hi]

/-- **Shifts**: what leaves a word on the left is what is left of it on the right. -/
theorem gf2_shift {n : ℕ} (hn : n ≤ w) :
    gf2 (v <<< n) + X ^ w * gf2 (v >>> (w - n)) = X ^ n * gf2 v := by
  ext i
  rw [coeff_add, coeff_X_pow_mul', coeff_X_pow_mul', coeff_gf2, coeff_gf2, coeff_gf2,
    BitVec.getLsbD_shiftLeft, BitVec.getLsbD_ushiftRight]
  rcases lt_or_ge i w with hi | hi
  · rw [if_neg (not_le.mpr hi), add_zero]
    by_cases h : n ≤ i
    · simp [h, hi, not_lt.mpr h]
    · simp [h, hi, not_le.mp h]
  · rw [if_pos hi, if_pos (hn.trans hi), show w - n + (i - w) = i - n by omega]
    simp [not_lt.mpr hi]

/-- A word is the value of its polynomial at 2. -/
theorem eval_bitPoly : (bitPoly v).eval 2 = v.toNat := by
  have hsum : ∀ n, ∑ i ∈ range n, (v.getLsbD i).toNat * 2 ^ i = v.toNat % 2 ^ n := by
    intro n
    induction n with
    | zero => simp [Nat.mod_one]
    | succ n ih =>
        rw [sum_range_succ, ih, Nat.mod_pow_succ, ← BitVec.testBit_toNat, Nat.toNat_testBit,
          mul_comm]
  rw [bitPoly, eval_finsetSum]
  simp only [eval_monomial]
  rw [hsum, Nat.mod_eq_of_lt v.isLt]

end Words

/-! ### Products of integers -/

section Holes

variable {c : ℕ → ℕ} {k : ℕ}

/-- A digit that no carry reaches. -/
theorem testBit_sum_two_pow {n : ℕ} (hk : k < n) (h : ∑ i ∈ range k, c i * 2 ^ i < 2 ^ k) :
    (∑ i ∈ range n, c i * 2 ^ i).testBit k = decide (c k % 2 = 1) := by
  obtain ⟨d, rfl⟩ := Nat.exists_eq_add_of_lt hk
  have hsplit : ∑ i ∈ range (k + d + 1), c i * 2 ^ i = ∑ i ∈ range k, c i * 2 ^ i +
      2 ^ k * (c k + 2 * ∑ i ∈ range d, c (k + 1 + i) * 2 ^ i) := by
    rw [show k + d + 1 = k + 1 + d by omega, sum_range_add, sum_range_succ, add_assoc, mul_add,
      mul_sum, mul_sum, mul_comm (c k)]
    refine congrArg _ (congrArg _ (sum_congr rfl fun i _ => ?_))
    rw [pow_add, pow_succ]
    ring
  rw [hsplit, Nat.testBit_eq_decide_div_mod_eq, Nat.add_mul_div_left _ _ (Nat.two_pow_pos k),
    Nat.div_eq_of_lt h, zero_add, Nat.add_mul_mod_self_left]

/-- **Digits with holes between them** carry nothing over. -/
theorem sum_lt_of_holes (hc : ∀ i < k, c i ≤ 15) (hz : ∀ i < k, i % 4 ≠ k % 4 → c i = 0) :
    ∑ i ∈ range k, c i * 2 ^ i < 2 ^ k := by
  induction k using Nat.strong_induction_on with
  | _ k ih =>
      rcases lt_or_ge k 4 with hk | hk
      · have hsum : ∑ i ∈ range k, c i * 2 ^ i = 0 := sum_eq_zero fun i hi => by
          rw [hz i (mem_range.mp hi) (by have := mem_range.mp hi; omega), zero_mul]
        rw [hsum]
        exact Nat.two_pow_pos k
      · obtain ⟨k, rfl⟩ := Nat.exists_eq_add_of_le' hk
        have hlow := ih k (by omega) (fun i hi => hc i (by omega)) fun i hi hne =>
          hz i (by omega) (by omega)
        have h := hc k (by omega)
        rw [sum_range_succ, sum_range_succ, sum_range_succ, sum_range_succ,
          hz (k + 1) (by omega) (by omega), hz (k + 2) (by omega) (by omega),
          hz (k + 3) (by omega) (by omega)]
        have hmul : c k * 2 ^ k ≤ 15 * 2 ^ k := Nat.mul_le_mul_right _ h
        calc _ < 2 ^ k + 15 * 2 ^ k := by omega
          _ = 2 ^ (k + 4) := by ring

/-- **A product of words**, as far as no carry reaches. -/
theorem testBit_mul {u v : BitVec w}
    (h : ∑ i ∈ range k, (bitPoly u * bitPoly v).coeff i * 2 ^ i < 2 ^ k) :
    (if (u.toNat * v.toNat).testBit k then 1 else 0 : ZMod 2) = (gf2 u * gf2 v).coeff k := by
  have hcoeff : (gf2 u * gf2 v).coeff k = ((bitPoly u * bitPoly v).coeff k : ZMod 2) := by
    rw [gf2, gf2, ← Polynomial.map_mul, coeff_map]
    rfl
  have hval := eval_eq_sum_range' (p := bitPoly u * bitPoly v)
    (n := max (k + 1) ((bitPoly u * bitPoly v).natDegree + 1)) (by omega) 2
  rw [eval_mul, eval_bitPoly, eval_bitPoly] at hval
  rw [hval, testBit_sum_two_pow (by omega) h, hcoeff]
  rcases Nat.mod_two_eq_zero_or_one ((bitPoly u * bitPoly v).coeff k) with h | h
  · rw [h, (ZMod.natCast_eq_zero_iff _ 2).mpr (Nat.dvd_of_mod_eq_zero h)]
    rfl
  · rw [h, ← ZMod.natCast_mod, h]
    simp

end Holes

end
