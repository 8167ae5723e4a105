import MaliciousPsu.Bytes
import MaliciousPsu.Lib.PowMod
import Mathlib.Algebra.Field.ZMod
import Mathlib.Algebra.Module.Submodule.Basic
import Mathlib.Algebra.Module.ZMod
import Mathlib.Tactic.NormNum.Prime

/-!
# Scalars

`Scalar` is an element of `ℤ/ℓ`, `ℓ` the prime order of the basepoint.  A point is multiplied by
the representative of a scalar in `0 … ℓ-1` (`mulScalar`), or by a clamped integer that is not
reduced (`mulClamped`).  The two agree with a `ℤ/ℓ`-module only on the points that `ℓ`
annihilates, `primeSubgroup`: elsewhere `mulScalar` is not additive in the scalar.

* `prime_ℓ`: `ℓ` is prime.
* `clampInteger_spec`: a clamped integer is `8·k` with `2^251 ≤ k < 2^252`.
* `mulScalar_coe`: on `primeSubgroup`, `mulScalar` is the scalar action.
-/

namespace MaliciousPsu

/-- `2^252 + 27742317777372353535851937790883648493`, the order of the basepoint. -/
def ℓ : ℕ := 2 ^ 252 + 27742317777372353535851937790883648493

theorem prime_ℓ : ℓ.Prime := by
  have h₀ : Nat.Prime 58964693 := by
    refine prime_of_lucas 2 [2, 2, 14741173] (by norm_num) (by norm_num) (by norm_num)
      (by decide +kernel) (by decide +kernel) ?_
    norm_num
  have h₁ : Nat.Prime 3044861653679985063343 := by
    refine prime_of_lucas 5 [2, 3, 11, 30703, 82163, 132667, 137849] (by norm_num) (by norm_num)
      (by norm_num) (by decide +kernel) (by decide +kernel) ?_
    norm_num
  have h₂ : Nat.Prime 198211423230930754013084525763697 := by
    refine prime_of_lucas 5 [2, 2, 2, 2, 3, 23, 58964693, 3044861653679985063343] (by norm_num)
      (by norm_num) (by norm_num) (by decide +kernel) (by decide +kernel) ?_
    simp only [List.forall_mem_cons, List.not_mem_nil, false_imp_iff, implies_true, and_true]
    refine ⟨?_, ?_, ?_, ?_, ?_, ?_, h₀, h₁⟩ <;> norm_num
  have h₃ : Nat.Prime 1257559732178653 := by
    refine prime_of_lucas 2 [2, 2, 3, 7, 23, 531581, 1224481] (by norm_num) (by norm_num)
      (by norm_num) (by decide +kernel) (by decide +kernel) ?_
    norm_num
  have h₄ : Nat.Prime 4434155615661930479 := by
    refine prime_of_lucas 17 [2, 41, 43, 1257559732178653] (by norm_num) (by norm_num)
      (by norm_num) (by decide +kernel) (by decide +kernel) ?_
    simp only [List.forall_mem_cons, List.not_mem_nil, false_imp_iff, implies_true, and_true]
    refine ⟨?_, ?_, ?_, h₃⟩ <;> norm_num
  have h₅ : Nat.Prime 172054593956031949258510691 := by
    refine prime_of_lucas 2 [2, 5, 1361, 2851, 4434155615661930479] (by norm_num) (by norm_num)
      (by norm_num) (by decide +kernel) (by decide +kernel) ?_
    simp only [List.forall_mem_cons, List.not_mem_nil, false_imp_iff, implies_true, and_true]
    refine ⟨?_, ?_, ?_, ?_, h₄⟩ <;> norm_num
  have h₆ : Nat.Prime 292386187 := by
    refine prime_of_lucas 2 [2, 3, 3, 3, 3, 307, 5879] (by norm_num) (by norm_num)
      (by norm_num) (by decide +kernel) (by decide +kernel) ?_
    norm_num
  have h₆ : Nat.Prime 213441916511 := by
    refine prime_of_lucas 13 [2, 5, 73, 292386187] (by norm_num) (by norm_num)
      (by norm_num) (by decide +kernel) (by decide +kernel) ?_
    simp only [List.forall_mem_cons, List.not_mem_nil, false_imp_iff, implies_true, and_true]
    refine ⟨?_, ?_, ?_, h₆⟩ <;> norm_num
  have h₇ : Nat.Prime 19757330305831588566944191468367130476339 := by
    refine prime_of_lucas 2 [2, 269, 213441916511, 172054593956031949258510691] (by norm_num)
      (by norm_num) (by norm_num) (by decide +kernel) (by decide +kernel) ?_
    simp only [List.forall_mem_cons, List.not_mem_nil, false_imp_iff, implies_true, and_true]
    refine ⟨?_, ?_, h₆, h₅⟩ <;> norm_num
  have h₈ : Nat.Prime 276602624281642239937218680557139826668747 := by
    refine prime_of_lucas 2 [2, 7, 19757330305831588566944191468367130476339] (by norm_num)
      (by norm_num) (by norm_num) (by decide +kernel) (by decide +kernel) ?_
    simp only [List.forall_mem_cons, List.not_mem_nil, false_imp_iff, implies_true, and_true]
    refine ⟨?_, ?_, h₇⟩ <;> norm_num
  refine prime_of_lucas 2 [2, 2, 3, 11, 198211423230930754013084525763697,
    276602624281642239937218680557139826668747] (by decide +kernel) (by decide) (by decide)
    (by decide +kernel) (by decide +kernel) ?_
  simp only [List.forall_mem_cons, List.not_mem_nil, false_imp_iff, implies_true, and_true]
  refine ⟨?_, ?_, ?_, ?_, h₂, h₈⟩ <;> norm_num

instance : Fact ℓ.Prime := ⟨prime_ℓ⟩

theorem ℓ_lt : ℓ < 2 ^ 253 := by decide

theorem two_pow_lt_ℓ : 2 ^ 252 < ℓ := by decide

theorem coprime_ℓ_eight : Nat.Coprime ℓ 8 := by decide +kernel

/-- An integer modulo `ℓ`. -/
abbrev Scalar := ZMod ℓ

namespace Scalar

/-- `from_bytes_mod_order`. -/
def fromBytesModOrder (b : Bytes32) : Scalar := (b.toNat : Scalar)

/-- `as_bytes`: the canonical encoding. -/
def asBytes (s : Scalar) : Bytes32 := BitVec.ofNat 256 s.val

/-- `from_canonical_bytes`. -/
def fromCanonicalBytes (b : Bytes32) : Option Scalar :=
  if b.toNat < ℓ then some (fromBytesModOrder b) else none

theorem val_lt (s : Scalar) : s.val < ℓ := ZMod.val_lt s

@[simp] theorem toNat_asBytes (s : Scalar) : (asBytes s).toNat = s.val := by
  have h := val_lt s
  have hℓ := ℓ_lt
  simp only [asBytes, BitVec.toNat_ofNat]
  omega

@[simp] theorem fromCanonicalBytes_asBytes (s : Scalar) :
    fromCanonicalBytes (asBytes s) = some s := by
  simp [fromCanonicalBytes, fromBytesModOrder, val_lt]

theorem eight_ne_zero : (8 : Scalar) ≠ 0 := by decide +kernel

end Scalar

/-! ### Clamping -/

/-- `clamp_integer`: clears bits 0, 1, 2 and 255 and sets bit 254. -/
def clampInteger (bytes : Bytes32) : Bytes32 :=
  (bytes &&& ~~~7#256 &&& ~~~BitVec.twoPow 256 255) ||| BitVec.twoPow 256 254

theorem testBit_clampInteger (b : Bytes32) (i : ℕ) : (clampInteger b).toNat.testBit i =
    (b.getLsbD i && i < 255 && 3 ≤ i || i == 254) := by
  have h7 : Nat.testBit 7 i = decide (i < 3) := Nat.testBit_two_pow_sub_one 3 i
  simp only [clampInteger, BitVec.testBit_toNat, BitVec.getLsbD_or, BitVec.getLsbD_and,
    BitVec.getLsbD_not, BitVec.getLsbD_twoPow, BitVec.getLsbD_ofNat, h7]
  have h := BitVec.getLsbD_of_ge b i
  by_cases hi : i < 256
  · by_cases h3 : i < 3
    · have : i ≠ 254 := by omega
      have : 254 ≠ i := by omega
      have : ¬ 3 ≤ i := by omega
      simp [*]
    · have h3' : 3 ≤ i := by omega
      rcases Nat.lt_trichotomy i 254 with h | rfl | h
      · have : 254 ≠ i := by omega
        have : 255 ≠ i := by omega
        have : i ≠ 254 := by omega
        have : i < 255 := by omega
        simp [*]
      · simp
      · obtain rfl : i = 255 := by omega
        simp
  · have : ¬ i < 255 := by omega
    have : 254 ≠ i := by omega
    have : i ≠ 254 := by omega
    simp [*]

/-- **A clamped integer is eight times an integer of 252 bits.** -/
theorem clampInteger_spec (b : Bytes32) :
    ∃ k, (clampInteger b).toNat = 8 * k ∧ 2 ^ 251 ≤ k ∧ k < 2 ^ 252 := by
  have h₈ : (clampInteger b).toNat % 2 ^ 3 = 0 := by
    refine Nat.eq_of_testBit_eq fun i => ?_
    simp only [Nat.testBit_mod_two_pow, testBit_clampInteger, Nat.zero_testBit]
    by_cases h : i < 3
    · have : ¬ 3 ≤ i := by omega
      have : i ≠ 254 := by omega
      simp [*]
    · simp [h]
  have hlt : (clampInteger b).toNat < 2 ^ 255 := Nat.lt_pow_two_of_testBit _ fun i hi => by
    have : ¬ i < 255 := by omega
    have : i ≠ 254 := by omega
    simp [testBit_clampInteger, *]
  have hge : 2 ^ 254 ≤ (clampInteger b).toNat :=
    Nat.ge_two_pow_of_testBit (by simp [testBit_clampInteger])
  exact ⟨(clampInteger b).toNat / 8, by omega, by omega, by omega⟩

/-! ### Multiples of a point -/

section Mul

variable {G : Type*} [AddCommGroup G]

/-- `EdwardsPoint * Scalar`: the multiple by the representative of the scalar below `ℓ`. -/
def mulScalar (P : G) (s : Scalar) : G := s.val • P

/-- `mul_clamped`: the multiple by the clamped integer, unreduced. -/
def mulClamped (P : G) (bytes : Bytes32) : G := (clampInteger bytes).toNat • P

/-- `mul_by_cofactor`. -/
def mulByCofactor (P : G) : G := 8 • P

@[simp] theorem mulScalar_zero (s : Scalar) : mulScalar (0 : G) s = 0 := smul_zero _

/-- In a `ℤ/ℓ`-module, `mulScalar` is the scalar action. -/
theorem mulScalar_eq_smul {V : Type*} [AddCommGroup V] [Module Scalar V] (P : V) (s : Scalar) :
    mulScalar P s = s • P := by
  rw [mulScalar, ← Nat.cast_smul_eq_nsmul Scalar, ZMod.natCast_zmod_val]

variable (G) in
/-- The points that `ℓ` annihilates. -/
def primeSubgroup : AddSubgroup G where
  carrier := {P | ℓ • P = 0}
  add_mem' {P Q} hP hQ := by
    simp only [Set.mem_ofPred_eq] at hP hQ ⊢
    rw [smul_add, hP, hQ, add_zero]
  zero_mem' := smul_zero _
  neg_mem' {P} hP := by
    simp only [Set.mem_ofPred_eq] at hP ⊢
    rw [smul_neg, hP, neg_zero]

theorem mem_primeSubgroup {P : G} : P ∈ primeSubgroup G ↔ ℓ • P = 0 := Iff.rfl

instance : Module Scalar (primeSubgroup G) :=
  AddCommGroup.zmodModule fun P => Subtype.ext P.2

/-- On `primeSubgroup`, `mulScalar` is the scalar action. -/
theorem mulScalar_coe (P : primeSubgroup G) (s : Scalar) :
    mulScalar (P : G) s = ((s • P : primeSubgroup G) : G) := by
  rw [← mulScalar_eq_smul, mulScalar, mulScalar, AddSubgroup.coe_nsmul]

theorem mulScalar_mem {P : G} (h : P ∈ primeSubgroup G) (s : Scalar) :
    mulScalar P s ∈ primeSubgroup G := nsmul_mem h _

/-- An integer multiple of a point of `primeSubgroup` is a multiple by a scalar. -/
theorem nsmul_eq_mulScalar {P : G} (h : P ∈ primeSubgroup G) (n : ℕ) :
    n • P = mulScalar P (n : Scalar) := by
  rw [mulScalar_coe ⟨P, h⟩, Nat.cast_smul_eq_nsmul, AddSubgroup.coe_nsmul]

theorem mulScalar_mulScalar {P : G} (h : P ∈ primeSubgroup G) (s t : Scalar) :
    mulScalar (mulScalar P s) t = mulScalar P (s * t) := by
  rw [mulScalar_coe ⟨P, h⟩, mulScalar_coe, mulScalar_coe ⟨P, h⟩, smul_smul, mul_comm]

theorem mulScalar_one {P : G} (h : P ∈ primeSubgroup G) : mulScalar P 1 = P := by
  rw [mulScalar_coe ⟨P, h⟩, one_smul]

/-- Every point, multiplied by the scalar `0`. -/
theorem mulScalar_zero_right (P : G) : mulScalar P 0 = 0 := by
  rw [mulScalar, ZMod.val_zero, zero_nsmul]

/-- A key other than `0` is undone by its inverse. -/
theorem mulScalar_inj {P Q : G} {s : Scalar} (hs : s ≠ 0) (hP : P ∈ primeSubgroup G)
    (hQ : Q ∈ primeSubgroup G) : mulScalar P s = mulScalar Q s ↔ P = Q := by
  refine ⟨fun h => ?_, fun h => h ▸ rfl⟩
  have hinv := congrArg (fun R => mulScalar R s⁻¹) h
  simp only [mulScalar_mulScalar hP, mulScalar_mulScalar hQ, mul_inv_cancel₀ hs, mulScalar_one hP,
    mulScalar_one hQ] at hinv
  exact hinv

end Mul

end MaliciousPsu
