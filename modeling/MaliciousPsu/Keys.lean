import MaliciousPsu.Edwards

/-!
# The keys of a party

The scalars that `Party::new` derives from 32 random bytes.  The clamped integer is eight times the
key, so that a point multiplied by it loses its component in `E[8]`; the inverse keys undo the
multiplication on the points that are left.

* `Keys.eight_nsmul_mulScalar_sk8Inv`: `sk_8inv` undoes `mul_clamped(sk_8)`, up to `E[8]`.
* `Keys.mulScalar_sk_skInv`: `sk_inv` undoes `sk`.
* `Keys.new_consistent`: the key is an exact eighth of the clamped integer, already reduced, and the
  integer acts on the whole curve as the cofactor and the key.
-/

namespace MaliciousPsu

/-- Clamping a clamped integer does nothing. -/
@[simp] theorem clampInteger_idem (b : Bytes32) :
    clampInteger (clampInteger b) = clampInteger b := by
  refine BitVec.eq_of_toNat_eq (Nat.eq_of_testBit_eq fun i => ?_)
  rw [testBit_clampInteger, ← BitVec.testBit_toNat, testBit_clampInteger]
  cases b.getLsbD i <;> cases decide (i < 255) <;> cases decide (3 ≤ i) <;> cases i == 254 <;> rfl

/-- `sk_8`, `sk`, `sk_inv` and `sk_8inv`. -/
structure Keys where
  sk8 : Bytes32
  sk : Scalar
  skInv : Scalar
  sk8Inv : Scalar

namespace Keys

/-- The keys of the random bytes `raw`. -/
def new (raw : Bytes32) : Keys :=
  let sk8 := clampInteger raw
  let sk := Scalar.fromBytesModOrder sk8 * (8 : Scalar)⁻¹
  let skInv := sk⁻¹
  let sk8Inv := skInv * (8 : Scalar)⁻¹
  ⟨sk8, sk, skInv, sk8Inv⟩

/-- The clamped integer is `8·k` for an integer `k` with `sk = k ≠ 0` modulo `ℓ`. -/
theorem exists_sk (raw : Bytes32) : ∃ k : ℕ, (clampInteger (new raw).sk8).toNat = 8 * k ∧
    (new raw).sk = k ∧ (k : Scalar) ≠ 0 := by
  obtain ⟨k, hk, hlo, hhi⟩ := clampInteger_spec raw
  refine ⟨k, ?_, ?_, ?_⟩
  · rw [new, clampInteger_idem, hk]
  · have h₈ := Scalar.eight_ne_zero
    rw [new, Scalar.fromBytesModOrder, hk]
    push_cast
    field_simp
  · intro h
    have hdvd := (ZMod.natCast_eq_zero_iff k ℓ).mp h
    have hle := Nat.le_of_dvd (by omega) hdvd
    have hlt := two_pow_lt_ℓ
    omega

theorem sk_ne_zero (raw : Bytes32) : (new raw).sk ≠ 0 := by
  obtain ⟨k, -, hsk, hk⟩ := exists_sk raw
  exact hsk ▸ hk

theorem sk_mul_skInv (raw : Bytes32) : (new raw).sk * (new raw).skInv = 1 :=
  mul_inv_cancel₀ (sk_ne_zero raw)

section Points

variable {G : Type} [AddCommGroup G] {P : G} (raw : Bytes32)

/-- `sk_inv` undoes `sk`. -/
theorem mulScalar_sk_skInv (h : P ∈ primeSubgroup G) :
    mulScalar (mulScalar P (new raw).sk) (new raw).skInv = P := by
  rw [mulScalar_mulScalar h, sk_mul_skInv, mulScalar_one h]

/-- Multiplying by the clamped integer is multiplying by the cofactor and by the key. -/
theorem mulClamped_eq (h : 8 • P ∈ primeSubgroup G) :
    mulClamped P (new raw).sk8 = mulScalar (8 • P) (new raw).sk := by
  obtain ⟨k, h₈, hsk, -⟩ := exists_sk raw
  rw [mulClamped, h₈, hsk, ← nsmul_eq_mulScalar h, smul_smul, mul_comm]

theorem mulClamped_mem (h : 8 • P ∈ primeSubgroup G) :
    mulClamped P (new raw).sk8 ∈ primeSubgroup G :=
  mulClamped_eq raw h ▸ mulScalar_mem h _

/-- A multiple by `8⁻¹` is, times 8, the point itself. -/
theorem eight_nsmul_mulScalar (h : P ∈ primeSubgroup G) (s : Scalar) :
    8 • mulScalar P (s * (8 : Scalar)⁻¹) = mulScalar P s := by
  rw [nsmul_eq_mulScalar (mulScalar_mem h _), mulScalar_mulScalar h, mul_assoc]
  congr 1
  rw [show ((8 : ℕ) : Scalar) = 8 from rfl, inv_mul_cancel₀ Scalar.eight_ne_zero, mul_one]

/-- **`sk_8inv` undoes `mul_clamped(sk_8)`**, up to `E[8]`. -/
theorem eight_nsmul_mulScalar_sk8Inv (h : 8 • P ∈ primeSubgroup G) :
    8 • mulScalar (mulClamped P (new raw).sk8) (new raw).sk8Inv = 8 • P := by
  rw [show (new raw).sk8Inv = (new raw).skInv * (8 : Scalar)⁻¹ from rfl,
    eight_nsmul_mulScalar (mulClamped_mem raw h), mulClamped_eq raw h, mulScalar_sk_skInv raw h]

end Points

/-! ### The keys on the whole curve -/

open EdwardsPoint

/-- The integer `sk_8` and the scalars derived from it agree. -/
structure Exact (keys : Keys) : Prop where
  eighth : keys.sk8.toNat = 8 * keys.sk.val
  le : 2 ^ 251 ≤ keys.sk.val
  lt : keys.sk.val < 2 ^ 252
  ne_zero : keys.sk ≠ 0
  mul_skInv : keys.sk * keys.skInv = 1
  mul_sk8Inv : 8 * keys.sk * keys.sk8Inv = 1

/-- What the keys do to a point of the curve. -/
structure Acts (keys : Keys) (P : EdwardsPoint) : Prop where
  clamped : mulClamped P keys.sk8 = mulScalar (8 • P) keys.sk
  mem : mulClamped P keys.sk8 ∈ primeSubgroup EdwardsPoint
  torsion_free : ∀ T : EdwardsPoint, 8 • T = 0 →
    mulClamped (P + T) keys.sk8 = mulClamped P keys.sk8
  eq_zero : mulClamped P keys.sk8 = 0 → 8 • P = 0
  unblind : ∀ k, mulScalar (mulScalar (mulClamped P keys.sk8) k) keys.skInv = mulScalar (8 • P) k
  exists_torsion : ∃ T : EdwardsPoint, 8 • T = 0 ∧ P - T ∈ primeSubgroup EdwardsPoint
  recover : ∀ T : EdwardsPoint, 8 • T = 0 → P - T ∈ primeSubgroup EdwardsPoint →
    mulScalar (mulClamped P keys.sk8) keys.sk8Inv = P - T

theorem new_exact (raw : Bytes32) : (new raw).Exact := by
  obtain ⟨k, hk, hlo, hhi⟩ := clampInteger_spec raw
  have h₈ := Scalar.eight_ne_zero
  have hne := sk_ne_zero raw
  have hlt : k < ℓ := hhi.trans two_pow_lt_ℓ
  have hsk : (new raw).sk = k := by
    rw [new, Scalar.fromBytesModOrder, hk]
    push_cast
    field_simp
  have hval : (new raw).sk.val = k := by
    rw [hsk, ZMod.val_natCast, Nat.mod_eq_of_lt hlt]
  refine ⟨?_, ?_, ?_, hne, sk_mul_skInv raw, ?_⟩
  · rw [hval]
    exact hk
  · rw [hval]
    exact hlo
  · rw [hval]
    exact hhi
  · rw [show (new raw).sk8Inv = (new raw).skInv * (8 : Scalar)⁻¹ from rfl,
      show (new raw).skInv = (new raw).sk⁻¹ from rfl]
    field_simp

/-- A point of `E[8]` that `ℓ` annihilates is the identity. -/
theorem eq_zero_of_torsion {T : EdwardsPoint} (h₈ : 8 • T = 0)
    (h : T ∈ primeSubgroup EdwardsPoint) : T = 0 := by
  rw [← mulScalar_one h, ← mul_inv_cancel₀ Scalar.eight_ne_zero, ← mulScalar_mulScalar h,
    show (8 : Scalar) = ((8 : ℕ) : Scalar) from rfl, ← nsmul_eq_mulScalar h, h₈, mulScalar_zero]

theorem new_acts (raw : Bytes32) (P : EdwardsPoint) : (new raw).Acts P := by
  have h₈ := eight_nsmul_mem P
  have hclamped := mulClamped_eq raw h₈
  have hmem := mulClamped_mem raw h₈
  -- what the inverse of the clamped integer leaves, and the component in `E[8]` that it drops
  set Q := mulScalar (mulClamped P (new raw).sk8) (new raw).sk8Inv with hQ
  have hQmem : Q ∈ primeSubgroup EdwardsPoint := mulScalar_mem hmem _
  have hQ₈ : 8 • Q = 8 • P := eight_nsmul_mulScalar_sk8Inv raw h₈
  refine ⟨hclamped, hmem, fun T hT => ?_, fun hzero => ?_, fun k => ?_, ⟨P - Q, ?_, ?_⟩,
    fun T hT hPT => ?_⟩
  · rw [mulClamped_eq raw (eight_nsmul_mem (P + T)), hclamped, smul_add, hT, add_zero]
  · rw [← hQ₈, hQ, hzero, mulScalar_zero, smul_zero]
  · rw [mulScalar_mulScalar hmem, hclamped, mulScalar_mulScalar h₈, mul_left_comm,
      sk_mul_skInv, mul_one]
  · rw [smul_sub, hQ₈, sub_self]
  · rw [sub_sub_cancel]
    exact hQmem
  · refine sub_eq_zero.mp (eq_zero_of_torsion ?_ (sub_mem hQmem hPT))
    rw [smul_sub, hQ₈, smul_sub, hT, sub_zero, sub_self]

/-- **The derived keys are consistent**, as integers and on every point of the curve. -/
theorem new_consistent (raw : Bytes32) :
    (new raw).sk8 = clampInteger raw ∧ (new raw).Exact ∧ ∀ P, (new raw).Acts P :=
  ⟨rfl, new_exact raw, new_acts raw⟩

end Keys

end MaliciousPsu
