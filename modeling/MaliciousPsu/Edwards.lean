import MaliciousPsu.Field
import MaliciousPsu.Group
import MaliciousPsu.Lib.Edwards
import Mathlib.GroupTheory.SpecificGroups.Cyclic
import Mathlib.SetTheory.Cardinal.Finite

/-!
# Edwards points

`edwards.rs`.  An `EdwardsPoint` is an affine point of `-x² + y² = 1 + d·x²·y²`; the projective
coordinates `X : Y : Z : T` that hold it, whose equality is equality of `X/Z` and `Y/Z`, are left
out.

* `decompress_compress`: decompression inverts compression.
* `card_edwardsPoint`: the curve has `8·ℓ` points.  There are at most `2·p` of them, an ordinate
  and a sign bit each, the orders of `basepoint` and of a torsion point make their number a
  multiple of `8·ℓ`, and `16·ℓ > 2·p`.
* `mem_eightTorsion`: `EIGHT_TORSION` lists every point of `E[8]`.
-/

namespace MaliciousPsu

open FieldElement

/-- `constants::EDWARDS_D`. -/
def edwardsD : FieldElement :=
  fromLimbs 929955233495203 466365720129213 1662059464998953 2033849074728123 1442794654840575

theorem edwardsD_not_isSquare : ¬ IsSquare edwardsD :=
  not_isSquare_of_powMod (by decide) (by decide +kernel) (by decide +kernel)

/-- The Edwards model of Curve25519. -/
def ed25519 : TwistedEdwards FieldElement where
  d := edwardsD
  i := sqrtM1
  i_mul_i := sqrtM1_mul_self
  mul_self_ne_d x h := edwardsD_not_isSquare ⟨x, h.symm⟩
  two_ne := by decide +kernel

/-- A point of the curve. -/
abbrev EdwardsPoint := ed25519.Point

/-- An encoding: 255 bits of `y` and the sign of `x`. -/
abbrev CompressedEdwardsY := Bytes32

namespace EdwardsPoint

theorem eq_iff {P Q : EdwardsPoint} : P = Q ↔ P.x = Q.x ∧ P.y = Q.y := TwistedEdwards.Point.ext_iff

/-! ### Compression -/

/-- `compress`: the canonical encoding of `y`, its bit 255 flipped when `x` is negative. -/
def compress (P : EdwardsPoint) : CompressedEdwardsY :=
  asBytes P.y ^^^ (if isNegative P.x then BitVec.twoPow 256 255 else 0)

/-- The denominator `d·y² + 1` of the recovery of `x²` from `y` does not vanish. -/
theorem den_ne_zero (y : FieldElement) : edwardsD * y ^ 2 + 1 ≠ 0 := by
  intro h
  have hy : y ≠ 0 := by rintro rfl; simp at h
  refine edwardsD_not_isSquare ⟨sqrtM1 / y, ?_⟩
  field_simp
  linear_combination h - sqrtM1_mul_self

/-- `decompress`: the point with this ordinate, and with the abscissa of this sign. -/
def decompress (repr : CompressedEdwardsY) : Option EdwardsPoint :=
  let y := fromBytes repr
  let u := y ^ 2 - 1
  let v := y ^ 2 * edwardsD + 1
  if h : (sqrtRatioI u v).1 then
    let x := (sqrtRatioI u v).2
    some ⟨if repr.getLsbD 255 then -x else x, y, by
      have hx : (if repr.getLsbD 255 then -x else x) ^ 2 = x ^ 2 := by split <;> ring
      have := mul_sq_of_sqrtRatioI h
      rw [hx]
      simp only [ed25519]
      linear_combination -this⟩
  else none

theorem getLsbD_asBytes (r : FieldElement) : (asBytes r).getLsbD 255 = false := by
  rw [← BitVec.testBit_toNat, toNat_asBytes]
  exact Nat.testBit_lt_two_pow ((val_lt r).trans p_lt)

theorem getLsbD_compress (P : EdwardsPoint) : (compress P).getLsbD 255 = isNegative P.x := by
  rw [compress, BitVec.getLsbD_xor, getLsbD_asBytes]
  split <;> simp [*]

/-- Flipping bit 255 does not change the field element read from an encoding. -/
theorem fromBytes_xor (b : Bytes32) : fromBytes (b ^^^ BitVec.twoPow 256 255) = fromBytes b := by
  have h : (b ^^^ BitVec.twoPow 256 255).toNat % 2 ^ 255 = b.toNat % 2 ^ 255 := by
    refine Nat.eq_of_testBit_eq fun i => ?_
    simp only [Nat.testBit_mod_two_pow, BitVec.testBit_toNat, BitVec.getLsbD_xor,
      BitVec.getLsbD_twoPow]
    by_cases hi : i < 255
    · have : 255 ≠ i := by omega
      simp [*]
    · simp [hi]
  rw [fromBytes, fromBytes, h]

@[simp] theorem fromBytes_compress (P : EdwardsPoint) : fromBytes (compress P) = P.y := by
  rw [compress]
  split
  · rw [fromBytes_xor, fromBytes_asBytes]
  · simp

/-- The root that decompression takes at a point's ordinate. -/
theorem sqrtRatioI_of_point (P : EdwardsPoint) :
    sqrtRatioI (P.y ^ 2 - 1) (P.y ^ 2 * edwardsD + 1) = (true, abs P.x) := by
  refine sqrtRatioI_of_mul_sq ?_ ?_
  · rw [mul_comm]; exact den_ne_zero P.y
  · have h := P.on_curve
    simp only [ed25519] at h
    linear_combination -h

/-- Decompression at an encoding of `P.y`: `P` itself or its opposite, by the sign bit. -/
theorem decompress_of_fromBytes {b : CompressedEdwardsY} {P : EdwardsPoint}
    (h : fromBytes b = P.y) : ∃ Q, decompress b = some Q ∧ Q.y = P.y ∧
      Q.x = if b.getLsbD 255 then -abs P.x else abs P.x := by
  have hs := sqrtRatioI_of_point P
  simp only [decompress, h, hs]
  exact ⟨_, rfl, rfl, rfl⟩

/-- **Decompression inverts compression.** -/
@[simp] theorem decompress_compress (P : EdwardsPoint) : decompress (compress P) = some P := by
  obtain ⟨Q, hQ, hy, hx⟩ := decompress_of_fromBytes (fromBytes_compress P)
  rw [hQ]
  refine congrArg some (eq_iff.mpr ⟨?_, hy⟩)
  rw [hx, getLsbD_compress, FieldElement.abs]
  split <;> simp

theorem compress_injective : Function.Injective compress := fun P Q h =>
  Option.some.inj (by rw [← decompress_compress P, h, decompress_compress])

/-! ### The order of the curve -/

/-- `constants::ED25519_BASEPOINT_POINT`. -/
def basepoint : EdwardsPoint where
  x := fromLimbs 1738742601995546 1146398526822698 2070867633025821 562264141797630 587772402128613
  y := fromLimbs 1801439850948184 1351079888211148 450359962737049 900719925474099 1801439850948198
  on_curve := by decide +kernel

theorem basepoint_ne_zero : basepoint ≠ 0 := by decide +kernel

theorem ℓ_nsmul_basepoint : ℓ • basepoint = 0 :=
  TwistedEdwards.Proj.nsmul_eq_zero basepoint ℓ_lt (by decide +kernel)

theorem addOrderOf_basepoint : addOrderOf basepoint = ℓ :=
  addOrderOf_eq_prime ℓ_nsmul_basepoint basepoint_ne_zero

/-- `constants::EIGHT_TORSION`: the multiples of a point of order 8. -/
def eightTorsion : List EdwardsPoint :=
  let x₁ := fromLimbs 358744748052810 1691584618240980 977650209285361 1429865912637724
    560044844278676
  let y₁ := fromLimbs 84926274344903 473620666599931 365590438845504 1028470286882429
    2146499180330972
  let x₂ := fromLimbs 533094393274173 2016890930128738 18285341111199 134597186663265
    1486323764102114
  let y₃ := fromLimbs 2166873539340326 1778179147085316 1886209374839743 1223329526802818
    105300633354275
  let x₅ := fromLimbs 1893055065632419 560215195444267 1274149604399886 821933901047523
    1691754969406571
  let x₆ := fromLimbs 1718705420411056 234908883556509 2233514472574048 2117202627021982
    765476049583133
  [⟨0, 1, by decide +kernel⟩, ⟨x₁, y₁, by decide +kernel⟩, ⟨x₂, 0, by decide +kernel⟩,
    ⟨x₁, y₃, by decide +kernel⟩,
    ⟨0, fromLimbs 2251799813685228 2251799813685247 2251799813685247 2251799813685247
      2251799813685247, by decide +kernel⟩,
    ⟨x₅, y₃, by decide +kernel⟩, ⟨x₆, 0, by decide +kernel⟩, ⟨x₅, y₁, by decide +kernel⟩]

/-- The generator of the torsion subgroup. -/
def torsionPoint : EdwardsPoint := eightTorsion[1]

theorem addOrderOf_torsionPoint : addOrderOf torsionPoint = 2 ^ (2 + 1) :=
  addOrderOf_eq_prime_pow
    (fun h => by
      have h₄ : (TwistedEdwards.Proj.nsmul edwardsD 3 4 ⟨0, 1, 1⟩
          ⟨torsionPoint.x, torsionPoint.y, 1⟩).y ≠ (TwistedEdwards.Proj.nsmul edwardsD 3 4 ⟨0, 1, 1⟩
          ⟨torsionPoint.x, torsionPoint.y, 1⟩).z := by decide +kernel
      obtain ⟨-, -, hy⟩ := TwistedEdwards.Proj.rep_nsmul 3 4 (by decide)
        TwistedEdwards.Proj.rep_zero (TwistedEdwards.Proj.rep_affine torsionPoint)
      rw [zero_add, show 4 • torsionPoint = 0 from h] at hy
      exact h₄ (hy.trans (one_mul _)))
    (TwistedEdwards.Proj.nsmul_eq_zero (k := 4) torsionPoint (by decide) (by decide +kernel))

/-- A point is its ordinate and the sign of its abscissa. -/
theorem y_isNegative_injective :
    Function.Injective fun P : EdwardsPoint => (P.y, isNegative P.x) := by
  intro P Q h
  simp only [Prod.mk.injEq] at h
  have hx : abs P.x = abs Q.x := by
    have hP := sqrtRatioI_of_point P
    rw [h.1, sqrtRatioI_of_point Q] at hP
    exact (Prod.mk.inj hP).2.symm
  refine eq_iff.mpr ⟨?_, h.1⟩
  unfold FieldElement.abs at hx
  rw [h.2] at hx
  split at hx
  · exact neg_inj.mp hx
  · exact hx

instance : Finite EdwardsPoint := Finite.of_injective _ y_isNegative_injective

/-- **The curve has `8·ℓ` points.** -/
theorem card_edwardsPoint : Nat.card EdwardsPoint = 8 * ℓ := by
  have hle : Nat.card EdwardsPoint ≤ p * 2 := by
    have := Nat.card_le_card_of_injective _ y_isNegative_injective
    rwa [Nat.card_prod, Nat.card_zmod, Nat.card_eq_fintype_card (α := Bool), Fintype.card_bool]
      at this
  have h₈ : 8 ∣ Nat.card EdwardsPoint := by
    have := addOrderOf_dvd_natCard torsionPoint
    rwa [addOrderOf_torsionPoint] at this
  have hℓ : ℓ ∣ Nat.card EdwardsPoint := by
    have := addOrderOf_dvd_natCard basepoint
    rwa [addOrderOf_basepoint] at this
  obtain ⟨k, hk⟩ := (Nat.Coprime.mul_dvd_of_dvd_of_dvd coprime_ℓ_eight.symm h₈ hℓ)
  have hpos : 0 < Nat.card EdwardsPoint := Nat.card_pos
  have hlt : p * 2 < 8 * ℓ * 2 := by decide
  obtain rfl : k = 1 := by
    rw [hk] at hle hpos
    have h1 : k ≠ 0 := by rintro rfl; simp at hpos
    have h2 : k < 2 := by
      by_contra h
      have := Nat.mul_le_mul_left (8 * ℓ) (not_lt.mp h)
      omega
    omega
  rw [hk, mul_one]

theorem eight_ℓ_nsmul (P : EdwardsPoint) : (8 * ℓ) • P = 0 := by
  rw [← card_edwardsPoint]
  exact card_nsmul_eq_zero'

/-- Multiplying by the cofactor lands in the subgroup of order `ℓ`. -/
theorem eight_nsmul_mem (P : EdwardsPoint) : 8 • P ∈ primeSubgroup EdwardsPoint := by
  rw [mem_primeSubgroup, smul_smul, mul_comm, eight_ℓ_nsmul]

instance : BasePoint EdwardsPoint := ⟨basepoint, ℓ_nsmul_basepoint⟩

instance : PointEncoding EdwardsPoint := ⟨compress, decompress, decompress_compress⟩

instance : IsAddCyclic EdwardsPoint := by
  refine isAddCyclic_of_addOrderOf_eq_card (torsionPoint + basepoint) ?_
  have hc : (addOrderOf torsionPoint).Coprime (addOrderOf basepoint) := by
    rw [addOrderOf_torsionPoint, addOrderOf_basepoint]
    exact coprime_ℓ_eight.symm
  rw [(AddCommute.all _ _).addOrderOf_add_eq_mul_addOrderOf_of_coprime hc, addOrderOf_torsionPoint,
    addOrderOf_basepoint, card_edwardsPoint]
  norm_num

theorem eight_nsmul_of_mem {T : EdwardsPoint} (h : T ∈ eightTorsion) : 8 • T = 0 := by
  have h₈ : ∀ T ∈ eightTorsion,
      (TwistedEdwards.Proj.nsmul edwardsD 4 8 ⟨0, 1, 1⟩ ⟨T.x, T.y, 1⟩).x = 0 ∧
      (TwistedEdwards.Proj.nsmul edwardsD 4 8 ⟨0, 1, 1⟩ ⟨T.x, T.y, 1⟩).y =
        (TwistedEdwards.Proj.nsmul edwardsD 4 8 ⟨0, 1, 1⟩ ⟨T.x, T.y, 1⟩).z := by decide +kernel
  exact TwistedEdwards.Proj.nsmul_eq_zero T (by decide) (h₈ T h)

/-- **`EIGHT_TORSION` lists `E[8]`.** -/
theorem mem_eightTorsion {T : EdwardsPoint} : T ∈ eightTorsion ↔ 8 • T = 0 := by
  classical
  have := Fintype.ofFinite EdwardsPoint
  refine ⟨eight_nsmul_of_mem, fun h => ?_⟩
  have hsub : eightTorsion.toFinset ⊆ Finset.univ.filter fun P : EdwardsPoint => 8 • P = 0 := by
    intro P hP
    rw [List.mem_toFinset] at hP
    exact Finset.mem_filter.mpr ⟨Finset.mem_univ _, eight_nsmul_of_mem hP⟩
  have hcard : eightTorsion.toFinset.card = 8 :=
    List.toFinset_card_of_nodup (by decide +kernel : eightTorsion.Nodup)
  have hle := IsAddCyclic.card_nsmul_eq_zero_le (α := EdwardsPoint) (n := 8) (by decide)
  rw [← List.mem_toFinset, Finset.eq_of_subset_of_card_le hsub (hcard.symm ▸ hle)]
  exact Finset.mem_filter.mpr ⟨Finset.mem_univ _, h⟩

theorem eight_nsmul_torsionPoint : 8 • torsionPoint = 0 :=
  mem_eightTorsion.mp (List.getElem_mem _)

theorem torsionPoint_notMem : torsionPoint ∉ primeSubgroup EdwardsPoint := by
  intro h
  have hdvd := addOrderOf_dvd_of_nsmul_eq_zero (mem_primeSubgroup.mp h)
  rw [addOrderOf_torsionPoint] at hdvd
  exact absurd hdvd (by decide)

/-- The basepoint generates the points that `ℓ` annihilates. -/
theorem primeSubgroup_eq : primeSubgroup EdwardsPoint = AddSubgroup.zmultiples basepoint := by
  classical
  have := Fintype.ofFinite EdwardsPoint
  symm
  refine AddSubgroup.eq_of_le_of_card_ge ?_ ?_
  · rw [AddSubgroup.zmultiples_le]
    exact ℓ_nsmul_basepoint
  · rw [Nat.card_zmultiples, addOrderOf_basepoint]
    have h := IsAddCyclic.card_nsmul_eq_zero_le (α := EdwardsPoint) (n := ℓ) prime_ℓ.pos
    rwa [← Fintype.card_subtype, ← Nat.card_eq_fintype_card] at h

/-- **The subgroup has order `ℓ`.** -/
theorem card_primeSubgroup : Nat.card (primeSubgroup EdwardsPoint) = ℓ := by
  rw [primeSubgroup_eq, Nat.card_zmultiples, addOrderOf_basepoint]

end EdwardsPoint

end MaliciousPsu
