import MaliciousPsu.Lib.Kummer
import MaliciousPsu.Montgomery

/-!
# The Montgomery ladder

Scalar multiplication of `montgomery.rs`, on abscissas alone: two projective abscissas hold those
of `[k]P` and `[k + 1]P`, and each bit doubles one of them and adds the other to it.

* `differentialAddAndDouble_ratio`: one step, for an abscissa other than `0`.
* `mul_toMontgomery`: the ladder computes the abscissa of a multiple, at every point of the curve,
  those of `E[8]` included.
-/

namespace MaliciousPsu

open FieldElement TwistedEdwards.Point

/-- `ProjectivePoint`: the abscissa `U/W`. -/
structure ProjectivePoint where
  U : FieldElement
  W : FieldElement

/-- `APLUS2_OVER_FOUR`. -/
def aplus2OverFour : FieldElement := fromLimbs 121666 0 0 0 0

/-- `as_affine`. -/
def ProjectivePoint.asAffine (q : ProjectivePoint) : MontgomeryPoint := asBytes (q.U * invert q.W)

/-- `differential_add_and_double`: the abscissas of `[2]P` and of `P + Q`. -/
def differentialAddAndDouble (P Q : ProjectivePoint) (affinePmQ : FieldElement) :
    ProjectivePoint × ProjectivePoint :=
  let t0 := P.U + P.W
  let t1 := P.U - P.W
  let t2 := Q.U + Q.W
  let t3 := Q.U - Q.W
  let t4 := t0 ^ 2
  let t5 := t1 ^ 2
  let t6 := t4 - t5
  let t7 := t0 * t3
  let t8 := t1 * t2
  let t9 := t7 + t8
  let t10 := t7 - t8
  let t11 := t9 ^ 2
  let t12 := t10 ^ 2
  let t13 := aplus2OverFour * t6
  let t14 := t4 * t5
  let t15 := t13 + t5
  let t16 := t6 * t15
  let t17 := affinePmQ * t12
  (⟨t14, t16⟩, ⟨t11, t17⟩)

/-- The loop of `mul_bits_be`: the two abscissas, and the last bit. -/
structure Ladder where
  x0 : ProjectivePoint
  x1 : ProjectivePoint
  prevBit : Bool

/-- `conditional_swap`. -/
def Ladder.swap (s : Ladder) (choice : Bool) : Ladder :=
  if choice then { s with x0 := s.x1, x1 := s.x0 } else s

/-- One turn of the loop. -/
def Ladder.step (affineU : FieldElement) (s : Ladder) (curBit : Bool) : Ladder :=
  let s := s.swap (s.prevBit ^^ curBit)
  let x := differentialAddAndDouble s.x0 s.x1 affineU
  ⟨x.1, x.2, curBit⟩

/-- `mul_bits_be`. -/
def mulBitsBe (m : MontgomeryPoint) (bits : List Bool) : MontgomeryPoint :=
  let affineU := fromBytes m
  let s := bits.foldl (Ladder.step affineU) ⟨⟨1, 0⟩, ⟨affineU, 1⟩, false⟩
  (s.swap s.prevBit).x0.asAffine

/-- `scalar.bits_le()`. -/
def bitsLe (bytes : Bytes32) : List Bool := (List.range 256).map fun i => bytes.toNat.testBit i

namespace MontgomeryPoint

/-- Multiplication by the integer that the bytes of a `Scalar` spell, its highest bit skipped. -/
def mulBytes (m : MontgomeryPoint) (bytes : Bytes32) : MontgomeryPoint :=
  mulBitsBe m ((bitsLe bytes).reverse.drop 1)

/-- `point * scalar`. -/
def mul (m : MontgomeryPoint) (scalar : Scalar) : MontgomeryPoint := mulBytes m scalar.asBytes

/-- `mul_clamped`. -/
def mulClamped (m : MontgomeryPoint) (bytes : Bytes32) : MontgomeryPoint :=
  mulBytes m (clampInteger bytes)

end MontgomeryPoint

/-! ### One step -/

/-- The projective abscissa of a point. -/
def ProjectivePoint.Of (q : ProjectivePoint) (P : EdwardsPoint) : Prop := Ratio P q.U q.W

theorem aplus2OverFour_mul : aplus2OverFour * (1 + ed25519.d) = 1 := by decide +kernel

theorem ProjectivePoint.Of.asAffine {q : ProjectivePoint} {P : EdwardsPoint} (h : q.Of P) :
    q.asAffine = toMontgomery P := by
  obtain ⟨t, ht, hU, hW⟩ := h
  rw [ProjectivePoint.asAffine, toMontgomery, invert_eq, invert_eq, hU, hW, ← div_eq_mul_inv,
    ← div_eq_mul_inv, mul_div_mul_left _ _ ht]

/-- **One step of the ladder.** -/
theorem differentialAddAndDouble_ratio {q₁ q₂ : ProjectivePoint} {P Q D : EdwardsPoint}
    (h₁ : q₁.Of P) (h₂ : q₂.Of Q) (hD : (Q - P).y = D.y) (hu : montgomeryU D ≠ 0) :
    (differentialAddAndDouble q₁ q₂ (montgomeryU D)).1.Of (P + P) ∧
      (differentialAddAndDouble q₁ q₂ (montgomeryU D)).2.Of (P + Q) := by
  have hden : 1 - D.y ≠ 0 := fun h => hu (by rw [montgomeryU, h, div_zero])
  refine ⟨h₁.double aplus2OverFour_mul, h₁.add h₂ hu (by rwa [hD]) ?_⟩
  rw [hD, montgomeryU, div_mul_cancel₀ _ hden]

/-- The two abscissas of the loop, in the order that the last bit tells. -/
def Ladder.Holds (s : Ladder) (P : EdwardsPoint) (k : ℕ) : Prop :=
  (s.swap s.prevBit).x0.Of (k • P) ∧ (s.swap s.prevBit).x1.Of ((k + 1) • P)

theorem Ladder.step_false (affineU : FieldElement) (s : Ladder) : s.step affineU false =
    ⟨(differentialAddAndDouble (s.swap s.prevBit).x0 (s.swap s.prevBit).x1 affineU).1,
      (differentialAddAndDouble (s.swap s.prevBit).x0 (s.swap s.prevBit).x1 affineU).2, false⟩ := by
  rw [step, Bool.xor_false]

theorem Ladder.step_true (affineU : FieldElement) (s : Ladder) : s.step affineU true =
    ⟨(differentialAddAndDouble (s.swap s.prevBit).x1 (s.swap s.prevBit).x0 affineU).1,
      (differentialAddAndDouble (s.swap s.prevBit).x1 (s.swap s.prevBit).x0 affineU).2, true⟩ := by
  cases s with
  | mk x0 x1 prevBit => cases prevBit <;> rfl

theorem Ladder.step_holds {s : Ladder} {P : EdwardsPoint} {k : ℕ} (hu : montgomeryU P ≠ 0)
    (h : s.Holds P k) (bit : Bool) :
    (s.step (montgomeryU P) bit).Holds P (2 * k + bit.toNat) := by
  obtain ⟨h₀, h₁⟩ := h
  have hdiff : (k + 1) • P - k • P = P := by rw [succ_nsmul, add_sub_cancel_left]
  cases bit with
  | false =>
    -- the abscissa of `[k]P` is doubled
    obtain ⟨hdouble, hadd⟩ := differentialAddAndDouble_ratio h₀ h₁ (by rw [hdiff]) hu
    rw [← add_smul, ← two_mul] at hdouble
    rw [← add_smul, show k + (k + 1) = 2 * k + 1 by ring] at hadd
    rw [step_false]
    exact ⟨hdouble, hadd⟩
  | true =>
    -- the abscissa of `[k + 1]P` is doubled, and comes first
    have hneg : (k • P - (k + 1) • P).y = P.y := by
      rw [← neg_sub, hdiff, neg_y]
    obtain ⟨hdouble, hadd⟩ := differentialAddAndDouble_ratio h₁ h₀ hneg hu
    rw [← add_smul, show k + 1 + (k + 1) = 2 * k + 1 + 1 by ring] at hdouble
    rw [← add_smul, show k + 1 + k = 2 * k + 1 by ring] at hadd
    rw [step_true]
    exact ⟨hadd, hdouble⟩

/-- The number that bits spell, the highest first. -/
def natOfBits (k : ℕ) (bits : List Bool) : ℕ := bits.foldl (fun k bit => 2 * k + bit.toNat) k

theorem Ladder.run_holds {P : EdwardsPoint} (hu : montgomeryU P ≠ 0) (bits : List Bool) :
    ∀ {s : Ladder} {k : ℕ}, s.Holds P k →
      (bits.foldl (Ladder.step (montgomeryU P)) s).Holds P (natOfBits k bits) := by
  induction bits with
  | nil => exact fun h => h
  | cons bit bits ih => exact fun h => ih (step_holds hu h bit)

/-! ### The abscissa `0` -/

/-- `0` or infinity, which are both `0` as affine abscissas. -/
def ProjectivePoint.Trivial (q : ProjectivePoint) : Prop := q.U * q.W = 0

theorem ProjectivePoint.Trivial.asAffine {q : ProjectivePoint} (h : q.Trivial) :
    q.asAffine = asBytes 0 := by
  rcases mul_eq_zero.mp h with h | h
  · rw [ProjectivePoint.asAffine, h, zero_mul]
  · rw [ProjectivePoint.asAffine, h, invert_eq, inv_zero, mul_zero]

theorem differentialAddAndDouble_trivial {q₁ : ProjectivePoint} (h₁ : q₁.Trivial)
    (q₂ : ProjectivePoint) : (differentialAddAndDouble q₁ q₂ 0).1.Trivial ∧
      (differentialAddAndDouble q₁ q₂ 0).2.Trivial := by
  have h : (q₁.U + q₁.W) ^ 2 - (q₁.U - q₁.W) ^ 2 = 0 := by
    rw [ProjectivePoint.Trivial] at h₁
    linear_combination 4 * h₁
  constructor
  · simp only [differentialAddAndDouble, ProjectivePoint.Trivial, h, zero_mul, mul_zero]
  · simp only [differentialAddAndDouble, ProjectivePoint.Trivial, zero_mul, mul_zero]

theorem Ladder.swap_trivial {s : Ladder} (h₀ : s.x0.Trivial) (h₁ : s.x1.Trivial) (choice : Bool) :
    (s.swap choice).x0.Trivial ∧ (s.swap choice).x1.Trivial := by
  cases choice with
  | false => exact ⟨h₀, h₁⟩
  | true => exact ⟨h₁, h₀⟩

theorem Ladder.run_trivial (bits : List Bool) : ∀ {s : Ladder}, s.x0.Trivial → s.x1.Trivial →
    (bits.foldl (Ladder.step 0) s).x0.Trivial ∧ (bits.foldl (Ladder.step 0) s).x1.Trivial := by
  induction bits with
  | nil => exact fun h₀ h₁ => ⟨h₀, h₁⟩
  | cons bit bits ih =>
    intro s h₀ h₁
    have hswap := swap_trivial h₀ h₁ (s.prevBit ^^ bit)
    have hstep := differentialAddAndDouble_trivial hswap.1 (s.swap (s.prevBit ^^ bit)).x1
    exact ih hstep.1 hstep.2

/-- The abscissa of the identity and of the point of order 2 only. -/
theorem montgomeryU_eq_zero {P : EdwardsPoint} : montgomeryU P = 0 ↔ P + P = 0 := by
  rw [← eq_neg_iff_add_eq_zero, EdwardsPoint.eq_iff, neg_x, neg_y, montgomeryU, div_eq_zero_iff]
  have hx := sq_x_mul P
  constructor
  · intro h
    have hsq : P.y ^ 2 = 1 := by
      rcases h with h | h
      · linear_combination (P.y - 1) * h
      · linear_combination -(P.y + 1) * h
    have hx₀ : P.x = 0 := by
      have h₀ : P.x ^ 2 * (1 + ed25519.d * P.y ^ 2) = 0 := by rw [hx, hsq, sub_self]
      exact pow_eq_zero_iff two_ne_zero |>.mp
        ((mul_eq_zero.mp h₀).resolve_right (one_add_d_mul_ne P))
    exact ⟨by rw [hx₀, neg_zero], rfl⟩
  · rintro ⟨hneg, -⟩
    have hx₀ : P.x = 0 := by
      have h₂ : 2 * P.x = 0 := by linear_combination hneg
      exact (mul_eq_zero.mp h₂).resolve_left two_ne
    have hsq : (1 + P.y) * (1 - P.y) = 0 := by
      rw [hx₀] at hx
      linear_combination hx
    exact mul_eq_zero.mp hsq

/-! ### The whole ladder -/

theorem natOfBits_append (k : ℕ) (bs cs : List Bool) :
    natOfBits k (bs ++ cs) = natOfBits (natOfBits k bs) cs := List.foldl_append

theorem natOfBits_testBit (x : ℕ) : ∀ n k,
    natOfBits k ((List.range n).map fun i => x.testBit i).reverse = k * 2 ^ n + x % 2 ^ n
  | 0, k => by simp [natOfBits, Nat.mod_one]
  | n + 1, k => by
      have hfirst : natOfBits k [x.testBit n] = 2 * k + (x.testBit n).toNat := rfl
      rw [List.range_succ, List.map_append, List.reverse_append, natOfBits_append,
        List.map_singleton, List.reverse_singleton, hfirst, natOfBits_testBit x n,
        Nat.mod_pow_succ, Nat.toNat_testBit]
      ring

/-- The highest bit is skipped. -/
theorem natOfBits_bytes (b : Bytes32) :
    natOfBits 0 ((bitsLe b).reverse.drop 1) = b.toNat % 2 ^ 255 := by
  have h : (bitsLe b).reverse.drop 1 =
      ((List.range 255).map fun i => b.toNat.testBit i).reverse := by
    rw [bitsLe, List.range_succ (n := 255), List.map_append, List.reverse_append]
    rfl
  rw [h, natOfBits_testBit, zero_mul, zero_add]

/-- **The ladder computes the abscissa of a multiple.** -/
theorem mulBytes_toMontgomery (P : EdwardsPoint) {b : Bytes32} (hb : b.toNat < 2 ^ 255) :
    MontgomeryPoint.mulBytes (toMontgomery P) b = toMontgomery (b.toNat • P) := by
  have hbits := natOfBits_bytes b
  rw [Nat.mod_eq_of_lt hb] at hbits
  rw [MontgomeryPoint.mulBytes, mulBitsBe, toMontgomery_eq P, fromBytes_asBytes]
  by_cases hu : montgomeryU P = 0
  · -- both abscissas stay `0` or infinite, and so does that of the multiple
    rw [hu]
    obtain ⟨h₀, h₁⟩ := Ladder.run_trivial ((bitsLe b).reverse.drop 1)
      (s := ⟨⟨1, 0⟩, ⟨0, 1⟩, false⟩) (mul_zero _) (zero_mul _)
    have hmul : b.toNat • P + b.toNat • P = 0 := by
      rw [← nsmul_add, montgomeryU_eq_zero.mp hu, nsmul_zero]
    rw [(Ladder.swap_trivial h₀ h₁ _).1.asAffine, toMontgomery_eq,
      montgomeryU_eq_zero.mpr hmul]
  · have hden : 1 - P.y ≠ 0 := fun h => hu (by rw [montgomeryU, h, div_zero])
    have hinit : (⟨⟨1, 0⟩, ⟨montgomeryU P, 1⟩, false⟩ : Ladder).Holds P 0 := by
      constructor
      · rw [zero_smul]
        have hone : Ratio (0 : EdwardsPoint) 1 0 :=
          ratio_of_mul (Or.inl one_ne_zero) (by rw [zero_y, sub_self, mul_zero, zero_mul])
        exact hone
      · rw [zero_add, one_smul]
        have hP : Ratio P (montgomeryU P) 1 := ratio_of_mul (Or.inr one_ne_zero) (by
          rw [montgomeryU, one_mul, div_mul_cancel₀ _ hden])
        exact hP
    have hrun := Ladder.run_holds hu ((bitsLe b).reverse.drop 1) hinit
    rw [hbits] at hrun
    exact hrun.1.asAffine

theorem mul_toMontgomery (P : EdwardsPoint) (s : Scalar) :
    MontgomeryPoint.mul (toMontgomery P) s = toMontgomery (mulScalar P s) := by
  have hs := s.val_lt
  have hℓ := ℓ_lt
  have hbytes : s.asBytes.toNat = s.val := by
    rw [Scalar.asBytes, BitVec.toNat_ofNat]
    exact Nat.mod_eq_of_lt (by omega)
  rw [MontgomeryPoint.mul, mulBytes_toMontgomery P (by omega), hbytes, mulScalar]

theorem mulClamped_toMontgomery (P : EdwardsPoint) (b : Bytes32) :
    MontgomeryPoint.mulClamped (toMontgomery P) b = toMontgomery (mulClamped P b) := by
  obtain ⟨k, hk, -, hhi⟩ := clampInteger_spec b
  rw [MontgomeryPoint.mulClamped, mulBytes_toMontgomery P (by omega), mulClamped]

end MaliciousPsu
