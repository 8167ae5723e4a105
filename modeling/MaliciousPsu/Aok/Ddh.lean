import MaliciousPsu.Aok.Commit
import MaliciousPsu.Edwards
import MaliciousPsu.Lib.Hyperplane
import Mathlib.Tactic.Module

/-!
# The batched DDH argument

The argument of round 4: one commitment and one response for `pk = s·B` and all `h[i] = s·g[i]`
at once, under coefficients `a` hashed from the statement.

* `batchedDdhVerify_complete`: an honest proof is accepted.
* `checkBatchedDdh_eq_ok`: on a module, the check reads `c + δ·H = z·A`, with `A = B + Σ aᵢ·gᵢ` and
  `H = pk + Σ aᵢ·hᵢ`.
* `exists_responses`: where `A` generates the group, every commitment has a response to every
  challenge, whatever `pk` and `h` are.
* `card_admits`: so all but a `1/ℓ` fraction of the coefficients admit a false statement.
-/

namespace MaliciousPsu

/-- `BatchedDDHProof`. -/
structure BatchedDDHProof where
  _c : Bytes32
  z : Scalar
  deriving DecidableEq

/-- `ha`, the hash of the statement. -/
def Oracles.hashA (O : Oracles) (_pk : Bytes32) (_g _h : List Bytes32) : Bytes32 :=
  O.blake2s (Bytes32.bytes _pk ++ absorb _g ++ absorb _h)

/-- `delta`, from the commitment and the statement. -/
def Oracles.ddhDelta (O : Oracles) (_c ha : Bytes32) : Scalar :=
  Scalar.fromBytesModOrder (O.blake2s (absorb [_c, ha]))

section Protocol

variable {G : Type} [AddCommGroup G] [BasePoint G]

/-- `batched_ddh_prove`, on the scalar `r` it drew. -/
def batchedDdhProve [PointEncoding G] (O : Oracles) (pk : G) (g : List G) (_g _h : List Bytes32)
    (s r : Scalar) : Run BatchedDDHProof := do
  let n := g.length
  let ha := O.hashA (compress pk) _g _h
  let ar := List.ofFn fun i : Fin n => O.expand ha i * r
  let c ← vartimeMultiscalarMul ar g
  let _c := compress (c + mulBase r)
  let delta := O.ddhDelta _c ha
  let z := delta * s + r
  return { _c, z }

variable [DecidableEq G]

/-- The equation of `batched_ddh_verify`, with the coefficients `a` and the challenge `delta`
derived and the commitment decompressed. -/
def checkBatchedDdh (pk : G) (g h : List G) (c : G) (z : Scalar) (a : List Scalar)
    (delta : Scalar) : Run Bool := do
  let lhs := c + mulScalar pk delta - mulBase z
  let points := g ++ h
  let scalars := (a.map fun ai => ai * z) ++ a.map fun ai => -ai * delta
  let rhs2 ← vartimeMultiscalarMul scalars points
  if lhs ≠ rhs2 then return false
  return true

/-- `batched_ddh_verify`. -/
def batchedDdhVerify [PointEncoding G] (O : Oracles) (pk : G) (g h : List G)
    (_g _h : List Bytes32) (proof : BatchedDDHProof) : Run Bool := do
  let n := g.length
  let ha := O.hashA (compress pk) _g _h
  let a := List.ofFn fun i : Fin n => O.expand ha i
  let delta := O.ddhDelta proof._c ha
  let c ← unwrap (decompress proof._c)
  checkBatchedDdh pk g h c proof.z a delta

end Protocol

/-! ### The equation -/

section Equation

variable {G : Type} [AddCommGroup G] [BasePoint G] [DecidableEq G] {V : Type} [AddCommGroup V]
  [Module Scalar V] {φ : V →+ G} {B : V} {n : ℕ}

/-- The points that the check combines: the basepoint with the `g`, the key with the `h`. -/
def combined (B : V) (g : Fin n → V) (a : Fin n → Scalar) : V := B + ∑ i, a i • g i

/-- **The batched equation.** -/
theorem checkBatchedDdh_eq_ok (hφ : Function.Injective φ) (hB : φ B = basepoint) {pk c : V}
    {g h : Fin n → V} {z delta : Scalar} {a : Fin n → Scalar} :
    checkBatchedDdh (φ pk) (List.ofFn fun i => φ (g i)) (List.ofFn fun i => φ (h i)) (φ c) z
      (List.ofFn a) delta = .ok true ↔
    c + delta • combined pk h a = z • combined B g a := by
  have hz : (List.ofFn a).map (fun ai => ai * z) = List.ofFn fun i => a i * z := by
    rw [List.map_ofFn]
    rfl
  have hd : (List.ofFn a).map (fun ai => -ai * delta) = List.ofFn fun i => -a i * delta := by
    rw [List.map_ofFn]
    rfl
  have hsum : ∑ i, (a i * z) • g i + ∑ i, (-a i * delta) • h i =
      z • ∑ i, a i • g i - delta • ∑ i, a i • h i := by
    rw [Finset.smul_sum, Finset.smul_sum, sub_eq_add_neg, ← Finset.sum_neg_distrib]
    refine congrArg₂ _ (Finset.sum_congr rfl fun i _ => ?_) (Finset.sum_congr rfl fun i _ => ?_) <;>
    module
  have hiff : φ (c + delta • pk - z • B) = φ (z • ∑ i, a i • g i - delta • ∑ i, a i • h i) ↔
      c + delta • combined pk h a = z • combined B g a := by
    rw [hφ.eq_iff, combined, combined, smul_add, smul_add, sub_eq_sub_iff_add_eq_add, add_assoc,
      add_comm (z • ∑ i, a i • g i)]
  simp only [checkBatchedDdh, hz, hd, vartimeMultiscalarMul_append
    (vartimeMultiscalarMul_map φ (fun i => a i * z) g)
    (vartimeMultiscalarMul_map φ (fun i => -a i * delta) h), ok_bind, mulScalar_map,
    mulBase_map φ hB, ← map_add, ← map_sub, hsum, pure_eq_ok, ← hiff]
  split <;> simp_all

end Equation

/-! ### Completeness -/

section Completeness

variable {G : Type} [AddCommGroup G] [BasePoint G] [DecidableEq G] [PointEncoding G] {n : ℕ}

/-- **Completeness of the batched argument.** -/
theorem batchedDdhVerify_complete (O : Oracles) (s r : Scalar) {g : Fin n → G}
    (hg : ∀ i, g i ∈ primeSubgroup G) (_g _h : List Bytes32) :
    ∃ proof, batchedDdhProve O (mulBase s) (List.ofFn g) _g _h s r = .ok proof ∧
      batchedDdhVerify O (mulBase s) (List.ofFn g) (List.ofFn fun i => mulScalar (g i) s) _g _h
        proof = .ok true := by
  set φ := (primeSubgroup G).subtype
  have hφ : Function.Injective φ := Subtype.val_injective
  obtain ⟨B, hB⟩ : ∃ B : primeSubgroup G, φ B = basepoint :=
    ⟨⟨basepoint, BasePoint.basepoint_mem⟩, rfl⟩
  obtain ⟨v, rfl⟩ : ∃ v : Fin n → primeSubgroup G, g = fun i => φ (v i) :=
    ⟨fun i => ⟨g i, hg i⟩, rfl⟩
  obtain ⟨ha, hha⟩ : ∃ ha, ha = O.hashA (compress (mulBase s : G)) _g _h := ⟨_, rfl⟩
  obtain ⟨c, hc⟩ : ∃ c, c = ∑ i : Fin n, (O.expand ha i * r) • v i + r • B := ⟨_, rfl⟩
  refine ⟨⟨compress (φ c), O.ddhDelta (compress (φ c)) ha * s + r⟩, ?_, ?_⟩
  · rw [batchedDdhProve, List.length_ofFn, ← hha]
    simp only [vartimeMultiscalarMul_map, ok_bind, mulBase_map φ hB, ← map_add, ← hc, pure_eq_ok]
  · rw [batchedDdhVerify, List.length_ofFn, ← hha]
    simp only [mulBase_map φ hB, mulScalar_map, PointEncoding.decompress_compress, unwrap_some,
      ok_bind]
    rw [checkBatchedDdh_eq_ok hφ hB, hc]
    simp only [combined, smul_add, Finset.smul_sum]
    rw [add_comm (∑ i, _ • v i), add_add_add_comm, ← Finset.sum_add_distrib]
    refine congrArg₂ _ (by module) (Finset.sum_congr rfl fun i _ => by module)

end Completeness

/-! ### Coefficients that admit a statement -/

section Soundness

/-- In a group of order `ℓ`, every point is a multiple of every point that does not vanish. -/
theorem exists_smul_eq {V : Type} [AddCommGroup V] [Module Scalar V] (hcard : Nat.card V = ℓ)
    {A : V} (hA : A ≠ 0) (P : V) : ∃ z : Scalar, P = z • A := by
  have hP : P ∈ AddSubgroup.zmultiples A := mem_zmultiples_of_prime_card hcard hA
  obtain ⟨k, rfl⟩ := AddSubgroup.mem_zmultiples_iff.mp hP
  exact ⟨k, (Int.cast_smul_eq_zsmul Scalar k A).symm⟩

variable {G : Type} [AddCommGroup G] [BasePoint G] [DecidableEq G] {n : ℕ}

/-- The statement of the argument: `pk` and all the `h` are one multiple of `B` and the `g`. -/
def DdhStatement (pk : G) (g h : Fin n → G) : Prop :=
  ∃ s, pk = mulBase s ∧ ∀ i, h i = mulScalar (g i) s

/-- Some commitment has accepting responses to two challenges. -/
def Admits (pk : G) (g h : Fin n → G) (a : Fin n → Scalar) : Prop :=
  ∃ c delta delta' z z', delta ≠ delta' ∧
    checkBatchedDdh pk (List.ofFn g) (List.ofFn h) c z (List.ofFn a) delta = .ok true ∧
    checkBatchedDdh pk (List.ofFn g) (List.ofFn h) c z' (List.ofFn a) delta' = .ok true

variable (hcard : Nat.card G = ℓ)

include hcard

/-- **One equation forces nothing.**  Unless `B + Σ aᵢ·gᵢ` vanishes, every commitment has an
accepting response to every challenge. -/
theorem exists_responses [Module Scalar G] {g : Fin n → G} {a : Fin n → Scalar}
    (ha : combined basepoint g a ≠ 0) (pk : G) (h : Fin n → G) (c : G) (delta : Scalar) :
    ∃ z, checkBatchedDdh pk (List.ofFn g) (List.ofFn h) c z (List.ofFn a) delta = .ok true := by
  obtain ⟨z, hz⟩ := exists_smul_eq hcard ha (c + delta • combined pk h a)
  exact ⟨z, (checkBatchedDdh_eq_ok (φ := AddMonoidHom.id G) Function.injective_id rfl).mpr hz⟩

/-- All but a `1/ℓ` fraction of the coefficient vectors admit the statement, true or false. -/
theorem card_admits (hB : (basepoint : G) ≠ 0) (pk : G) (g h : Fin n → G) :
    ℓ ^ n < ℓ * {a | Admits pk g h a}.ncard := by
  let _ : Module Scalar G := AddCommGroup.zmodModule fun P => by
    rw [← hcard]
    exact card_nsmul_eq_zero'
  have hcompl : ({a | Admits pk g h a} : Set (Fin n → Scalar))ᶜ ⊆
      {a | ∑ i, a i • g i = -basepoint} := by
    intro a ha
    by_contra hne
    refine ha ?_
    have hA : combined basepoint g a ≠ 0 := fun h₀ => hne (eq_neg_of_add_eq_zero_right h₀)
    obtain ⟨z, hz⟩ := exists_responses hcard hA pk h 0 0
    obtain ⟨z', hz'⟩ := exists_responses hcard hA pk h 0 1
    exact ⟨0, 0, 1, z, z', zero_ne_one, hz, hz'⟩
  have hle := card_mul_ncard_le_of_ne_zero (K := Scalar) (v := g) (neg_ne_zero.mpr hB)
  have htotal := Set.ncard_add_ncard_compl {a | Admits pk g h a}
  have hmono := Set.ncard_le_ncard hcompl
  rw [ZMod.card, Fintype.card_fin] at hle
  rw [Nat.card_eq_fintype_card, Fintype.card_fun, ZMod.card, Fintype.card_fin] at htotal
  have hpos : 0 < ℓ ^ n := pow_pos prime_ℓ.pos n
  have hℓ : 2 < ℓ := by decide
  nlinarith

/-- **The batched check is sound for no false statement.**  At most a `1/ℓ` fraction of the
coefficients admit a statement if it is false: this holds exactly of the true ones. -/
theorem batchedDdh_sound_iff (hB : (basepoint : G) ≠ 0) (pk : G) (g h : Fin n → G) :
    (¬ DdhStatement pk g h → ℓ * {a | Admits pk g h a}.ncard ≤ ℓ ^ n) ↔ DdhStatement pk g h := by
  refine ⟨fun hsound => ?_, fun hst hfalse => absurd hst hfalse⟩
  by_contra hfalse
  exact absurd (hsound hfalse) (not_le.mpr (card_admits hcard hB pk g h))

end Soundness

theorem basepoint_ne_zero_subgroup : (basepoint : primeSubgroup EdwardsPoint) ≠ 0 := fun h =>
  EdwardsPoint.basepoint_ne_zero (congrArg Subtype.val h)

/-- The statement that the identity and the basepoint are the same multiple of the basepoint. -/
theorem batchedDdh_sound_iff_identity :
    let pk : primeSubgroup EdwardsPoint := basepoint
    (¬ DdhStatement pk ![0] ![basepoint] →
      ℓ * {a | Admits pk ![0] ![basepoint] a}.ncard ≤ ℓ ^ 1) ↔
    DdhStatement pk ![0] ![basepoint] :=
  batchedDdh_sound_iff EdwardsPoint.card_primeSubgroup basepoint_ne_zero_subgroup _ _ _

/-- **A false statement that most coefficients admit**: `pk = B`, `g = [0]` and `h = [B]`. -/
theorem batchedDdh_admits_false :
    let pk : primeSubgroup EdwardsPoint := basepoint
    ¬ DdhStatement pk ![0] ![basepoint] ∧
      ¬ ℓ * {a | Admits pk ![0] ![basepoint] a}.ncard ≤ ℓ ^ 1 := by
  refine ⟨?_, not_le.mpr (card_admits EdwardsPoint.card_primeSubgroup basepoint_ne_zero_subgroup
    _ _ _)⟩
  rintro ⟨s, -, hs⟩
  have h₀ := hs 0
  simp only [Matrix.cons_val_zero, mulScalar_zero] at h₀
  exact basepoint_ne_zero_subgroup h₀

end MaliciousPsu
