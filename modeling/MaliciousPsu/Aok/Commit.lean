import MaliciousPsu.Group
import MaliciousPsu.Lib.Pedersen
import MaliciousPsu.Rust
import Mathlib.Algebra.BigOperators.Fin

/-!
# Commitments

Multiscalar multiplications and the commitments of `aok.rs`, and the hash functions.

* `vartimeMultiscalarMul`: panics unless it gets as many scalars as points.
* `commit`: `Σ mᵢ·fᵢ + r·B`.
* `vartimeMultiscalarMul_map`, `commit_map`: on points that come from a `ℤ/ℓ`-module, both are its
  linear combinations.
-/

namespace MaliciousPsu

/-- The hash functions: Blake2s, and the `i`-th scalar that ChaCha expands from a seed. -/
structure Oracles where
  blake2s : List UInt8 → Bytes32
  chacha : Bytes32 → ℕ → Scalar

/-- Functions to run closed examples on: the bytes read as a number, and the seed moved by `i`. -/
def Oracles.reading : Oracles where
  blake2s bs := BitVec.ofNat 256 (leNat bs)
  chacha seed i := (seed.toNat + i : ℕ)

/-- `(0..n).map(|_| Scalar::random(&mut rng))` with `rng` seeded. -/
def Oracles.expand (O : Oracles) (seed : Bytes32) {n : ℕ} (i : Fin n) : Scalar := O.chacha seed i

/-- `Vec<CompressedEdwardsY>` and `Vec<Scalar>` absorbed one entry at a time. -/
def absorb (bs : List Bytes32) : List UInt8 := bs.flatMap Bytes32.bytes

section Group

variable {G : Type} [AddCommGroup G]

/-- `vartime_multiscalar_mul`. -/
def vartimeMultiscalarMul (scalars : List Scalar) (points : List G) : Run G :=
  if scalars.length = points.length then
    .ok (List.zipWith (fun s P => mulScalar P s) scalars points).sum
  else .error .lengthMismatch

theorem vartimeMultiscalarMul_eq_ok {scalars : List Scalar} {points : List G} {P : G} :
    vartimeMultiscalarMul scalars points = .ok P ↔ scalars.length = points.length ∧
      (List.zipWith (fun s P => mulScalar P s) scalars points).sum = P := by
  unfold vartimeMultiscalarMul
  split <;> simp [*]

/-- The generators of the commitments: multiples of the basepoint. -/
structure PublicParams (G : Type) [AddCommGroup G] where
  f : List G
  f_mem : ∀ P ∈ f, P ∈ primeSubgroup G

variable [BasePoint G]

/-- `setup_params` on the scalars it drew. -/
def setupParams (rs : List Scalar) : PublicParams G where
  f := rs.map mulBase
  f_mem P hP := by
    obtain ⟨s, -, rfl⟩ := List.mem_map.mp hP
    exact mulBase_mem s

/-- `commit`. -/
def commit (pp : PublicParams G) (m : List Scalar) (r : Scalar) : Run G := do
  let c ← vartimeMultiscalarMul m pp.f
  return c + mulBase r

theorem commit_eq_ok {pp : PublicParams G} {m : List Scalar} {r : Scalar} {P : G} :
    commit pp m r = .ok P ↔ m.length = pp.f.length ∧
      (List.zipWith (fun s P => mulScalar P s) m pp.f).sum + mulBase r = P := by
  simp only [commit, bind_eq_ok, vartimeMultiscalarMul_eq_ok, pure_eq_ok, Except.ok.injEq]
  constructor
  · rintro ⟨c, ⟨hl, rfl⟩, rfl⟩
    exact ⟨hl, rfl⟩
  · rintro ⟨hl, rfl⟩
    exact ⟨_, ⟨hl, rfl⟩, rfl⟩

end Group

/-! ### Points that come from a module -/

section Linear

variable {G : Type} [AddCommGroup G] {V : Type} [AddCommGroup V] [Module Scalar V] (φ : V →+ G)

theorem mulScalar_map (v : V) (s : Scalar) : mulScalar (φ v) s = φ (s • v) := by
  rw [← mulScalar_eq_smul, mulScalar, mulScalar, map_nsmul]

theorem vartimeMultiscalarMul_map {n : ℕ} (a : Fin n → Scalar) (v : Fin n → V) :
    vartimeMultiscalarMul (List.ofFn a) (List.ofFn fun i => φ (v i)) =
      .ok (φ (∑ i, a i • v i)) := by
  rw [vartimeMultiscalarMul_eq_ok]
  refine ⟨by simp, ?_⟩
  have h : List.zipWith (fun s P => mulScalar P s) (List.ofFn a) (List.ofFn fun i => φ (v i)) =
      List.ofFn fun i => φ (a i • v i) := by
    refine List.ext_getElem (by simp) fun i h₁ h₂ => ?_
    simp [mulScalar_map]
  rw [h, List.sum_ofFn, map_sum]

/-- The linear combinations over two lists chained. -/
theorem vartimeMultiscalarMul_append {s₁ s₂ : List Scalar} {p₁ p₂ : List G} {P₁ P₂ : G}
    (h₁ : vartimeMultiscalarMul s₁ p₁ = .ok P₁) (h₂ : vartimeMultiscalarMul s₂ p₂ = .ok P₂) :
    vartimeMultiscalarMul (s₁ ++ s₂) (p₁ ++ p₂) = .ok (P₁ + P₂) := by
  rw [vartimeMultiscalarMul_eq_ok] at *
  rw [List.zipWith_append h₁.1, List.sum_append, h₁.2, h₂.2]
  simp [h₁.1, h₂.1]

variable [BasePoint G] {B : V}

theorem mulBase_map (hB : φ B = basepoint) (s : Scalar) : (mulBase s : G) = φ (s • B) := by
  rw [mulBase, ← hB, mulScalar_map]

theorem commit_map {pp : PublicParams G} {n : ℕ} {f : Fin n → V}
    (hf : pp.f = List.ofFn fun i => φ (f i)) (hB : φ B = basepoint) (m : Fin n → Scalar)
    (r : Scalar) : commit pp (List.ofFn m) r = .ok (φ (pedersen f B m r)) := by
  rw [pedersen, commit, hf, vartimeMultiscalarMul_map, mulBase_map φ hB]
  simp

end Linear

/-! ### The subgroup of order `ℓ` -/

section Subgroup

variable {G : Type} [AddCommGroup G]

/-- A list of points of the subgroup of order `ℓ`, as a family of its elements. -/
theorem exists_ofFn_of_mem {n : ℕ} {ps : List G} (hn : ps.length = n)
    (h : ∀ P ∈ ps, P ∈ primeSubgroup G) :
    ∃ v : Fin n → primeSubgroup G, ps = List.ofFn fun i => (primeSubgroup G).subtype (v i) := by
  subst hn
  exact ⟨fun i => ⟨ps[i], h _ (List.getElem_mem _)⟩, by simp⟩

theorem mem_primeSubgroup_of_module {V : Type} [AddCommGroup V] [Module Scalar V] (v : V) :
    v ∈ primeSubgroup V := by
  rw [mem_primeSubgroup, ← Nat.cast_smul_eq_nsmul Scalar]
  simp

end Subgroup

end MaliciousPsu
