import Mathlib.FieldTheory.Finite.Basic
import Mathlib.NumberTheory.LucasPrimality
import Mathlib.NumberTheory.LegendreSymbol.Basic

/-!
# Modular powers that the kernel evaluates

`powMod m k a e` is `a ^ e % m` by repeated squaring, structurally recursive on the number `k` of
bits, so that closed instances are decided by evaluation.

* `prime_of_lucas`: Lucas's primality test, read from a factorisation of `n - 1`.
* `not_isSquare_of_powMod`: Euler's criterion, for a non-square.
-/

/-- `a ^ e % m`, by repeated squaring over the `k` low bits of `e`. -/
def powMod (m : ℕ) : ℕ → ℕ → ℕ → ℕ
  | 0, _, _ => 1 % m
  | k + 1, a, e =>
      let t := powMod m k (a * a % m) (e / 2)
      if e % 2 = 1 then a * t % m else t

theorem powMod_eq (m : ℕ) : ∀ k a e, e < 2 ^ k → powMod m k a e = a ^ e % m
  | 0, a, e, h => by
      obtain rfl : e = 0 := by simpa using h
      simp [powMod]
  | k + 1, a, e, h => by
      have ih := powMod_eq m k (a * a % m) (e / 2) (by rw [pow_succ] at h; omega)
      have hsq : (a * a % m) ^ (e / 2) % m = a ^ (2 * (e / 2)) % m := by
        rw [← Nat.pow_mod, ← sq, ← pow_mul]
      simp only [powMod, ih, hsq]
      split
      · rw [Nat.mul_mod_mod, ← pow_succ']
        congr 2
        omega
      · congr 2
        omega

theorem pow_eq_one_iff_powMod {m k a e : ℕ} (hm : 1 < m) (h : e < 2 ^ k) :
    (a : ZMod m) ^ e = 1 ↔ powMod m k a e = 1 := by
  rw [powMod_eq m k a e h, ← Nat.cast_one, ← Nat.cast_pow, ZMod.natCast_eq_natCast_iff',
    Nat.mod_eq_of_lt hm]

/-- **Lucas's test** with the prime factors of `n - 1` listed (with repetitions). -/
theorem prime_of_lucas {n : ℕ} (a : ℕ) (qs : List ℕ) (hn : qs.prod = n - 1) (h₁ : 1 < n)
    (hlt : n < 2 ^ 256) (ha : powMod n 256 a (n - 1) = 1)
    (hd : ∀ q ∈ qs, powMod n 256 a ((n - 1) / q) ≠ 1) (hqs : ∀ q ∈ qs, q.Prime) : n.Prime := by
  have key : ∀ e ≤ n - 1, (a : ZMod n) ^ e = 1 ↔ powMod n 256 a e = 1 := fun e he =>
    pow_eq_one_iff_powMod h₁ (by omega)
  refine lucas_primality n a ((key _ le_rfl).mpr ha) fun q hq hdvd => ?_
  rw [Ne, key _ (Nat.div_le_self _ _)]
  refine hd q ?_
  rw [← hn] at hdvd
  obtain ⟨r, hr, hqr⟩ := (Nat.Prime.prime hq).dvd_prod_iff.mp hdvd
  rwa [(Nat.prime_dvd_prime_iff_eq hq (hqs r hr)).mp hqr]

/-- **Euler's criterion**, for a non-square. -/
theorem not_isSquare_of_powMod {q : ℕ} [Fact q.Prime] {a : ℕ} (hlt : q < 2 ^ 256)
    (hz : (a : ZMod q) ≠ 0) (h : powMod q 256 a (q / 2) ≠ 1) : ¬ IsSquare (a : ZMod q) := by
  rw [ZMod.euler_criterion q hz,
    pow_eq_one_iff_powMod (k := 256) (Fact.out : q.Prime).one_lt (by omega)]
  exact h
