import Mathlib.Algebra.BigOperators.Group.List.Basic
import Mathlib.Algebra.BigOperators.Intervals
import Mathlib.Algebra.Module.BigOperators
import Mathlib.Algebra.Order.BigOperators.Group.List
import Mathlib.Data.List.GetD
import Mathlib.Tactic.Abel
import Mathlib.Tactic.Linarith
import Mathlib.Tactic.Ring

/-!
# Signed digits and sums of multiples

Integers by digits that may be negative, and the loops that multiply by them.  A loop runs on
representations of the elements of a group: `R a g` says that `a` stands for `g`.

* `value_set`: what changing one digit changes.
* `horner`, `foldl_add`: a loop over the digits from the highest one, a loop over summands.
* `sum_columns`: the columns of a table of digits add up to the multiples.
* `running_sums`: the sum of the partial sums weighs each summand by its position.
-/

namespace Digits

/-- The integer with these digits in base `b`, the lowest one first. -/
def value (b : ℤ) : List ℤ → ℤ
  | [] => 0
  | d :: ds => d + b * value b ds

variable {b : ℤ}

@[simp] theorem value_replicate (n : ℕ) : value b (List.replicate n 0) = 0 := by
  induction n with
  | zero => rfl
  | succ n ih => rw [List.replicate_succ, value, ih, mul_zero, add_zero]

/-- **One digit changes.** -/
theorem value_set (d : ℤ) : ∀ {ds : List ℤ} {i : ℕ}, i < ds.length →
    value b (ds.set i d) = value b ds + (d - ds.getD i 0) * b ^ i
  | e :: ds, 0, _ => by
      rw [List.set_cons_zero, value, value, List.getD_cons_zero]
      ring
  | e :: ds, i + 1, h => by
      have ih := value_set d (Nat.lt_of_succ_lt_succ h)
      rw [List.set_cons_succ, value, value, ih, List.getD_cons_succ]
      ring

theorem value_eq_sum (b : ℤ) : ∀ ds : List ℤ,
    value b ds = ∑ i ∈ Finset.range ds.length, b ^ i * ds.getD i 0
  | [] => rfl
  | d :: ds => by
      rw [value, value_eq_sum b ds, List.length_cons, Finset.sum_range_succ', Finset.mul_sum,
        add_comm]
      refine congrArg₂ (· + ·) (Finset.sum_congr rfl fun i _ => ?_) (by simp)
      rw [List.getD_cons_succ, pow_succ]
      ring

/-- The digits of a natural number, up to a power of the base. -/
theorem value_map_range (c x : ℕ) : ∀ n : ℕ,
    value c ((List.range n).map fun i => ((x / c ^ i % c : ℕ) : ℤ)) = (x % c ^ n : ℕ)
  | 0 => by simp [value, Nat.mod_one]
  | n + 1 => by
      have ih := value_map_range c (x / c) n
      have hmap : (List.range n).map (fun i => ((x / c ^ (i + 1) % c : ℕ) : ℤ)) =
          (List.range n).map fun i => ((x / c / c ^ i % c : ℕ) : ℤ) := by
        refine List.map_congr_left fun i _ => ?_
        rw [pow_succ', Nat.div_div_eq_div_mul]
      rw [List.range_succ_eq_map, List.map_cons, List.map_map, value]
      refine (congrArg (_ + (c : ℤ) * value c ·) hmap).trans ?_
      rw [ih, pow_zero, Nat.div_one, pow_succ', Nat.mod_mul]
      push_cast
      rfl

/-- Pairs of digits are digits in the square of the base. -/
theorem value_flatMap {α : Type} (f g : α → ℤ) : ∀ xs : List α,
    value b (xs.flatMap fun x => [f x, g x]) = value (b ^ 2) (xs.map fun x => f x + b * g x)
  | [] => rfl
  | x :: xs => by
      rw [List.flatMap_cons, List.map_cons, List.cons_append, List.cons_append, List.nil_append,
        value, value, value, value_flatMap f g xs]
      ring

/-- **Small digits make up a small integer.** -/
theorem abs_value_le {h : ℤ} (hb : 1 ≤ b) : ∀ {ds : List ℤ}, (∀ d ∈ ds, |d| ≤ h) →
    (b - 1) * |value b ds| ≤ h * (b ^ ds.length - 1)
  | [], _ => by simp [value]
  | d :: ds, hds => by
      have ih := abs_value_le hb fun e he => hds e (List.mem_cons_of_mem d he)
      have hd := hds d (List.mem_cons_self ..)
      have habs : |value b (d :: ds)| ≤ |d| + b * |value b ds| := by
        rw [value]
        refine (abs_add_le _ _).trans (le_of_eq ?_)
        rw [abs_mul, abs_of_nonneg (show (0 : ℤ) ≤ b by omega)]
      calc (b - 1) * |value b (d :: ds)| ≤ (b - 1) * (|d| + b * |value b ds|) :=
            mul_le_mul_of_nonneg_left habs (by omega)
        _ = (b - 1) * |d| + b * ((b - 1) * |value b ds|) := by ring
        _ ≤ (b - 1) * h + b * (h * (b ^ ds.length - 1)) :=
            add_le_add (mul_le_mul_of_nonneg_left hd (by omega))
              (mul_le_mul_of_nonneg_left ih (by omega))
        _ = h * (b ^ (d :: ds).length - 1) := by rw [List.length_cons, pow_succ]; ring

theorem value_append (d : ℤ) : ∀ ds : List ℤ,
    value b (ds ++ [d]) = value b ds + b ^ ds.length * d
  | [] => by simp [value]
  | e :: ds => by
      rw [List.cons_append, value, value, value_append d ds, List.length_cons, pow_succ]
      ring

/-- Digits that are zero from `n` on. -/
theorem value_take : ∀ {ds : List ℤ} {n : ℕ}, (∀ i, n ≤ i → ds.getD i 0 = 0) →
    value b (ds.take n) = value b ds
  | [], n, _ => by rw [List.take_nil]
  | d :: ds, 0, h => by
      have hd : d = 0 := h 0 le_rfl
      have ih : value b (ds.take 0) = value b ds := value_take fun i _ => h (i + 1) (Nat.zero_le _)
      have hcons : value b (0 :: ds) = 0 + b * value b ds := rfl
      rw [List.take_zero] at ih
      rw [List.take_zero, hd, hcons, ← ih, value, mul_zero, add_zero]
  | d :: ds, n + 1, h => by
      rw [List.take_succ_cons, value, value,
        value_take fun i hi => h (i + 1) (Nat.succ_le_succ hi)]

/-- **The last digit**, when the others lie in `[-h, h]` and the base is twice `h`, is bounded by
the integer. -/
theorem last_digit_le {c h x n : ℕ} {ds : List ℤ} (hc : c = 2 * h) (hh : 1 ≤ h)
    (hlen : ds.length = n + 1) (hvalue : value c ds = x) (hx : x < h * c ^ n)
    (hds : ∀ i < n, |ds.getD i 0| ≤ h) : 0 ≤ ds.getD n 0 ∧ ds.getD n 0 ≤ h := by
  have hsplit : ds = ds.take n ++ [ds.getD n 0] := by
    have hlt : n < ds.length := by omega
    rw [List.getD_eq_getElem _ _ hlt, List.take_append_getElem hlt, List.take_of_length_le hlen.le]
  have hlen' : (ds.take n).length = n := by
    rw [List.length_take]
    omega
  have htake : ∀ d ∈ ds.take n, |d| ≤ (h : ℤ) := by
    intro d hd
    obtain ⟨i, hi, rfl⟩ := List.getElem_of_mem hd
    have hin : i < n := hlen' ▸ hi
    have := hds i hin
    rwa [List.getD_eq_getElem _ _ (by omega : i < ds.length), ← List.getElem_take] at this
  have hbound := abs_value_le (show (1 : ℤ) ≤ c by omega) htake
  rw [hsplit, value_append, hlen'] at hvalue
  rw [hlen'] at hbound
  generalize ds.getD n 0 = d at hvalue ⊢
  generalize value (c : ℤ) (ds.take n) = v at hvalue hbound
  have hpow : (1 : ℤ) ≤ (c : ℤ) ^ n := one_le_pow₀ (by omega)
  have hv : |v| < (c : ℤ) ^ n := by
    have hle : ((c : ℤ) - 1) * |v| ≤ ((c : ℤ) - 1) * ((c : ℤ) ^ n - 1) :=
      hbound.trans (mul_le_mul_of_nonneg_right (by omega) (by omega))
    have := le_of_mul_le_mul_left hle (by omega)
    omega
  obtain ⟨hv₁, hv₂⟩ := abs_lt.mp hv
  have hx' : (x : ℤ) < h * (c : ℤ) ^ n := by exact_mod_cast hx
  constructor
  · have : (c : ℤ) ^ n * (-1) < (c : ℤ) ^ n * d := by linarith [Int.natCast_nonneg x]
    have := lt_of_mul_lt_mul_left this (by omega)
    omega
  · have : (c : ℤ) ^ n * d < (c : ℤ) ^ n * (h + 1) := by linarith
    have := lt_of_mul_lt_mul_left this (by omega)
    omega

/-! ### Loops -/

section Loops

variable {α β G : Type} [AddCommGroup G] {R : α → G → Prop}

/-- **A loop over the digits from the highest one.** -/
theorem horner {c : ℕ} {step : α → ℕ → α} {f : ℕ → G} : ∀ {n : ℕ},
    (∀ {a g j}, j < n → R a g → R (step a j) (c • g + f j)) → ∀ {a : α} {g : G}, R a g →
    R ((List.range n).reverse.foldl step a) (c ^ n • g + ∑ j ∈ Finset.range n, c ^ j • f j)
  | 0, _, a, g, ha => by
      rw [pow_zero, one_nsmul, Finset.sum_range_zero, add_zero]
      exact ha
  | n + 1, h, a, g, ha => by
      have hstep : ∀ {a g j}, j < n → R a g → R (step a j) (c • g + f j) :=
        fun hj => h (Nat.lt_succ_of_lt hj)
      have ih := horner hstep (h (Nat.lt_succ_self n) ha)
      have hsum : c ^ (n + 1) • g + ∑ j ∈ Finset.range (n + 1), c ^ j • f j =
          c ^ n • (c • g + f n) + ∑ j ∈ Finset.range n, c ^ j • f j := by
        rw [Finset.sum_range_succ, pow_succ, mul_nsmul', nsmul_add]
        abel
      rw [List.range_succ, List.reverse_append, List.reverse_singleton, List.singleton_append,
        List.foldl_cons, hsum]
      exact ih

/-- **A loop over summands.** -/
theorem foldl_add {S : β → G → Prop} {step : α → β → α}
    (h : ∀ {a g x t}, R a g → S x t → R (step a x) (g + t)) {xs : List β} {ts : List G}
    (hxs : List.Forall₂ S xs ts) : ∀ {a : α} {g : G}, R a g → R (xs.foldl step a) (g + ts.sum) := by
  induction hxs with
  | nil =>
      intro a g ha
      rw [List.sum_nil, add_zero]
      exact ha
  | cons hx _ ih =>
      intro a g ha
      rw [List.foldl_cons, List.sum_cons, ← add_assoc]
      exact ih (h ha hx)

/-- **A loop over some of the indices.** -/
theorem foldl_filter {p : ℕ → Bool} {step : α → ℕ → α} {f : ℕ → G} {n : ℕ}
    (h : ∀ {a g j}, j < n → R a g → R (step a j) (g + f j)) {a : α} {g : G} (ha : R a g) :
    R (((List.range n).filter p).foldl step a)
      (g + ∑ j ∈ Finset.range n, if p j then f j else 0) := by
  induction n with
  | zero =>
    rw [Finset.sum_range_zero, add_zero]
    exact ha
  | succ n ih =>
    have ih := ih fun hj => h (Nat.lt_succ_of_lt hj)
    rw [List.range_succ, List.filter_append, List.foldl_append, Finset.sum_range_succ, ← add_assoc]
    cases hp : p n with
    | false =>
      rw [List.filter_singleton, hp, if_neg Bool.false_ne_true, add_zero]
      exact ih
    | true =>
      rw [List.filter_singleton, hp, if_pos rfl]
      exact h (Nat.lt_succ_self n) ih

end Loops

/-! ### Sums -/

section Sums

variable {G : Type} [AddCommGroup G]

/-- The multiples by the digits, each weighed by its power. -/
theorem sum_digits {c n : ℕ} {ds : List ℤ} (h : ∀ i, n ≤ i → ds.getD i 0 = 0) (P : G) :
    ∑ j ∈ Finset.range n, c ^ j • ds.getD j 0 • P = value c ds • P := by
  have hlen : ∀ i, ds.length ≤ i → ds.getD i 0 = 0 := fun i hi => List.getD_eq_default _ _ hi
  have hmore : ∀ {k : ℕ} (l : ℕ), (∀ i, k ≤ i → ds.getD i 0 = 0) →
      ∑ j ∈ Finset.range k, c ^ j • ds.getD j 0 • P =
        ∑ j ∈ Finset.range (max k l), c ^ j • ds.getD j 0 • P := by
    intro k l hk
    refine Finset.sum_subset (Finset.range_mono (le_max_left k l)) fun j _ hj => ?_
    rw [hk j (not_lt.mp fun hlt => hj (Finset.mem_range.mpr hlt)), zero_zsmul, nsmul_zero]
  rw [hmore ds.length h, max_comm, ← hmore n hlen, value_eq_sum, Finset.sum_smul]
  refine Finset.sum_congr rfl fun j _ => ?_
  rw [mul_smul, ← Nat.cast_pow, natCast_zsmul]

/-- **The columns of a table of digits**, each weighed by its power. -/
theorem sum_columns (c n : ℕ) : ∀ (dss : List (List ℤ)) (Ps : List G),
    (∀ ds ∈ dss, ∀ i, n ≤ i → ds.getD i 0 = 0) →
    ∑ j ∈ Finset.range n, c ^ j • (List.zipWith (fun ds P => ds.getD j 0 • P) dss Ps).sum =
      (List.zipWith (fun ds P => value c ds • P) dss Ps).sum
  | [], _, _ => by simp
  | _ :: _, [], _ => by simp
  | ds :: dss, P :: Ps, h => by
      have ih := sum_columns c n dss Ps fun ds' hd => h ds' (List.mem_cons_of_mem ds hd)
      have hP := sum_digits (c := c) (h ds (List.mem_cons_self ..)) P
      simp only [List.zipWith_cons_cons, List.sum_cons, nsmul_add, Finset.sum_add_distrib]
      rw [hP, ih]

/-- **The sum of partial sums**: from the highest summand down, each one is added once for every
sum that it is part of. -/
theorem running_sums {α : Type} {R : α → G → Prop} {add : α → α → α}
    (hadd : ∀ {a b g h}, R a g → R b h → R (add a b) (g + h)) {bs : ℕ → α} {gs : ℕ → G} :
    ∀ {n : ℕ}, (∀ i < n, R (bs i) (gs i)) → ∀ {a b : α} {g h : G}, R a g → R b h →
    let out := (List.range n).reverse.foldl (fun s i => (add s.1 (bs i), add s.2 (add s.1 (bs i))))
      (a, b)
    R out.1 (g + ∑ i ∈ Finset.range n, gs i) ∧
      R out.2 (h + n • g + ∑ i ∈ Finset.range n, (i + 1) • gs i)
  | 0, _, a, b, g, h, ha, hb => by
      simp only [Finset.sum_range_zero, add_zero, zero_nsmul]
      exact ⟨ha, hb⟩
  | n + 1, hbs, a, b, g, h, ha, hb => by
      have hn := hadd ha (hbs n (Nat.lt_succ_self n))
      have ih := running_sums hadd (fun i hi => hbs i (Nat.lt_succ_of_lt hi)) hn (hadd hb hn)
      rw [List.range_succ, List.reverse_append, List.reverse_singleton, List.singleton_append,
        List.foldl_cons]
      have h₁ : g + ∑ i ∈ Finset.range (n + 1), gs i =
          g + gs n + ∑ i ∈ Finset.range n, gs i := by
        rw [Finset.sum_range_succ]
        abel
      have h₂ : h + (n + 1) • g + ∑ i ∈ Finset.range (n + 1), (i + 1) • gs i =
          h + (g + gs n) + n • (g + gs n) + ∑ i ∈ Finset.range n, (i + 1) • gs i := by
        rw [Finset.sum_range_succ, add_nsmul, one_nsmul, add_nsmul, one_nsmul, nsmul_add]
        abel
      rw [h₁, h₂]
      exact ih

end Sums

end Digits
