import Mathlib.Algebra.BigOperators.Fin
import Mathlib.Data.Fintype.BigOperators
import Mathlib.Data.Fintype.Perm
import Mathlib.Data.List.FinRange
import Mathlib.Data.Nat.Factorial.BigOperators

/-!
# Fisher–Yates

A shuffle swaps each position in turn with a target.  When no later turn touches the position of an
earlier one, the permutation still tells the target of each turn (`shuffle_apply_head`), so that the
targets can be read off it one by one (`target_eq_of_shuffle_eq`).

An inverse kept in step is overwritten at the two values that move (`coe_inv_mul_swap`).

For the positions `n-1 … 1`, each with a target up to itself, there are `n!` sequences of targets
(`card_draws`), as many as permutations: each permutation comes of exactly one
(`bijective_shuffle`).
-/

open Equiv Nat

namespace FisherYates

section Turns

variable {α : Type*} [DecidableEq α]

/-- The permutation of a shuffle that swaps each position of the list with its target in turn. -/
def shuffle (target : α → α) : List α → Perm α
  | [] => 1
  | i :: turns => swap i (target i) * shuffle target turns

/-- No turn touches the position of an earlier one. -/
def Settled (target : α → α) (turns : List α) : Prop :=
  turns.Pairwise fun i k => i ≠ k ∧ i ≠ target k

theorem shuffle_apply_of_ne {target : α → α} {i : α} : ∀ {turns : List α},
    (∀ k ∈ turns, i ≠ k ∧ i ≠ target k) → shuffle target turns i = i
  | [], _ => rfl
  | k :: turns, h => by
      obtain ⟨hk, hrest⟩ := List.forall_mem_cons.mp h
      rw [shuffle, Perm.mul_apply, shuffle_apply_of_ne hrest, swap_apply_of_ne_of_ne hk.1 hk.2]

/-- The first position holds its target in the end. -/
theorem shuffle_apply_head {target : α → α} {i : α} {turns : List α}
    (h : Settled target (i :: turns)) : shuffle target (i :: turns) i = target i := by
  rw [shuffle, Perm.mul_apply, shuffle_apply_of_ne (List.pairwise_cons.mp h).1, swap_apply_left]

/-- **The targets are read off the permutation.** -/
theorem target_eq_of_shuffle_eq {target target' : α → α} : ∀ {turns : List α},
    Settled target turns → Settled target' turns →
      shuffle target turns = shuffle target' turns → ∀ i ∈ turns, target i = target' i
  | [], _, _, _ => fun _ hi => absurd hi List.not_mem_nil
  | i :: turns, h, h', heq => by
      have hi : target i = target' i := by
        rw [← shuffle_apply_head h, heq, shuffle_apply_head h']
      rw [shuffle, shuffle, hi] at heq
      have hrest := target_eq_of_shuffle_eq (List.pairwise_cons.mp h).2
        (List.pairwise_cons.mp h').2 (mul_left_cancel heq)
      exact List.forall_mem_cons.mpr ⟨hi, hrest⟩

/-! ### The inverse -/

theorem mul_swap_apply_left (σ : Perm α) (i k : α) : (σ * swap i k) i = σ k := by
  rw [Perm.mul_apply, swap_apply_left]

theorem mul_swap_apply_right (σ : Perm α) (i k : α) : (σ * swap i k) k = σ i := by
  rw [Perm.mul_apply, swap_apply_right]

/-- **Two positions swapped**: the inverse changes at the two values that they hold. -/
theorem coe_inv_mul_swap (σ : Perm α) (i k : α) :
    ⇑(σ * swap i k)⁻¹ = Function.update (Function.update ⇑σ⁻¹ (σ k) i) (σ i) k := by
  funext a
  rw [Perm.inv_eq_iff_eq]
  by_cases hi : a = σ i
  · rw [hi, Function.update_self, mul_swap_apply_right]
  · rw [Function.update_of_ne hi]
    by_cases hk : a = σ k
    · rw [hk, Function.update_self, mul_swap_apply_left]
    · have hne : ∀ {b : α}, a ≠ σ b → σ⁻¹ a ≠ b := fun hb h => hb (Perm.inv_eq_iff_eq.mp h)
      rw [Function.update_of_ne hk, Perm.mul_apply, swap_apply_of_ne_of_ne (hne hi) (hne hk),
        ← Perm.inv_eq_iff_eq]

end Turns

/-! ### The positions `n-1 … 1` -/

variable {n : ℕ}

/-- A target for each position, up to the position itself; for position 0 there is no choice. -/
abbrev Draws (n : ℕ) := (i : Fin n) → Fin (i + 1)

theorem card_draws (n : ℕ) : Fintype.card (Draws n) = n ! := by
  rw [Fintype.card_pi]
  simp only [Fintype.card_fin]
  rw [Fin.prod_univ_eq_prod_range (· + 1), Finset.prod_range_add_one_eq_factorial]

/-- The positions `n-1 … 1`. -/
def turns (n : ℕ) : List (Fin n) := (List.finRange n).tail.reverse

/-- The drawn position. -/
def Draws.target (draws : Draws n) (i : Fin n) : Fin n := (draws i).castLE i.isLt

theorem Draws.target_le (draws : Draws n) (i : Fin n) : draws.target i ≤ i :=
  Nat.le_of_lt_succ (draws i).isLt

theorem settled_target (draws : Draws n) : Settled draws.target (turns n) := by
  have hlt := (List.pairwise_lt_finRange n).tail
  refine (List.pairwise_reverse.mpr hlt).imp fun hki => ⟨hki.ne', ?_⟩
  exact ((draws.target_le _).trans_lt hki).ne'

theorem mem_turns {i : Fin n} (h : (i : ℕ) ≠ 0) : i ∈ turns n := by
  cases n with
  | zero => exact i.elim0
  | succ n =>
    rw [turns, List.mem_reverse, List.finRange_succ, List.tail_cons, List.mem_map]
    obtain ⟨k, hk⟩ := Fin.exists_succ_eq.mpr fun h₀ => h (congrArg Fin.val h₀)
    exact ⟨k, List.mem_finRange k, hk⟩

/-- **Every permutation comes of exactly one sequence of draws.** -/
theorem bijective_shuffle :
    Function.Bijective fun draws : Draws n => shuffle draws.target (turns n) := by
  refine (Fintype.bijective_iff_injective_and_card _).mpr ⟨fun draws draws' heq => ?_, ?_⟩
  · funext i
    by_cases h₀ : (i : ℕ) = 0
    · obtain ⟨i, hi⟩ := i
      subst h₀
      exact Subsingleton.elim (α := Fin 1) _ _
    · have htarget := target_eq_of_shuffle_eq (settled_target draws) (settled_target draws') heq i
        (mem_turns h₀)
      exact Fin.castLE_injective i.isLt htarget
  · rw [card_draws, Fintype.card_perm, Fintype.card_fin]

end FisherYates
