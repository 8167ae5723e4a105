import Mathlib.Algebra.BigOperators.Ring.Finset
import Mathlib.Algebra.Group.Action.Defs
import Mathlib.Algebra.Order.BigOperators.Group.Finset
import Mathlib.Data.FinEnum
import Mathlib.Data.Set.Card
import Mathlib.SetTheory.Cardinal.Finite

/-!
# Counting

How many pairs of a challenge and a key a strategy can win.

* `card_mul_ncard_le_of_shift`: a set that no two shifts of the same point meet.
* `two_mul_ncard_le`: a set that a bijection moves out of itself is half of the type at most.
* `ncard_le_of_fibers`: pairs, counted fibre by fibre, with a few fibres that may be full.
-/

variable {α β : Type*}

theorem card_mul_ncard_le_of_shift [Finite α] {S : Set α} (e : β → α → α)
    (h : ∀ ⦃t t' a a'⦄, a ∈ S → a' ∈ S → e t a = e t' a' → t = t' ∧ a = a') :
    Nat.card β * S.ncard ≤ Nat.card α := by
  have hinj : Function.Injective fun p : β × S => e p.1 p.2 := by
    rintro ⟨t, a, ha⟩ ⟨t', a', ha'⟩ heq
    obtain ⟨rfl, rfl⟩ := h ha ha' heq
    rfl
  have hcard := Nat.card_le_card_of_injective _ hinj
  rw [Nat.card_prod, Nat.card_coe_set_eq] at hcard
  exact hcard

/-- A set that an injection moves out of itself. -/
theorem two_mul_ncard_le [Finite α] {S : Set α} {e : α → α} (he : Function.Injective e)
    (h : ∀ a ∈ S, e a ∉ S) : 2 * S.ncard ≤ Nat.card α := by
  have hcard := card_mul_ncard_le_of_shift (S := S) (fun t : Bool => if t then e else id) ?_
  · rwa [Nat.card_eq_fintype_card, Fintype.card_bool] at hcard
  · intro t t' a a' ha ha' heq
    cases t with
    | true =>
        cases t' with
        | true => exact ⟨rfl, he heq⟩
        | false =>
            have heq : e a = a' := heq
            exact absurd (heq ▸ ha') (h a ha)
    | false =>
        cases t' with
        | true =>
            have heq : a = e a' := heq
            exact absurd (heq ▸ ha) (h a' ha')
        | false => exact ⟨rfl, heq⟩

/-- **Pairs, fibre by fibre.** -/
theorem ncard_le_of_fibers [Finite α] [Finite β] {P : α → β → Prop} {B : Set α} {m : ℕ}
    (h : ∀ a ∉ B, {b | P a b}.ncard ≤ m) :
    {p : α × β | P p.1 p.2}.ncard ≤ B.ncard * Nat.card β + Nat.card α * m := by
  classical
  have := Fintype.ofFinite α
  have hfiber : ∀ a, Nat.card {b // P a b} ≤ (if a ∈ B then Nat.card β else 0) + m := by
    intro a
    by_cases ha : a ∈ B
    · rw [if_pos ha]
      exact (Nat.card_le_card_of_injective _ Subtype.val_injective).trans (Nat.le_add_right _ _)
    · rw [if_neg ha, zero_add]
      exact h a ha
  calc {p : α × β | P p.1 p.2}.ncard
      = Nat.card {p : α × β // P p.1 p.2} := (Nat.card_coe_set_eq _).symm
    _ = Nat.card (Σ a, {b // P a b}) := Nat.card_congr (Equiv.subtypeProdEquivSigmaSubtype P)
    _ = ∑ a, Nat.card {b // P a b} := Nat.card_sigma
    _ ≤ ∑ a, ((if a ∈ B then Nat.card β else 0) + m) := Finset.sum_le_sum fun a _ => hfiber a
    _ = B.ncard * Nat.card β + Nat.card α * m := by
        have hB : B.ncard = (Finset.univ.filter fun a => a ∈ B).card := by
          rw [Set.ncard_eq_toFinset_card']
          congr 1
          ext a
          simp
        rw [Finset.sum_add_distrib, ← Finset.sum_filter, Finset.sum_const, Finset.sum_const, hB,
          Nat.card_eq_fintype_card (α := α), Finset.card_univ, smul_eq_mul, smul_eq_mul]
