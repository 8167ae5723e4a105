import MaliciousPsu.Bytes
import MaliciousPsu.Rust
import Mathlib.Data.Finset.Dedup

/-!
# The check of an output

`correctness_check` in `twosided.rs`, which the test of the two-sided protocol applies to what the
client recovers.

* `correctnessCheck_eq_true`: it tells whether every recovered block is one of `w` and none of `v`.
* `correctnessCheck_exact_iff`: so it misses a lost block, and is exact where none is lost.
-/

namespace MaliciousPsu

/-- The loop of `correctness_check` over the recovered blocks. -/
def checkBlocks (setV setW : Finset Block) : List Block → Bool
  | [] => true
  | block :: rest =>
      if block ∉ setW then false
      else if block ∈ setV then false
      else checkBlocks setV setW rest

/-- `correctness_check`. -/
def correctnessCheck (inputV inputW recoveredW : List UInt8) : Run Bool := do
  assert (inputV.length % 16 == 0)
  assert (inputW.length % 16 == 0)
  assert (recoveredW.length % 16 == 0)
  let setV := (chunksExact inputV).toFinset
  let setW := (chunksExact inputW).toFinset
  return checkBlocks setV setW (chunksExact recoveredW)

theorem assert_eq_ok {b : Bool} (h : b = true) : assert b = .ok () := by
  rw [assert, if_pos h]

/-- The loop looks for a block outside the difference, not for a block of the difference. -/
theorem checkBlocks_eq_true {setV setW : Finset Block} {blocks : List Block} :
    checkBlocks setV setW blocks = true ↔ ∀ b ∈ blocks, b ∈ setW ∧ b ∉ setV := by
  induction blocks with
  | nil => exact iff_of_true rfl fun _ hb => absurd hb List.not_mem_nil
  | cons block rest ih =>
    rw [checkBlocks, List.forall_mem_cons, ← ih]
    by_cases hW : block ∈ setW
    · rw [if_neg (not_not_intro hW)]
      by_cases hV : block ∈ setV
      · rw [if_pos hV]
        exact iff_of_false Bool.false_ne_true fun h => h.1.2 hV
      · rw [if_neg hV]
        exact ⟨fun h => ⟨⟨hW, hV⟩, h⟩, fun h => h.2⟩
    · rw [if_pos hW]
      exact iff_of_false Bool.false_ne_true fun h => hW h.1.1

section Exact

variable {v w recovered : List UInt8}

/-- The recovered blocks are the blocks of `w` that are none of `v`. -/
def IsDifference (v w recovered : List UInt8) : Prop :=
  ∀ b, b ∈ chunksExact recovered ↔ b ∈ chunksExact w ∧ b ∉ chunksExact v

/-- What the check returns. -/
theorem correctnessCheck_eq_true (hv : v.length % 16 = 0) (hw : w.length % 16 = 0)
    (hr : recovered.length % 16 = 0) :
    correctnessCheck v w recovered = .ok true ↔
      ∀ b ∈ chunksExact recovered, b ∈ chunksExact w ∧ b ∉ chunksExact v := by
  rw [correctnessCheck, assert_eq_ok (beq_iff_eq.mpr hv), assert_eq_ok (beq_iff_eq.mpr hw),
    assert_eq_ok (beq_iff_eq.mpr hr), ok_bind, ok_bind, ok_bind, pure_eq_ok, Except.ok.injEq,
    checkBlocks_eq_true]
  simp only [List.mem_toFinset]

/-- A difference passes. -/
theorem correctnessCheck_of_isDifference (hv : v.length % 16 = 0) (hw : w.length % 16 = 0)
    (hr : recovered.length % 16 = 0) (h : IsDifference v w recovered) :
    correctnessCheck v w recovered = .ok true :=
  (correctnessCheck_eq_true hv hw hr).mpr fun b hb => (h b).mp hb

/-- **The check is exact** where some recovered block is outside the difference, or no block of the
difference is lost. -/
theorem correctnessCheck_exact_iff (hv : v.length % 16 = 0) (hw : w.length % 16 = 0)
    (hr : recovered.length % 16 = 0) :
    (correctnessCheck v w recovered = .ok true ↔ IsDifference v w recovered) ↔
      (∃ b ∈ chunksExact recovered, b ∉ chunksExact w ∨ b ∈ chunksExact v) ∨
        ∀ b ∈ chunksExact w, b ∉ chunksExact v → b ∈ chunksExact recovered := by
  rw [correctnessCheck_eq_true hv hw hr]
  constructor
  · intro h
    by_cases hall : ∀ b ∈ chunksExact recovered, b ∈ chunksExact w ∧ b ∉ chunksExact v
    · exact Or.inr fun b hbw hbv => (h.mp hall b).mpr ⟨hbw, hbv⟩
    · push Not at hall
      obtain ⟨b, hb, hout⟩ := hall
      refine Or.inl ⟨b, hb, ?_⟩
      by_cases hbw : b ∈ chunksExact w
      · exact Or.inr (hout hbw)
      · exact Or.inl hbw
  · rintro (⟨b, hb, hout⟩ | hkept)
    · have hnot : ¬ (b ∈ chunksExact w ∧ b ∉ chunksExact v) := by
        rintro ⟨hbw, hbv⟩
        rcases hout with hout | hout
        · exact hout hbw
        · exact hbv hout
      exact iff_of_false (fun hall => hnot (hall b hb)) fun h => hnot ((h b).mp hb)
    · exact ⟨fun hall b => ⟨hall b, fun h => hkept b h.1 h.2⟩, fun h b hb => (h b).mp hb⟩

/-- One recovered block of two lists of one block each. -/
theorem correctnessCheck_exact_iff_one :
    (correctnessCheck (flatten [3]) (flatten [4]) (flatten [4]) = .ok true ↔
      IsDifference (flatten [3]) (flatten [4]) (flatten [4])) ↔
      (∃ b ∈ chunksExact (flatten [4]),
        b ∉ chunksExact (flatten [4]) ∨ b ∈ chunksExact (flatten [3])) ∨
        ∀ b ∈ chunksExact (flatten [4]),
          b ∉ chunksExact (flatten [3]) → b ∈ chunksExact (flatten [4]) :=
  correctnessCheck_exact_iff rfl rfl rfl

/-- **A lost block passes.** -/
theorem correctnessCheck_misses_lost :
    correctnessCheck [] (flatten [3]) [] = .ok true ∧ ¬ IsDifference [] (flatten [3]) [] := by
  refine ⟨(correctnessCheck_eq_true rfl rfl rfl).mpr fun _ hb => absurd hb List.not_mem_nil, ?_⟩
  intro h
  have hmem := (h 3).mpr (by decide)
  exact absurd hmem List.not_mem_nil

end Exact

end MaliciousPsu
