import MaliciousPsu.Curve.Models
import Mathlib.Algebra.Order.Group.Int
import Mathlib.Data.List.GetD

/-!
# Tables of multiples

`window.rs`: the multiples of a point that its multiplications look up, `1` to `size` for the
digits of a radix and the odd ones for a non-adjacent form.

* `tableOf_holds`: what a table holds.
* `LookupTable.select_of`: a lookup by masks is the multiple by a signed digit.
* `addDigit_of`: adding or subtracting an entry adds the multiple by a digit.
-/

namespace MaliciousPsu.CurveModels

open LawfulNiels (Of)

variable {N : Type} [Niels N]

/-- The loop that fills a table: each entry is `Q` plus the one before it. -/
def tableOf (size : ℕ) (Q : ExtendedPoint) (first : N) : List N :=
  (List.range (size - 1)).foldl
    (fun points j => points.set (j + 1)
      (Niels.ofExtended (Niels.add Q (points.getD j Niels.identity)).asExtended))
    (List.replicate size first)

/-- `LookupTable`, of any size: `P, 2P, 3P, …`. -/
def LookupTable.ofPoint (N : Type) [Niels N] (size : ℕ) (P : ExtendedPoint) : List N :=
  tableOf size P (Niels.ofExtended P)

/-- `LookupTable::select`. -/
def LookupTable.select (table : List N) (x : ℤ) : N :=
  let x := BitVec.ofInt 16 x
  let xmask := x.sshiftRight 7
  let xabs := (x + xmask) ^^^ xmask
  let t := (List.range' 1 table.length).foldl
    (fun t j => if xabs == BitVec.ofNat 16 j then table.getD (j - 1) Niels.identity else t)
    Niels.identity
  if xmask &&& 1 == 1 then Niels.neg t else t

/-- `NafLookupTable5` and `NafLookupTable8`, of any size: `A, 3A, 5A, …`. -/
def NafLookupTable.ofPoint (N : Type) [Niels N] (size : ℕ) (A : ExtendedPoint) : List N :=
  tableOf size A.double (Niels.ofExtended A)

/-- `NafLookupTable5::select`. -/
def NafLookupTable.select (table : List N) (x : ℕ) : N := table.getD (x / 2) Niels.identity

/-- The comparison of a digit with zero, and what it adds. -/
def addDigit (table : List N) (t : CompletedPoint) (digit : ℤ) : CompletedPoint :=
  if 0 < digit then Niels.add t.asExtended (NafLookupTable.select table digit.toNat)
  else if digit < 0 then Niels.sub t.asExtended (NafLookupTable.select table (-digit).toNat)
  else t

/-! ### Masks -/

/-- The masks of a signed digit. -/
theorem masks_eq {x : ℤ} (h : -128 ≤ x) (h' : x < 128) :
    (BitVec.ofInt 16 x + (BitVec.ofInt 16 x).sshiftRight 7) ^^^ (BitVec.ofInt 16 x).sshiftRight 7 =
        BitVec.ofNat 16 x.natAbs ∧
      ((BitVec.ofInt 16 x).sshiftRight 7 &&& 1 == 1) = decide (x < 0) := by
  have hall : ∀ k < 256, (BitVec.ofInt 16 ((k : ℕ) - 128 : ℤ) +
        (BitVec.ofInt 16 ((k : ℕ) - 128 : ℤ)).sshiftRight 7) ^^^
          (BitVec.ofInt 16 ((k : ℕ) - 128 : ℤ)).sshiftRight 7 =
            BitVec.ofNat 16 ((k : ℕ) - 128 : ℤ).natAbs ∧
      ((BitVec.ofInt 16 ((k : ℕ) - 128 : ℤ)).sshiftRight 7 &&& 1 == 1) =
        decide (((k : ℕ) - 128 : ℤ) < 0) := by
    decide +kernel
  have := hall (x + 128).toNat (by omega)
  rwa [Int.toNat_of_nonneg (by omega), add_sub_cancel_right] at this

/-- The entry that is copied is the one whose index matches. -/
theorem foldl_select (table : List N) {m : ℕ} (hm : m ≤ 128) : ∀ n ≤ 128,
    (List.range' 1 n).foldl (fun t j =>
      if BitVec.ofNat 16 m == BitVec.ofNat 16 j then table.getD (j - 1) Niels.identity else t)
      Niels.identity = if 1 ≤ m ∧ m ≤ n then table.getD (m - 1) Niels.identity else Niels.identity
  | 0, _ => by
      rw [if_neg (by omega)]
      rfl
  | n + 1, hn => by
      have hbeq : (BitVec.ofNat 16 m == BitVec.ofNat 16 (1 + n)) = decide (m = 1 + n) := by
        rw [beq_eq_decide, decide_eq_decide, ← BitVec.toNat_inj, BitVec.toNat_ofNat,
          BitVec.toNat_ofNat]
        omega
      rw [List.range'_1_concat, List.foldl_concat, foldl_select table hm n (by omega), hbeq]
      by_cases h : m = 1 + n
      · rw [if_pos (decide_eq_true h), if_pos (by omega), h]
      · rw [decide_eq_false h, if_neg Bool.false_ne_true]
        refine if_congr ?_ rfl rfl
        omega

/-! ### What tables hold -/

variable [LawfulNiels N] {P Q : EdwardsPoint}

/-- A table with an entry for `F`, `F + Q`, `F + 2Q` and so on. -/
structure Holds (table : List N) (size : ℕ) (F Q : EdwardsPoint) : Prop where
  length : table.length = size
  entry : ∀ j < size, Of (table.getD j Niels.identity) (F + j • Q)

/-- **What the loop fills in.** -/
theorem tableOf_holds {size : ℕ} {q : ExtendedPoint} {first : N} {F : EdwardsPoint} (hq : q.Of Q)
    (hF : Of first F) : Holds (tableOf size q first) size F Q := by
  have hloop : ∀ n ≤ size - 1, ((List.range n).foldl
      (fun points j => points.set (j + 1)
        (Niels.ofExtended (Niels.add q (points.getD j Niels.identity)).asExtended))
      (List.replicate size first)).length = size ∧
      ∀ j ≤ n, j < size → Of (((List.range n).foldl
        (fun points j => points.set (j + 1)
          (Niels.ofExtended (Niels.add q (points.getD j Niels.identity)).asExtended))
        (List.replicate size first)).getD j Niels.identity) (F + j • Q) := by
    intro n
    induction n with
    | zero =>
      intro _
      refine ⟨List.length_replicate, fun j hj hlt => ?_⟩
      obtain rfl : j = 0 := Nat.le_zero.mp hj
      rw [List.range_zero, List.foldl_nil, zero_nsmul, add_zero,
        List.getD_eq_getElem _ _ (by rwa [List.length_replicate]), List.getElem_replicate]
      exact hF
    | succ n ih =>
      intro hn
      obtain ⟨hlen, hentry⟩ := ih (Nat.le_of_succ_le hn)
      rw [List.range_succ, List.foldl_concat]
      generalize (List.range n).foldl _ _ = points at hlen hentry
      refine ⟨by rw [List.length_set, hlen], fun j hj hlt => ?_⟩
      rw [List.getD_eq_getElem _ _ (by rwa [List.length_set, hlen]), List.getElem_set]
      split
      · next hj =>
        subst hj
        have h := hentry n le_rfl (by omega)
        rw [succ_nsmul, ← add_assoc, add_comm]
        exact LawfulNiels.ofExtended_of (LawfulNiels.add_of hq h).asExtended
      · next hne =>
        have h := hentry j (by omega) hlt
        rwa [List.getD_eq_getElem _ _ (by rwa [hlen])] at h
  obtain ⟨hlen, hentry⟩ := hloop (size - 1) le_rfl
  exact ⟨hlen, fun j hj => hentry j (by omega) hj⟩

theorem LookupTable.ofPoint_holds (size : ℕ) {p : ExtendedPoint} (h : p.Of P) :
    Holds (LookupTable.ofPoint N size p) size P P :=
  tableOf_holds h (LawfulNiels.ofExtended_of h)

theorem NafLookupTable.ofPoint_holds (size : ℕ) {p : ExtendedPoint} (h : p.Of P) :
    Holds (NafLookupTable.ofPoint N size p) size P (P + P) :=
  tableOf_holds h.double (LawfulNiels.ofExtended_of h)

/-! ### Lookups -/

/-- **A lookup by masks** is the multiple by a signed digit. -/
theorem LookupTable.select_of {table : List N} {size : ℕ} (h : Holds table size P P) {x : ℤ}
    (hx : -128 ≤ x) (hx' : x < 128) (habs : x.natAbs ≤ size) (hsize : size ≤ 128) :
    Of (LookupTable.select table x) (x • P) := by
  obtain ⟨hxabs, hneg⟩ := masks_eq hx hx'
  have hentry : Of (if 1 ≤ x.natAbs ∧ x.natAbs ≤ table.length
      then table.getD (x.natAbs - 1) Niels.identity else Niels.identity) (x.natAbs • P) := by
    rw [h.length]
    split
    · next hle =>
      have := h.entry (x.natAbs - 1) (by omega)
      rwa [← succ_nsmul', Nat.sub_add_cancel hle.1] at this
    · next hzero =>
      rw [show x.natAbs = 0 by omega, zero_nsmul]
      exact LawfulNiels.identity_of
  simp only [LookupTable.select, hxabs, hneg]
  rw [foldl_select table (by omega) _ (h.length ▸ hsize)]
  split
  · next hlt =>
    have hx : x = -(x.natAbs : ℤ) := by
      have := of_decide_eq_true hlt
      omega
    conv => rhs; rw [hx]
    rw [neg_zsmul, natCast_zsmul]
    exact LawfulNiels.neg_of hentry
  · next hge =>
    have hx : x = (x.natAbs : ℤ) := by
      have := of_decide_eq_false (Bool.not_eq_true _ ▸ hge)
      omega
    conv => rhs; rw [hx]
    rw [natCast_zsmul]
    exact hentry

/-- An odd multiple. -/
theorem NafLookupTable.select_of {table : List N} {size : ℕ} (h : Holds table size P (P + P))
    {x : ℕ} (hodd : x % 2 = 1) (hlt : x < 2 * size) :
    Of (NafLookupTable.select table x) (x • P) := by
  have hentry := h.entry (x / 2) (by omega)
  have hx : P + (x / 2) • (P + P) = x • P := by
    conv_rhs => rw [← Nat.div_add_mod x 2, hodd, add_nsmul, mul_comm, mul_nsmul', two_nsmul,
      one_nsmul, add_comm]
  rw [hx] at hentry
  exact hentry

/-- **A digit is added**: an odd one that the table has, or zero. -/
theorem addDigit_of {table : List N} {size : ℕ} (h : Holds table size P (P + P))
    {t : CompletedPoint} {T : EdwardsPoint} (ht : t.Of T) {digit : ℤ}
    (hd : digit ≠ 0 → digit % 2 = 1 ∧ |digit| < 2 * size) :
    (addDigit table t digit).Of (T + digit • P) := by
  rw [addDigit]
  split
  · next hpos =>
    obtain ⟨hodd, habs⟩ := hd hpos.ne'
    rw [abs_of_pos hpos] at habs
    have hselect := NafLookupTable.select_of h (x := digit.toNat) (by omega) (by omega)
    rw [← natCast_zsmul, Int.toNat_of_nonneg hpos.le] at hselect
    exact LawfulNiels.add_of ht.asExtended hselect
  · next hnpos =>
    split
    · next hneg =>
      obtain ⟨hodd, habs⟩ := hd hneg.ne
      rw [abs_of_neg hneg] at habs
      have hselect := NafLookupTable.select_of h (x := (-digit).toNat) (by omega) (by omega)
      rw [← natCast_zsmul, Int.toNat_of_nonneg (by omega), neg_zsmul] at hselect
      have hsub := LawfulNiels.sub_of ht.asExtended hselect
      rwa [sub_neg_eq_add] at hsub
    · next hnneg =>
      rw [show digit = 0 by omega, zero_zsmul, add_zero]
      exact ht

end MaliciousPsu.CurveModels
