import MaliciousPsu.Curve.Digits
import MaliciousPsu.Curve.Window

/-!
# Multiples of one point

The multiplications by one scalar: `variable_base.rs` in radix 16, and the tables of multiples of a
basepoint of `edwards.rs` in any of their radices.  Scalars are the bytes that hold them, reduced or
not, and only have to be below `2^255`.

* `variableBaseMul_of`: `s·P`.
* `BasepointTable.mulBase_of`: `s·B`, from the tables that `create` fills.
-/

namespace MaliciousPsu.CurveModels

open LawfulNiels (Of)
open Digits

/-! ### A variable base -/

/-- One digit of `variable_base::mul`. -/
def variableBaseStep (lookupTable : List ProjectiveNielsPoint) (scalarDigits : List ℤ)
    (tmp1 : CompletedPoint) (i : ℕ) : CompletedPoint :=
  let tmp2 := tmp1.asProjective
  let tmp1 := tmp2.double
  let tmp2 := tmp1.asProjective
  let tmp1 := tmp2.double
  let tmp2 := tmp1.asProjective
  let tmp1 := tmp2.double
  let tmp2 := tmp1.asProjective
  let tmp1 := tmp2.double
  let tmp3 := tmp1.asExtended
  Niels.add tmp3 (LookupTable.select lookupTable (scalarDigits.getD i 0))

/-- `variable_base::mul`. -/
def variableBaseMul (point : ExtendedPoint) (scalar : Bytes32) : ExtendedPoint :=
  let lookupTable := LookupTable.ofPoint ProjectiveNielsPoint 8 point
  let scalarDigits := asRadix16 scalar
  let tmp3 := ExtendedPoint.identity
  let tmp1 := Niels.add tmp3 (LookupTable.select lookupTable (scalarDigits.getD 63 0))
  let tmp1 := (List.range 63).reverse.foldl (variableBaseStep lookupTable scalarDigits) tmp1
  tmp1.asExtended

section VariableBase

variable {P Q : EdwardsPoint} {p : ExtendedPoint} {scalar : Bytes32}

theorem four_doublings (Q : EdwardsPoint) :
    Q + Q + (Q + Q) + (Q + Q + (Q + Q)) + (Q + Q + (Q + Q) + (Q + Q + (Q + Q))) = 16 • Q := by
  abel

/-- Four doublings and a digit. -/
theorem variableBaseStep_of {table : List ProjectiveNielsPoint} {ds : List ℤ} {i : ℕ}
    (hselect : Of (LookupTable.select table (ds.getD i 0)) (ds.getD i 0 • P)) {c : CompletedPoint}
    (hc : c.Of Q) : (variableBaseStep table ds c i).Of (16 • Q + ds.getD i 0 • P) := by
  have h := hc.asProjective.double.asProjective.double.asProjective.double.asProjective.double
  rw [four_doublings] at h
  exact LawfulNiels.add_of h.asExtended hselect

/-- **`s·P`**, for every point and every scalar below `2^255`. -/
theorem variableBaseMul_of (h : p.Of P) (hs : scalar.toNat < 2 ^ 255) :
    (variableBaseMul p scalar).Of (scalar.toNat • P) := by
  obtain ⟨hlen, hvalue, hlow, hlast⟩ := asRadix16_spec hs
  have hselect : ∀ i < 64, Of (LookupTable.select (LookupTable.ofPoint ProjectiveNielsPoint 8 p)
      ((asRadix16 scalar).getD i 0)) ((asRadix16 scalar).getD i 0 • P) := by
    intro i hi
    have hdigit : -8 ≤ (asRadix16 scalar).getD i 0 ∧ (asRadix16 scalar).getD i 0 ≤ 8 := by
      rcases Nat.lt_succ_iff_lt_or_eq.mp hi with hi | rfl
      · exact ⟨(hlow i hi).1, (hlow i hi).2.le⟩
      · exact ⟨le_trans (by decide) hlast.1, hlast.2⟩
    refine LookupTable.select_of (LookupTable.ofPoint_holds 8 h) ?_ ?_ ?_ (by decide) <;> omega
  have hfirst := LawfulNiels.add_of ExtendedPoint.identity_of (hselect 63 (by decide))
  have hstep : ∀ {c : CompletedPoint} {Q : EdwardsPoint} {i : ℕ}, i < 63 → c.Of Q →
      (variableBaseStep (LookupTable.ofPoint ProjectiveNielsPoint 8 p) (asRadix16 scalar) c i).Of
        (16 • Q + (asRadix16 scalar).getD i 0 • P) :=
    fun hi hc => variableBaseStep_of (hselect _ (Nat.lt_succ_of_lt hi)) hc
  have hloop := horner hstep hfirst
  have hsum := sum_digits (c := 16) (n := 64)
    (fun i hi => List.getD_eq_default _ _ (hlen.le.trans hi)) P
  rw [Finset.sum_range_succ, add_comm, ← zero_add ((asRadix16 scalar).getD 63 0 • P)] at hsum
  rw [hsum, Nat.cast_ofNat, hvalue, natCast_zsmul] at hloop
  exact hloop.asExtended

end VariableBase

/-! ### Tables of a basepoint -/

/-- The parameters that a table is instantiated with: the bits of a digit, the entries of a lookup
table, and the number of digits. -/
structure BasepointTable where
  radix : ℕ
  size : ℕ
  additions : ℕ
  four_le : 4 ≤ radix
  le_eight : radix ≤ 8
  size_eq : size = 2 ^ (radix - 1)
  additions_eq : additions = toRadix2wSizeHint radix

namespace BasepointTable

/-- `EdwardsBasepointTable`. -/
def edwardsBasepointTable : BasepointTable :=
  ⟨4, 8, 64, by decide, by decide, by decide, by decide⟩

/-- `EdwardsBasepointTableRadix32`. -/
def edwardsBasepointTableRadix32 : BasepointTable :=
  ⟨5, 16, 52, by decide, by decide, by decide, by decide⟩

/-- `EdwardsBasepointTableRadix64`. -/
def edwardsBasepointTableRadix64 : BasepointTable :=
  ⟨6, 32, 43, by decide, by decide, by decide, by decide⟩

/-- `EdwardsBasepointTableRadix128`. -/
def edwardsBasepointTableRadix128 : BasepointTable :=
  ⟨7, 64, 37, by decide, by decide, by decide, by decide⟩

/-- `EdwardsBasepointTableRadix256`. -/
def edwardsBasepointTableRadix256 : BasepointTable :=
  ⟨8, 128, 33, by decide, by decide, by decide, by decide⟩

variable (K : BasepointTable)

theorem size_le : K.size ≤ 128 :=
  K.size_eq.le.trans (Nat.pow_le_pow_right (by decide) (Nat.sub_le_sub_right K.le_eight 1))

theorem additions_le : K.additions ≤ 64 := by
  have h₁ := K.four_le
  have h₂ := K.le_eight
  rw [K.additions_eq]
  generalize K.radix = w at h₁ h₂
  interval_cases w <;> decide

/-- One lookup table of `create`, and the point that the next one is for. -/
def createStep (s : List (List AffineNielsPoint) × ExtendedPoint) (_ : ℕ) :
    List (List AffineNielsPoint) × ExtendedPoint :=
  (s.1 ++ [LookupTable.ofPoint AffineNielsPoint K.size s.2], s.2.mulByPow2 (K.radix + K.radix))

/-- `create`. -/
def create (basepoint : ExtendedPoint) : List (List AffineNielsPoint) :=
  ((List.range 32).foldl K.createStep ([], basepoint)).1

/-- `basepoint`. -/
def basepointOf (table : List (List AffineNielsPoint)) : ExtendedPoint :=
  (Niels.add ExtendedPoint.identity (LookupTable.select (table.getD 0 []) 1)).asExtended

/-- The addition of one digit. -/
def addStep (tables : List (List AffineNielsPoint)) (a : List ℤ) (P : ExtendedPoint) (i : ℕ) :
    ExtendedPoint :=
  (Niels.add P (LookupTable.select (tables.getD (i / 2) []) (a.getD i 0))).asExtended

/-- `mul_base`. -/
def mulBase (tables : List (List AffineNielsPoint)) (scalar : Bytes32) : ExtendedPoint :=
  let a := asRadix2w scalar K.radix
  let P := ExtendedPoint.identity
  let P := ((List.range K.additions).filter (· % 2 == 1)).foldl (addStep tables a) P
  let P := P.mulByPow2 K.radix
  ((List.range K.additions).filter (· % 2 == 0)).foldl (addStep tables a) P

/-- Tables of the multiples of `B` that the digits at `0, 2, 4, …` weigh. -/
structure IsFor (tables : List (List AffineNielsPoint)) (B : EdwardsPoint) : Prop where
  length : tables.length = 32
  holds : ∀ i < 32, Holds (tables.getD i []) K.size (2 ^ ((K.radix + K.radix) * i) • B)
    (2 ^ ((K.radix + K.radix) * i) • B)

variable {K} {B : EdwardsPoint} {b : ExtendedPoint} {scalar : Bytes32}

theorem createStep_loop (h : b.Of B) : ∀ n : ℕ,
    let s := (List.range n).foldl K.createStep ([], b)
    s.1.length = n ∧ s.2.Of (2 ^ ((K.radix + K.radix) * n) • B) ∧
      ∀ i < n, Holds (s.1.getD i []) K.size (2 ^ ((K.radix + K.radix) * i) • B)
        (2 ^ ((K.radix + K.radix) * i) • B)
  | 0 => ⟨rfl, by rwa [mul_zero, pow_zero, one_nsmul], fun i hi => absurd hi (Nat.not_lt_zero i)⟩
  | n + 1 => by
      obtain ⟨hlen, hpoint, hholds⟩ := createStep_loop h n
      rw [List.range_succ, List.foldl_concat]
      generalize (List.range n).foldl K.createStep ([], b) = s at hlen hpoint hholds ⊢
      have hradix : 0 < K.radix + K.radix := by have := K.four_le; omega
      refine ⟨by rw [createStep, List.length_append, hlen, List.length_singleton], ?_, ?_⟩
      · have hnext := hpoint.mulByPow2 hradix
        rwa [← mul_nsmul', ← pow_add, Nat.add_comm _ (_ * n), ← mul_add_one] at hnext
      · intro i hi
        rcases Nat.lt_succ_iff_lt_or_eq.mp hi with hi | rfl
        · rw [createStep, List.getD_append _ _ _ _ (by omega)]
          exact hholds i hi
        · rw [createStep, List.getD_append_right _ _ _ _ hlen.le, hlen, Nat.sub_self,
            List.getD_cons_zero]
          exact LookupTable.ofPoint_holds K.size hpoint

/-- **`create`** fills in tables for its basepoint. -/
theorem create_isFor (h : b.Of B) : K.IsFor (K.create b) B := by
  obtain ⟨hlen, -, hholds⟩ := createStep_loop (K := K) h 32
  exact ⟨hlen, hholds⟩

/-- The entry for `1` is the basepoint. -/
theorem basepointOf_of {tables : List (List AffineNielsPoint)} (h : K.IsFor tables B) :
    (basepointOf tables).Of B := by
  have hsize : 1 ≤ K.size := K.size_eq ▸ Nat.one_le_two_pow
  have hselect := LookupTable.select_of (h.holds 0 (by decide)) (x := 1) (by decide) (by decide)
    hsize K.size_le
  rw [mul_zero, pow_zero, one_nsmul, one_zsmul] at hselect
  have hadd := LawfulNiels.add_of ExtendedPoint.identity_of hselect
  rw [zero_add] at hadd
  exact hadd.asExtended

/-- What the digit at `i` adds. -/
theorem addStep_of {tables : List (List AffineNielsPoint)} (h : K.IsFor tables B)
    (hs : scalar.toNat < 2 ^ 255) {P : ExtendedPoint} {Q : EdwardsPoint} {i : ℕ}
    (hi : i < K.additions) (hP : P.Of Q) :
    (addStep tables (asRadix2w scalar K.radix) P i).Of
      (Q + (asRadix2w scalar K.radix).getD i 0 • 2 ^ ((K.radix + K.radix) * (i / 2)) • B) := by
  obtain ⟨-, -, hdigit, -⟩ := asRadix2w_spec hs K.four_le K.le_eight
  obtain ⟨habs, hlt⟩ := hdigit i
  have hadditions := K.additions_le
  have hnat : ((asRadix2w scalar K.radix).getD i 0).natAbs ≤ K.size := by
    rw [K.size_eq]
    zify
    exact habs
  have hsize := K.size_le
  have hselect := LookupTable.select_of (h.holds (i / 2) (by omega)) (by omega) hlt hnat hsize
  exact (LawfulNiels.add_of hP hselect).asExtended

/-- The odd digits are doubled once more than the even ones. -/
theorem even_odd (B : EdwardsPoint) (w j : ℕ) (d : ℤ) :
    2 ^ w • (if j % 2 == 1 then d • 2 ^ ((w + w) * (j / 2)) • B else 0) +
      (if j % 2 == 0 then d • 2 ^ ((w + w) * (j / 2)) • B else 0) = (2 ^ w) ^ j • d • B := by
  rcases Nat.mod_two_eq_zero_or_one j with hj | hj
  · have hexp : (w + w) * (j / 2) = w * j := by
      conv_rhs => rw [← Nat.div_add_mod j 2, hj]
      ring
    rw [hj, if_neg (by decide), if_pos (by decide), nsmul_zero, zero_add, hexp, pow_mul,
      smul_comm]
  · have hexp : w + (w + w) * (j / 2) = w * j := by
      conv_rhs => rw [← Nat.div_add_mod j 2, hj]
      ring
    rw [hj, if_pos (by decide), if_neg (by decide), add_zero, smul_comm d, smul_smul, ← pow_add,
      hexp, pow_mul]

/-- **`s·B`**, for every point and every scalar below `2^255`. -/
theorem mulBase_of {tables : List (List AffineNielsPoint)} (h : K.IsFor tables B)
    (hs : scalar.toNat < 2 ^ 255) : (K.mulBase tables scalar).Of (scalar.toNat • B) := by
  obtain ⟨-, hvalue, -, hzero⟩ := asRadix2w_spec hs K.four_le K.le_eight
  have hradix : 0 < K.radix := by have := K.four_le; omega
  have hstep : ∀ {P : ExtendedPoint} {Q : EdwardsPoint} {j : ℕ}, j < K.additions → P.Of Q →
      (addStep tables (asRadix2w scalar K.radix) P j).Of (Q +
        (asRadix2w scalar K.radix).getD j 0 • 2 ^ ((K.radix + K.radix) * (j / 2)) • B) :=
    fun hj hP => addStep_of h hs hj hP
  have hodd := foldl_filter (p := (· % 2 == 1)) hstep ExtendedPoint.identity_of
  have heven := foldl_filter (p := (· % 2 == 0)) hstep (hodd.mulByPow2 hradix)
  have hsum := sum_digits (c := 2 ^ K.radix) (K.additions_eq ▸ hzero) B
  rw [zero_add, Finset.smul_sum, ← Finset.sum_add_distrib] at heven
  simp only [even_odd] at heven
  rw [hsum, Nat.cast_pow, Nat.cast_ofNat, hvalue, natCast_zsmul] at heven
  exact heven

end BasepointTable

end MaliciousPsu.CurveModels
