import MaliciousPsu.Aok.Commit
import MaliciousPsu.Curve.ScalarMul

/-!
# Sums of multiples

`straus.rs`, `pippenger.rs`, and the choice between the two in `edwards.rs`.  Points are optional:
one that is missing makes the sum missing.

* `strausMultiscalarMul_of`: Straus' method over non-adjacent forms.
* `pippengerMultiscalarMul_of`: Pippenger's over buckets, at each of its digit widths.
* `optionalMultiscalarMul_refines`: both are the sum of the multiples.
* `vartimeMultiscalarMul_refines`: `vartime_multiscalar_mul`, panics included.
-/

namespace MaliciousPsu.CurveModels

open LawfulNiels (Of)
open Digits

/-! ### Straus -/

/-- One digit of every scalar. -/
def strausStep (nafs : List (List ℤ)) (lookupTables : List (List ProjectiveNielsPoint))
    (r : ProjectivePoint) (i : ℕ) : ProjectivePoint :=
  let t := (nafs.zip lookupTables).foldl
    (fun t nl => addDigit nl.2 t (nl.1.getD i 0)) r.double
  t.asProjective

/-- `optional_multiscalar_mul` of `Straus`. -/
def strausMultiscalarMul (scalars : List Bytes32) (points : List (Option ExtendedPoint)) :
    Option ExtendedPoint := do
  let nafs := scalars.map fun c => nonAdjacentForm c 5
  let lookupTables ← points.mapM fun p => p.map (NafLookupTable.ofPoint ProjectiveNielsPoint 8)
  let r := (List.range 256).reverse.foldl (strausStep nafs lookupTables) ⟨0, 1, 1⟩
  return r.asExtended

/-! ### Pippenger -/

/-- The digit width for this many scalars. -/
def pippengerWidth (size : ℕ) : ℕ := if size < 500 then 6 else if size < 800 then 7 else 8

/-- A point goes to the bucket of its digit. -/
def bucketStep (digitIndex : ℕ) (buckets : List ExtendedPoint)
    (sp : List ℤ × ProjectiveNielsPoint) : List ExtendedPoint :=
  let digit := sp.1.getD digitIndex 0
  if 0 < digit then
    let b := (digit - 1).toNat
    buckets.set b (Niels.add (buckets.getD b ExtendedPoint.identity) sp.2).asExtended
  else if digit < 0 then
    let b := (-digit - 1).toNat
    buckets.set b (Niels.sub (buckets.getD b ExtendedPoint.identity) sp.2).asExtended
  else buckets

/-- The buckets of one digit, added up by two running sums. -/
def pippengerColumn (bucketsCount : ℕ) (scalarsPoints : List (List ℤ × ProjectiveNielsPoint))
    (digitIndex : ℕ) : ExtendedPoint :=
  let buckets := scalarsPoints.foldl (bucketStep digitIndex)
    (List.replicate bucketsCount ExtendedPoint.identity)
  let last := buckets.getD (bucketsCount - 1) ExtendedPoint.identity
  ((List.range (bucketsCount - 1)).reverse.foldl
    (fun s i =>
      let intermediate := s.1.add (buckets.getD i ExtendedPoint.identity)
      (intermediate, s.2.add intermediate))
    (last, last)).2

/-- `optional_multiscalar_mul` of `Pippenger`. -/
def pippengerMultiscalarMul (scalars : List Bytes32) (points : List (Option ExtendedPoint)) :
    Option ExtendedPoint := do
  let w := pippengerWidth scalars.length
  let digitsCount := toRadix2wSizeHint w
  let bucketsCount := 2 ^ w / 2
  let scalars := scalars.map fun s => asRadix2w s w
  let points := points.map fun p => p.map ExtendedPoint.asProjectiveNiels
  let scalarsPoints ← (scalars.zip points).mapM fun sp => sp.2.map fun p => (sp.1, p)
  let column := pippengerColumn bucketsCount scalarsPoints
  let hiColumn := column (digitsCount - 1)
  return (List.range (digitsCount - 1)).reverse.foldl
    (fun total i => (total.mulByPow2 w).add (column i)) hiColumn

/-- `optional_multiscalar_mul` of `EdwardsPoint`. -/
def optionalMultiscalarMul (scalars : List Bytes32) (points : List (Option ExtendedPoint)) :
    Run (Option ExtendedPoint) :=
  if scalars.length = points.length then
    .ok (if scalars.length < 190 then strausMultiscalarMul scalars points
      else pippengerMultiscalarMul scalars points)
  else .error .lengthMismatch

/-! ### Optional points -/

section Options

variable {α β : Type} {f : α → Option β} {xs : List α}

theorem mapM_eq_some {g : α → β} (h : ∀ x ∈ xs, f x = some (g x)) :
    xs.mapM f = some (xs.map g) := by
  induction xs with
  | nil => rfl
  | cons x xs ih =>
    rw [List.mapM_cons, h x (List.mem_cons_self ..), ih fun y hy => h y (List.mem_cons_of_mem x hy)]
    rfl

theorem mapM_eq_none {x : α} (hx : x ∈ xs) (h : f x = none) : xs.mapM f = none := by
  induction hx with
  | head as =>
    rw [List.mapM_cons, h]
    rfl
  | tail b _ ih =>
    rw [List.mapM_cons, ih]
    cases f b <;> rfl

theorem mapM_id_some (xs : List α) : (xs.map some).mapM id = some xs := by
  rw [List.mapM_map]
  exact (mapM_eq_some fun _ _ => rfl).trans (congrArg some (List.map_id xs))

/-- Two lists are walked along with a third one. -/
theorem forall₂_zip {γ δ : Type} {T : α → β → Prop} {S : γ × α → δ → Prop} {g : γ → β → δ}
    {ts : List α} {Ps : List β} (h : List.Forall₂ T ts Ps) : ∀ {as : List γ},
    (∀ a ∈ as, ∀ t P, T t P → S (a, t) (g a P)) →
    List.Forall₂ S (as.zip ts) (List.zipWith g as Ps) := by
  induction h with
  | nil =>
      intro as _
      rw [List.zip_nil_right, List.zipWith_nil_right]
      exact .nil
  | cons hT _ ih =>
      intro as hS
      cases as with
      | nil => exact .nil
      | cons a as =>
        rw [List.zip_cons_cons, List.zipWith_cons_cons]
        exact .cons (hS a (List.mem_cons_self ..) _ _ hT)
          (ih fun b hb => hS b (List.mem_cons_of_mem a hb))

theorem zipWith_congr_left {γ δ : Type} {g h : γ → β → δ} : ∀ {as : List γ} {Ps : List β},
    (∀ a ∈ as, ∀ P, g a P = h a P) → List.zipWith g as Ps = List.zipWith h as Ps
  | [], _, _ => rfl
  | _ :: _, [], _ => rfl
  | a :: as, P :: Ps, hgh => by
      rw [List.zipWith_cons_cons, List.zipWith_cons_cons, hgh a (List.mem_cons_self ..),
        zipWith_congr_left fun b hb => hgh b (List.mem_cons_of_mem a hb)]

end Options

/-! ### Straus' method -/

section Straus

variable {scalars : List Bytes32} {ps : List ExtendedPoint} {Ps : List EdwardsPoint}

/-- A doubling, and a digit of every scalar. -/
theorem strausStep_of {nafs : List (List ℤ)} {tables : List (List ProjectiveNielsPoint)} {i : ℕ}
    (hnafs : ∀ naf ∈ nafs, naf.getD i 0 ≠ 0 → naf.getD i 0 % 2 = 1 ∧ |naf.getD i 0| < 2 * (8 : ℕ))
    (htables : List.Forall₂ (fun t P => Holds t 8 P (P + P)) tables Ps) {r : ProjectivePoint}
    {Q : EdwardsPoint} (hr : r.Of Q) : (strausStep nafs tables r i).Of
      (2 • Q + (List.zipWith (fun naf P => naf.getD i 0 • P) nafs Ps).sum) := by
  have hdouble := hr.double
  rw [← two_nsmul] at hdouble
  have hsummands := forall₂_zip (g := fun naf P => naf.getD i 0 • P)
    (S := fun (nl : List ℤ × List ProjectiveNielsPoint) T => ∃ P, Holds nl.2 8 P (P + P) ∧
      T = nl.1.getD i 0 • P ∧
        (nl.1.getD i 0 ≠ 0 → nl.1.getD i 0 % 2 = 1 ∧ |nl.1.getD i 0| < 2 * (8 : ℕ))) htables
    fun naf hnaf t P ht => ⟨P, ht, rfl, hnafs naf hnaf⟩
  refine (foldl_add (R := CompletedPoint.Of) (fun hc hx => ?_) hsummands hdouble).asProjective
  obtain ⟨P, ht, rfl, hd⟩ := hx
  exact addDigit_of ht hc hd

/-- **Straus' method** on points that are there. -/
theorem strausMultiscalarMul_of (hs : ∀ s ∈ scalars, s.toNat < 2 ^ 255)
    (h : List.Forall₂ ExtendedPoint.Of ps Ps) :
    ∃ e, strausMultiscalarMul scalars (ps.map some) = some e ∧
      e.Of (List.zipWith (fun s P => s.toNat • P) scalars Ps).sum := by
  have hmapM : (ps.map some).mapM (fun p => p.map (NafLookupTable.ofPoint ProjectiveNielsPoint 8)) =
      some (ps.map (NafLookupTable.ofPoint ProjectiveNielsPoint 8)) := by
    rw [List.mapM_map]
    exact mapM_eq_some fun _ _ => rfl
  have htables : List.Forall₂ (fun t P => Holds t 8 P (P + P))
      (ps.map (NafLookupTable.ofPoint ProjectiveNielsPoint 8)) Ps :=
    List.forall₂_map_left_iff.mpr (h.imp fun _ _ hp => NafLookupTable.ofPoint_holds 8 hp)
  have hnafs : ∀ s ∈ scalars, _ := fun s hs' =>
    nonAdjacentForm_spec (w := 5) (hs s hs') (by decide) (by decide)
  have hstep : ∀ {r : ProjectivePoint} {Q : EdwardsPoint} {i : ℕ}, i < 256 → r.Of Q →
      (strausStep (scalars.map (nonAdjacentForm · 5))
        (ps.map (NafLookupTable.ofPoint ProjectiveNielsPoint 8)) r i).Of (2 • Q +
          (List.zipWith (fun naf P => naf.getD i 0 • P)
            (scalars.map (nonAdjacentForm · 5)) Ps).sum) := by
    intro r Q i _ hr
    refine strausStep_of (fun naf hnaf => ?_) htables hr
    obtain ⟨s, hs', rfl⟩ := List.mem_map.mp hnaf
    exact (hnafs s hs').2.2.1 i
  have hloop := horner hstep ProjectivePoint.identity_of
  have hcolumns : ∀ ds ∈ scalars.map (nonAdjacentForm · 5), ∀ i, 256 ≤ i → ds.getD i 0 = 0 := by
    intro ds hds i hi
    obtain ⟨s, hs', rfl⟩ := List.mem_map.mp hds
    exact List.getD_eq_default _ _ ((hnafs s hs').1.le.trans hi)
  have hzip : List.zipWith (fun ds P => value (2 : ℕ) ds • P)
      (scalars.map (nonAdjacentForm · 5)) Ps =
        List.zipWith (fun s P => s.toNat • P) scalars Ps := by
    rw [List.zipWith_map_left]
    refine zipWith_congr_left fun s hs' P => ?_
    have hvalue := (hnafs s hs').2.1
    rw [Nat.cast_ofNat, hvalue, natCast_zsmul]
  rw [nsmul_zero, zero_add, sum_columns 2 256 _ _ hcolumns, hzip] at hloop
  refine ⟨_, ?_, hloop.asExtended⟩
  rw [strausMultiscalarMul, hmapM]
  rfl

end Straus

/-! ### Pippenger's method -/

section Pippenger

variable {scalars : List Bytes32} {ps : List ExtendedPoint} {Ps : List EdwardsPoint}

/-- The buckets hold points whose sum, each weighed by its bucket, is `S`. -/
structure Buckets (n : ℕ) (buckets : List ExtendedPoint) (S : EdwardsPoint) : Prop where
  length : buckets.length = n
  weighed : ∃ gs : ℕ → EdwardsPoint,
    (∀ b < n, (buckets.getD b ExtendedPoint.identity).Of (gs b)) ∧
      ∑ b ∈ Finset.range n, (b + 1) • gs b = S

theorem Buckets.replicate (n : ℕ) : Buckets n (List.replicate n ExtendedPoint.identity) 0 := by
  refine ⟨List.length_replicate, fun _ => 0, fun b hb => ?_, by simp⟩
  rw [List.getD_eq_getElem _ _ (by rwa [List.length_replicate]), List.getElem_replicate]
  exact ExtendedPoint.identity_of

/-- **A point is added to a bucket.** -/
theorem Buckets.set {n : ℕ} {buckets : List ExtendedPoint} {S T : EdwardsPoint}
    (h : Buckets n buckets S) {b : ℕ} (hb : b < n) {e : ExtendedPoint}
    (he : ∀ {Q}, (buckets.getD b ExtendedPoint.identity).Of Q → e.Of (Q + T)) :
    Buckets n (buckets.set b e) (S + (b + 1) • T) := by
  obtain ⟨hlen, gs, hgs, hsum⟩ := h
  refine ⟨by rw [List.length_set, hlen], fun i => gs i + if i = b then T else 0, fun i hi => ?_, ?_⟩
  · rw [List.getD_eq_getElem _ _ (by rwa [List.length_set, hlen]), List.getElem_set]
    dsimp only
    by_cases hib : b = i
    · subst hib
      rw [if_pos rfl, if_pos rfl]
      exact he (hgs b hb)
    · rw [if_neg hib, if_neg (Ne.symm hib), add_zero,
        ← List.getD_eq_getElem _ ExtendedPoint.identity]
      exact hgs i hi
  · simp only [nsmul_add, Finset.sum_add_distrib, hsum]
    rw [Finset.sum_eq_single_of_mem b (Finset.mem_range.mpr hb), if_pos rfl]
    intro i _ hi
    rw [if_neg hi, nsmul_zero]

/-- **A digit** puts its point in a bucket. -/
theorem bucketStep_of {n i : ℕ} {buckets : List ExtendedPoint} {S P : EdwardsPoint}
    {sp : List ℤ × ProjectiveNielsPoint} (h : Buckets n buckets S) (hsp : Of sp.2 P)
    (hd : |sp.1.getD i 0| ≤ n) : Buckets n (bucketStep i buckets sp) (S + sp.1.getD i 0 • P) := by
  rw [bucketStep]
  generalize sp.1.getD i 0 = d at hd
  dsimp only
  split
  · next hpos =>
    rw [abs_of_pos hpos] at hd
    have hset := h.set (b := (d - 1).toNat) (T := P) (by omega)
      fun hQ => (LawfulNiels.add_of hQ hsp).asExtended
    have hweight : (((d - 1).toNat + 1 : ℕ) : ℤ) = d := by omega
    rwa [← natCast_zsmul, hweight] at hset
  · next hnpos =>
    split
    · next hneg =>
      rw [abs_of_neg hneg] at hd
      have hset := h.set (b := (-d - 1).toNat) (T := -P) (by omega)
        fun hQ => sub_eq_add_neg _ P ▸ (LawfulNiels.sub_of hQ hsp).asExtended
      have hweight : (((-d - 1).toNat + 1 : ℕ) : ℤ) = -d := by omega
      rwa [← natCast_zsmul, hweight, zsmul_neg, neg_zsmul, neg_neg] at hset
    · next hnneg =>
      rw [show d = 0 by omega, zero_zsmul, add_zero]
      exact h

/-- **The running sums** weigh every bucket by its number. -/
theorem pippengerColumn_of {n i : ℕ} (hn : 0 < n) {dss : List (List ℤ)}
    {pts : List ProjectiveNielsPoint} (hpts : List.Forall₂ Of pts Ps)
    (hdss : ∀ ds ∈ dss, |ds.getD i 0| ≤ n) : (pippengerColumn n (dss.zip pts) i).Of
      (List.zipWith (fun ds P => ds.getD i 0 • P) dss Ps).sum := by
  have hsummands := forall₂_zip (g := fun ds P => ds.getD i 0 • P)
    (S := fun (sp : List ℤ × ProjectiveNielsPoint) T => ∃ P, Of sp.2 P ∧
      T = sp.1.getD i 0 • P ∧ |sp.1.getD i 0| ≤ (n : ℤ)) hpts
    fun ds hds pt P hpt => ⟨P, hpt, rfl, hdss ds hds⟩
  have hstep : ∀ {buckets : List ExtendedPoint} {S : EdwardsPoint}
      {sp : List ℤ × ProjectiveNielsPoint} {T : EdwardsPoint}, Buckets n buckets S →
      (∃ P, Of sp.2 P ∧ T = sp.1.getD i 0 • P ∧ |sp.1.getD i 0| ≤ (n : ℤ)) →
      Buckets n (bucketStep i buckets sp) (S + T) := by
    rintro buckets S sp T hb ⟨P, hpt, rfl, hd⟩
    exact bucketStep_of hb hpt hd
  have hbuckets := foldl_add hstep hsummands (Buckets.replicate n)
  rw [zero_add] at hbuckets
  obtain ⟨-, gs, hgs, hsum⟩ := hbuckets
  obtain ⟨m, rfl⟩ := Nat.exists_eq_succ_of_ne_zero hn.ne'
  have hlast := hgs m (Nat.lt_succ_self m)
  have hadd : ∀ {e f : ExtendedPoint} {P Q : EdwardsPoint}, e.Of P → f.Of Q →
      (e.add f).Of (P + Q) :=
    fun h h' => h.add h'
  have hrun := (running_sums hadd (fun i hi => hgs i (Nat.lt_succ_of_lt hi)) hlast hlast).2
  rw [← succ_nsmul', add_comm, ← Finset.sum_range_succ (fun i => (i + 1) • gs i), hsum] at hrun
  exact hrun

theorem pippengerWidth_mem (size : ℕ) : 6 ≤ pippengerWidth size ∧ pippengerWidth size ≤ 8 := by
  rw [pippengerWidth]
  split
  · decide
  · split <;> decide

/-- Pairs whose points are there. -/
theorem mapM_zip_some (dss : List (List ℤ)) (pts : List ProjectiveNielsPoint) :
    ((dss.zip (pts.map some)).mapM fun sp => sp.2.map fun p => (sp.1, p)) = some (dss.zip pts) := by
  rw [List.zip_map_right, List.mapM_map]
  exact (mapM_eq_some fun _ _ => rfl).trans (congrArg some (List.map_id _))

/-- **Pippenger's method** on points that are there. -/
theorem pippengerMultiscalarMul_of (hs : ∀ s ∈ scalars, s.toNat < 2 ^ 255)
    (h : List.Forall₂ ExtendedPoint.Of ps Ps) :
    ∃ e, pippengerMultiscalarMul scalars (ps.map some) = some e ∧
      e.Of (List.zipWith (fun s P => s.toNat • P) scalars Ps).sum := by
  simp only [pippengerMultiscalarMul]
  obtain ⟨hw6, hw8⟩ := pippengerWidth_mem scalars.length
  generalize pippengerWidth scalars.length = w at hw6 hw8
  have hpoints : (ps.map some).map (fun p => p.map ExtendedPoint.asProjectiveNiels) =
      (ps.map ExtendedPoint.asProjectiveNiels).map some := by
    rw [List.map_map, List.map_map]
    rfl
  have hpts : List.Forall₂ Of (ps.map ExtendedPoint.asProjectiveNiels) Ps :=
    List.forall₂_map_left_iff.mpr (h.imp fun _ _ hp => hp.asProjectiveNiels)
  have hdigits : ∀ s ∈ scalars, _ := fun s hs' =>
    asRadix2w_spec (w := w) (hs s hs') (by omega) hw8
  have hhalf : 2 ^ w / 2 = 2 ^ (w - 1) := by
    rw [← Nat.sub_add_cancel (show 1 ≤ w by omega), pow_succ, Nat.mul_div_cancel _ (by decide),
      Nat.add_sub_cancel]
  have hcolumn : ∀ i, (pippengerColumn (2 ^ w / 2) ((scalars.map fun s => asRadix2w s w).zip
      (ps.map ExtendedPoint.asProjectiveNiels)) i).Of
        (List.zipWith (fun ds P => ds.getD i 0 • P)
          (scalars.map fun s => asRadix2w s w) Ps).sum := by
    intro i
    rw [hhalf]
    refine pippengerColumn_of (Nat.two_pow_pos _) hpts fun ds hds => ?_
    obtain ⟨s, hs', rfl⟩ := List.mem_map.mp hds
    rw [Nat.cast_pow]
    exact ((hdigits s hs').2.2.1 i).1
  have hcount : 0 < toRadix2wSizeHint w := by
    interval_cases w <;> decide
  have hzero : ∀ ds ∈ scalars.map fun s => asRadix2w s w, ∀ i, toRadix2wSizeHint w ≤ i →
      ds.getD i 0 = 0 := by
    intro ds hds
    obtain ⟨s, hs', rfl⟩ := List.mem_map.mp hds
    exact (hdigits s hs').2.2.2
  have hzip : List.zipWith (fun ds P => value (2 ^ w : ℕ) ds • P)
      (scalars.map fun s => asRadix2w s w) Ps =
        List.zipWith (fun s P => s.toNat • P) scalars Ps := by
    rw [List.zipWith_map_left]
    refine zipWith_congr_left fun s hs' P => ?_
    have hvalue := (hdigits s hs').2.1
    rw [Nat.cast_pow, Nat.cast_ofNat, hvalue, natCast_zsmul]
  have hsum := sum_columns (2 ^ w) (toRadix2wSizeHint w) _ Ps hzero
  rw [hpoints, mapM_zip_some]
  obtain ⟨m, hm⟩ := Nat.exists_eq_succ_of_ne_zero hcount.ne'
  rw [hm] at hsum ⊢
  have hloop := horner (R := ExtendedPoint.Of) (c := 2 ^ w) (n := m)
    (fun {a g j} _ ha => (ExtendedPoint.Of.mulByPow2 ha (k := w) (by omega)).add (hcolumn j))
    (hcolumn m)
  rw [Finset.sum_range_succ, add_comm, hzip] at hsum
  rw [hsum] at hloop
  exact ⟨_, rfl, hloop⟩

end Pippenger

/-! ### A missing point -/

theorem strausMultiscalarMul_none {scalars : List Bytes32} {points : List (Option ExtendedPoint)}
    (h : none ∈ points) : strausMultiscalarMul scalars points = none := by
  rw [strausMultiscalarMul, mapM_eq_none h rfl]
  rfl

theorem pippengerMultiscalarMul_none {scalars : List Bytes32}
    {points : List (Option ExtendedPoint)} (hlen : scalars.length = points.length)
    (h : none ∈ points) : pippengerMultiscalarMul scalars points = none := by
  obtain ⟨i, hi, hpoint⟩ := List.getElem_of_mem h
  simp only [pippengerMultiscalarMul]
  have hmem : (asRadix2w scalars[i] (pippengerWidth scalars.length), none) ∈
      (scalars.map fun s => asRadix2w s (pippengerWidth scalars.length)).zip
        (points.map fun p => p.map ExtendedPoint.asProjectiveNiels) := by
    refine List.mem_iff_getElem.mpr ⟨i, ?_, ?_⟩
    · rwa [List.length_zip, List.length_map, List.length_map, hlen, min_self]
    · rw [List.getElem_zip, List.getElem_map, List.getElem_map, hpoint]
      rfl
  rw [mapM_eq_none hmem rfl]
  rfl

/-! ### The sum that both compute -/

/-- Two calls panic alike or return values that are related. -/
inductive RunRel {α β : Type} (R : α → β → Prop) : Run α → Run β → Prop
  | ok {a : α} {b : β} : R a b → RunRel R (.ok a) (.ok b)
  | error {e : Panic} : RunRel R (.error e) (.error e)

/-- What `optional_multiscalar_mul` is for. -/
def optionalSum (scalars : List Bytes32) (points : List (Option EdwardsPoint)) :
    Run (Option EdwardsPoint) :=
  if scalars.length = points.length then
    .ok ((points.mapM id).map fun Ps => (List.zipWith (fun s P => s.toNat • P) scalars Ps).sum)
  else .error .lengthMismatch

/-- `vartime_multiscalar_mul`, on coordinates. -/
def ExtendedPoint.vartimeMultiscalarMul (scalars : List Scalar) (points : List ExtendedPoint) :
    Run ExtendedPoint := do
  unwrap (← optionalMultiscalarMul (scalars.map Scalar.asBytes) (points.map some))

section Refinement

variable {α β : Type} {R : α → β → Prop}

/-- Either a point is missing, on both sides, or all are there. -/
theorem forall₂_option {xs : List (Option α)} {ys : List (Option β)}
    (h : List.Forall₂ (Option.Rel R) xs ys) : none ∈ xs ∧ none ∈ ys ∨
      ∃ as bs, xs = as.map some ∧ ys = bs.map some ∧ List.Forall₂ R as bs := by
  induction h with
  | nil => exact .inr ⟨[], [], rfl, rfl, .nil⟩
  | cons hxy _ ih =>
    cases hxy with
    | none => exact .inl ⟨List.mem_cons_self .., List.mem_cons_self ..⟩
    | some hab =>
      rcases ih with ⟨hx, hy⟩ | ⟨as, bs, rfl, rfl, has⟩
      · exact .inl ⟨List.mem_cons_of_mem _ hx, List.mem_cons_of_mem _ hy⟩
      · exact .inr ⟨_ :: as, _ :: bs, rfl, rfl, .cons hab has⟩

/-- **Both methods** compute the sum of the multiples, for any number of points, whether or not the
scalars are reduced. -/
theorem optionalMultiscalarMul_refines {scalars : List Bytes32}
    {points : List (Option ExtendedPoint)} {Points : List (Option EdwardsPoint)}
    (hs : ∀ s ∈ scalars, s.toNat < 2 ^ 255)
    (h : List.Forall₂ (Option.Rel ExtendedPoint.Of) points Points) :
    RunRel (Option.Rel ExtendedPoint.Of) (optionalMultiscalarMul scalars points)
      (optionalSum scalars Points) := by
  rw [optionalMultiscalarMul, optionalSum, ← h.length_eq]
  by_cases hlen : scalars.length = points.length
  · rw [if_pos hlen, if_pos hlen]
    refine .ok ?_
    rcases forall₂_option h with ⟨hp, hP⟩ | ⟨ps, Ps, rfl, rfl, hps⟩
    · -- a missing point
      rw [mapM_eq_none hP rfl, strausMultiscalarMul_none hp, pippengerMultiscalarMul_none hlen hp,
        ite_self]
      exact .none
    · -- all points are there
      rw [mapM_id_some, Option.map_some]
      split
      · obtain ⟨e, he, heP⟩ := strausMultiscalarMul_of hs hps
        exact he ▸ .some heP
      · obtain ⟨e, he, heP⟩ := pippengerMultiscalarMul_of hs hps
        exact he ▸ .some heP
  · rw [if_neg hlen, if_neg hlen]
    exact .error

/-- **`vartime_multiscalar_mul`** on coordinates, for scalars that are reduced. -/
theorem vartimeMultiscalarMul_refines (scalars : List Scalar) {points : List ExtendedPoint}
    {Points : List EdwardsPoint} (h : List.Forall₂ ExtendedPoint.Of points Points) :
    RunRel ExtendedPoint.Of (ExtendedPoint.vartimeMultiscalarMul scalars points)
      (MaliciousPsu.vartimeMultiscalarMul scalars Points) := by
  have hs : ∀ s ∈ scalars.map Scalar.asBytes, s.toNat < 2 ^ 255 := by
    intro s hs
    obtain ⟨t, -, rfl⟩ := List.mem_map.mp hs
    rw [Scalar.toNat_asBytes]
    exact t.val_lt.trans (by decide)
  have hsome : List.Forall₂ (Option.Rel ExtendedPoint.Of) (points.map some) (Points.map some) :=
    List.forall₂_map_left_iff.mpr (List.forall₂_map_right_iff.mpr (h.imp fun _ _ => .some))
  have hr := optionalMultiscalarMul_refines hs hsome
  rw [optionalSum, List.length_map, List.length_map, mapM_id_some, Option.map_some,
    List.zipWith_map_left] at hr
  simp only [Scalar.toNat_asBytes] at hr
  rw [ExtendedPoint.vartimeMultiscalarMul, MaliciousPsu.vartimeMultiscalarMul]
  generalize optionalMultiscalarMul (scalars.map Scalar.asBytes) (points.map some) = r at hr
  split at hr
  · next hlen =>
    rw [if_pos hlen]
    cases hr with
    | ok hsum =>
      cases hsum with
      | some hsum => exact .ok hsum
  · next hlen =>
    rw [if_neg hlen]
    cases hr with
    | error => exact .error

/-- Five times the basepoint and seven times its double. -/
theorem vartimeMultiscalarMul_refines_two :
    RunRel ExtendedPoint.Of
      (ExtendedPoint.vartimeMultiscalarMul [5, 7]
        [ExtendedPoint.basepoint, ExtendedPoint.basepoint.double])
      (MaliciousPsu.vartimeMultiscalarMul [5, 7]
        [EdwardsPoint.basepoint, EdwardsPoint.basepoint + EdwardsPoint.basepoint]) :=
  vartimeMultiscalarMul_refines [5, 7]
    (.cons ExtendedPoint.basepoint_of (.cons ExtendedPoint.basepoint_of.double .nil))

end Refinement

end MaliciousPsu.CurveModels
