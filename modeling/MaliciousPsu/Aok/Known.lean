import MaliciousPsu.Aok.Commit
import Mathlib.Data.List.GetD
import Mathlib.Algebra.BigOperators.Group.Finset.Basic

/-!
# Shuffles of known content

The inner argument of `aok.rs`: a commitment opens to a permutation of scalars that both parties
know.  Prover and verifier take their challenges from a `KnownChallenger`; `KnownChallenger.hash`
is the one the source runs, and any other functions may stand in its place.

* `recomputeF`: the recursion `F_i` on the responses, `F_i = (F_{i-1}·(f_i - e·x) + f_Δ_{i-1})/e`.
* `foldF_honest`: on honest responses it is `e·a_i + Δ_i`, `a_i` the product of the first factors.
* `proveShuffleKnownWith_eq`: what the prover sends, entry by entry.
-/

namespace MaliciousPsu

/-- `KnownContentProof`. -/
structure KnownContentProof where
  _cD : Bytes32
  _cDelta : Bytes32
  _cA : Bytes32
  f : List Scalar
  fDelta : List Scalar
  z : Scalar
  zDelta : Scalar
  deriving DecidableEq

/-- `KnownContentHint`. -/
structure KnownContentHint (G : Type) where
  d : List Scalar
  delta : List Scalar
  rD : Scalar
  rDelta : Scalar
  rA : Scalar
  cD : G
  cDelta : G

/-- The scalars `prove_shuffle_known_preprocess` draws. -/
@[ext]
structure KnownContentCoins (n : ℕ) where
  d : Fin n → Scalar
  delta : Fin (n - 2) → Scalar
  rD : Scalar
  rDelta : Scalar
  rA : Scalar

/-- Where the two challenges of the inner argument come from: `x` from the commitment and the
scalars, `e` from these and the three commitments of the proof. -/
structure KnownChallenger where
  x : Bytes32 → List Scalar → Scalar
  e : Bytes32 → List Scalar → Bytes32 → Bytes32 → Bytes32 → Scalar

/-- `hx`, the hash of the commitment and the scalars. -/
def Oracles.hashX (O : Oracles) (_c : Bytes32) (m : List Scalar) : Bytes32 :=
  O.blake2s (Bytes32.bytes _c ++ absorb (m.map Scalar.asBytes))

/-- The challenges hashed from the transcript. -/
def KnownChallenger.hash (O : Oracles) : KnownChallenger where
  x _c m := Scalar.fromBytesModOrder (O.hashX _c m)
  e _c m _cD _cDelta _cA := Scalar.fromBytesModOrder <| O.blake2s <|
    absorb [_cD, _cDelta, _cA, O.hashX _c m]

/-- Challenges fixed in advance. -/
def KnownChallenger.fixed (x e : Scalar) : KnownChallenger where
  x _ _ := x
  e _ _ _ _ _ := e

/-- `vec![Scalar::ZERO; n]` with the entries `0..n-1` assigned in a loop. -/
def fillInit (n : ℕ) (entry : ℕ → Run Scalar) : Run (List Scalar) :=
  if n = 0 then .error .underflow
  else do
    let v ← (List.range (n - 1)).mapM entry
    return v ++ [0]

/-- `delta`: `d[0]`, the values drawn, and `0` at the end. -/
def KnownContentCoins.blind {n : ℕ} (coins : KnownContentCoins n) (i : Fin n) : Scalar :=
  if _ : (i : ℕ) + 1 = n then 0
  else if _ : (i : ℕ) = 0 then coins.d i
  else coins.delta ⟨i - 1, by omega⟩

section Protocol

variable {G : Type} [AddCommGroup G] [BasePoint G]

/-- `prove_shuffle_known_preprocess`. -/
def proveShuffleKnownPreprocess (pp : PublicParams G) (n : ℕ) (coins : KnownContentCoins n) :
    Run (KnownContentHint G) := do
  if n = 0 then throw .outOfBounds
  let d := List.ofFn coins.d
  let delta := List.ofFn coins.blind
  let cD ← commit pp d coins.rD
  let d2 ← fillInit n fun i => do return -(← idx delta i) * (← idx d (i + 1))
  let cDelta ← commit pp d2 coins.rDelta
  return { d, delta, rD := coins.rD, rDelta := coins.rDelta, rA := coins.rA, cD, cDelta }

/-- The products `a_i = Π_{j≤i} (m[pi[j]] - x)`, pushed one by one. -/
def accumulate (m : List Scalar) (x : Scalar) : Scalar → List ℕ → Run (List Scalar)
  | _, [] => return []
  | acc, j :: pi => do
      let acc := acc * ((← idx m j) - x)
      return acc :: (← accumulate m x acc pi)

/-- `hint.delta[i + 1] - (m[pi[i + 1]] - x) * hint.delta[i] - a[i] * hint.d[i + 1]`. -/
def crossTerm (hint : KnownContentHint G) (m : List Scalar) (pi : List ℕ) (x : Scalar)
    (a : List Scalar) (i : ℕ) : Run Scalar := do
  return (← idx hint.delta (i + 1)) - ((← idx m (← idx pi (i + 1))) - x) * (← idx hint.delta i)
    - (← idx a i) * (← idx hint.d (i + 1))

variable [PointEncoding G]

/-- `prove_shuffle_known`, its challenges taken from `ch`. -/
def proveShuffleKnownWith (ch : KnownChallenger) (pp : PublicParams G) (hint : KnownContentHint G)
    (m : List Scalar) (c : G) (pi : List ℕ) (r : Scalar) : Run KnownContentProof := do
  let n := m.length
  let x := ch.x (compress c) m
  let a ← accumulate m x 1 pi
  let a2 ← fillInit n (crossTerm hint m pi x a)
  let cA ← commit pp a2 hint.rA
  let _cD := compress hint.cD
  let _cDelta := compress hint.cDelta
  let _cA := compress cA
  let e := ch.e (compress c) m _cD _cDelta _cA
  let f ← pi.zipIdx.mapM fun (j, i) => do return e * (← idx m j) + (← idx hint.d i)
  let z := e * r + hint.rD
  let fDelta ← fillInit n fun i => do
    return e * (← crossTerm hint m pi x a i) - (← idx hint.delta i) * (← idx hint.d (i + 1))
  let zDelta := e * hint.rA + hint.rDelta
  return { _cD, _cDelta, _cA, f, fDelta, z, zDelta }

/-- `prove_shuffle_known`. -/
def proveShuffleKnown (O : Oracles) : PublicParams G → KnownContentHint G → List Scalar → G →
    List ℕ → Scalar → Run KnownContentProof :=
  proveShuffleKnownWith (KnownChallenger.hash O)

end Protocol

/-- The recursion `F_i` on the responses. -/
def recomputeF (e x : Scalar) (f fDelta : List Scalar) : ℕ → Run Scalar
  | 0 => do return (← idx f 0) - e * x
  | i + 1 => do
      let _f ← recomputeF e x f fDelta i
      let exp := (← idx f (i + 1)) - e * x
      let tmp := _f * exp + (← idx fDelta i)
      return tmp * e⁻¹

/-- `Π (m_i - x)`. -/
def knownProduct (m : List Scalar) (x : Scalar) : Scalar := (m.map fun mi => mi - x).prod

/-- `verify_shuffle_known`, its challenges taken from `ch`, on the batching scalar it drew. -/
def verifyShuffleKnownWith {G : Type} [AddCommGroup G] [BasePoint G] [PointEncoding G]
    [DecidableEq G] (ch : KnownChallenger) (pp : PublicParams G) (m : List Scalar) (c : G)
    (proof : KnownContentProof) (alpha : Scalar) : Run Bool := do
  let n := m.length
  let x := ch.x (compress c) m
  let e := ch.e (compress c) m proof._cD proof._cDelta proof._cA
  let cD : G ← unwrap (decompress proof._cD)
  let cDelta ← unwrap (decompress proof._cDelta)
  let cA ← unwrap (decompress proof._cA)
  let lhs := mulScalar (mulScalar c e + cD) alpha + mulScalar cA e + cDelta
  let zSum := proof.z * alpha + proof.zDelta
  let fSum := List.zipWith (fun fi fDeltai => alpha * fi + fDeltai) proof.f proof.fDelta
  let rhs ← commit pp fSum zSum
  if lhs ≠ rhs then return false
  let _f ← recomputeF e x proof.f proof.fDelta (n - 1)
  if _f ≠ e * knownProduct m x then return false
  return true

/-- `verify_shuffle_known`. -/
def verifyShuffleKnown {G : Type} [AddCommGroup G] [BasePoint G] [PointEncoding G]
    [DecidableEq G] (O : Oracles) : PublicParams G → List Scalar → G → KnownContentProof →
    Scalar → Run Bool :=
  verifyShuffleKnownWith (KnownChallenger.hash O)

/-! ### The recursion -/

/-- The recursion `F_i` on sequences. -/
def foldF (e x : Scalar) (f fDelta : ℕ → Scalar) : ℕ → Scalar
  | 0 => f 0 - e * x
  | i + 1 => (foldF e x f fDelta i * (f (i + 1) - e * x) + fDelta i) * e⁻¹

theorem recomputeF_eq_ok {e x : Scalar} {f fDelta : List Scalar} : ∀ {i : ℕ} {F : Scalar},
    recomputeF e x f fDelta i = .ok F ↔ i < f.length ∧ i ≤ fDelta.length ∧
      foldF e x (f.getD · 0) (fDelta.getD · 0) i = F
  | 0, F => by
      simp only [recomputeF, bind_eq_ok, pure_eq_ok, Except.ok.injEq, foldF, Nat.zero_le, true_and]
      constructor
      · rintro ⟨a, ha, rfl⟩
        exact ⟨lt_of_idx ha, by rw [List.getD_eq_getElem?_getD, idx_eq_ok.mp ha]; rfl⟩
      · rintro ⟨h, rfl⟩
        exact ⟨_, idx_of_lt h, by rw [List.getD_eq_getElem _ _ h]⟩
  | i + 1, F => by
      simp only [recomputeF, bind_eq_ok, pure_eq_ok, Except.ok.injEq, foldF]
      constructor
      · rintro ⟨F', hF', a, ha, b, hb, rfl⟩
        obtain ⟨-, -, rfl⟩ := recomputeF_eq_ok.mp hF'
        refine ⟨lt_of_idx ha, lt_of_idx hb, ?_⟩
        simp only [List.getD_eq_getElem?_getD, idx_eq_ok.mp ha, idx_eq_ok.mp hb, Option.getD_some]
      · rintro ⟨hf, hd, rfl⟩
        refine ⟨_, recomputeF_eq_ok.mpr ⟨by omega, by omega, rfl⟩, _, idx_of_lt hf, _,
          idx_of_lt hd, ?_⟩
        rw [List.getD_eq_getElem _ _ hf, List.getD_eq_getElem _ _ hd]

/-- **The recursion on honest responses.**  When `Δ_0 = d_0` and `e` is not `0`, every `F_i` is
`e·a_i + Δ_i`. -/
theorem foldF_honest {e x : Scalar} {m d delta a : ℕ → Scalar} (he : e ≠ 0)
    (h₀ : delta 0 = d 0) (ha₀ : a 0 = m 0 - x) (ha : ∀ i, a (i + 1) = a i * (m (i + 1) - x)) :
    ∀ i, foldF e x (fun i => e * m i + d i)
      (fun i => e * (delta (i + 1) - (m (i + 1) - x) * delta i - a i * d (i + 1))
        - delta i * d (i + 1)) i = e * a i + delta i
  | 0 => by rw [foldF, h₀, ha₀]; ring
  | i + 1 => by
      rw [foldF, foldF_honest he h₀ ha₀ ha i, ha]
      field_simp
      ring

theorem foldF_congr {e x : Scalar} {f f' fDelta fDelta' : ℕ → Scalar} : ∀ {i : ℕ},
    (∀ j ≤ i, f j = f' j) → (∀ j < i, fDelta j = fDelta' j) →
      foldF e x f fDelta i = foldF e x f' fDelta' i
  | 0, hf, _ => by rw [foldF, foldF, hf 0 le_rfl]
  | i + 1, hf, hd => by
      have ih : foldF e x f fDelta i = foldF e x f' fDelta' i :=
        foldF_congr (fun j hj => hf j (by omega)) fun j hj => hd j (by omega)
      rw [foldF, foldF, ih, hf (i + 1) le_rfl, hd i (by omega)]

/-- With `invert(0) = 0`, every `F_i` after the first is `0` when `e` is. -/
theorem foldF_zero (x : Scalar) (f fDelta : ℕ → Scalar) (i : ℕ) :
    foldF 0 x f fDelta (i + 1) = 0 := by
  simp [foldF]

/-! ### The honest prover -/

/-- A permutation as the vector of indices that the source holds. -/
def permList {n : ℕ} (π : Equiv.Perm (Fin n)) : List ℕ := List.ofFn fun i => (π i : ℕ)

/-- A vector as a sequence, `0` past its end. -/
def seq {n : ℕ} (v : Fin n → Scalar) (i : ℕ) : Scalar := (List.ofFn v).getD i 0

@[simp] theorem seq_coe {n : ℕ} (v : Fin n → Scalar) (i : Fin n) : seq v i = v i := by
  simp [seq]

theorem seq_of_lt {n : ℕ} (v : Fin n → Scalar) {i : ℕ} (h : i < n) : seq v i = v ⟨i, h⟩ :=
  seq_coe v ⟨i, h⟩

/-- The entries of a sequence below `n - 1`, then `0`. -/
def padLast {n : ℕ} (c : ℕ → Scalar) (i : Fin n) : Scalar := if (i : ℕ) + 1 = n then 0 else c i

theorem idx_seq {n : ℕ} (v : Fin n → Scalar) {i : ℕ} (h : i < n) :
    idx (List.ofFn v) i = .ok (seq v i) := by
  rw [seq_of_lt v h]
  exact idx_ofFn v ⟨i, h⟩

theorem fillInit_eq {n : ℕ} {entry : ℕ → Run Scalar} {c : ℕ → Scalar} (hn : n ≠ 0)
    (h : ∀ i, i + 1 < n → entry i = .ok (c i)) :
    fillInit n entry = .ok (List.ofFn (padLast c : Fin n → Scalar)) := by
  obtain ⟨k, rfl⟩ := Nat.exists_eq_succ_of_ne_zero hn
  have hk : (List.range k).mapM entry = .ok (List.ofFn fun i : Fin k => c i) :=
    mapM_range fun i => h i (by omega)
  simp only [fillInit, Nat.succ_eq_add_one, Nat.add_eq_zero_iff, one_ne_zero, and_false, if_false,
    Nat.add_sub_cancel, hk, ok_bind, pure_eq_ok, List.ofFn_succ_last]
  have hc : ∀ i : Fin k, padLast c i.castSucc = c i := fun i => by
    have := i.isLt
    simp only [padLast, Fin.val_castSucc]
    rw [if_neg (by omega)]
  simp only [hc]
  simp [padLast]

/-- The products `a_i`. -/
def partialProduct (M : ℕ → Scalar) (x : Scalar) (i : ℕ) : Scalar :=
  ∏ j ∈ Finset.range (i + 1), (M j - x)

theorem accumulate_eq {m : List Scalar} {x : Scalar} {M : ℕ → Scalar} : ∀ {pi : List ℕ} {k : ℕ},
    (∀ i (h : i < pi.length), idx m pi[i] = .ok (M (k + i))) →
    accumulate m x (∏ j ∈ Finset.range k, (M j - x)) pi =
      .ok (List.ofFn fun i : Fin pi.length => partialProduct M x (k + i))
  | [], _, _ => rfl
  | j :: pi, k, h => by
      have h₀ := h 0 (by simp)
      have hpi : ∀ i (hi : i < pi.length), idx m pi[i] = .ok (M (k + 1 + i)) := fun i hi => by
        rw [add_right_comm]
        exact h (i + 1) (by simpa using hi)
      have ih := accumulate_eq (x := x) hpi
      simp only [List.getElem_cons_zero, add_zero] at h₀
      simp only [accumulate, h₀, ok_bind, ← Finset.prod_range_succ, ih, pure_eq_ok,
        List.length_cons, List.ofFn_succ, Fin.val_zero, add_zero, Fin.val_succ]
      simp only [partialProduct, add_comm, add_left_comm]

theorem accumulate_permList {n : ℕ} (m : Fin n → Scalar) (x : Scalar) (π : Equiv.Perm (Fin n)) :
    accumulate (List.ofFn m) x 1 (permList π) =
      .ok (List.ofFn fun i : Fin n => partialProduct (seq (m ∘ π)) x i) := by
  have hidx : ∀ i (h : i < (permList π).length),
      idx (List.ofFn m) (permList π)[i] = .ok (seq (m ∘ π) (0 + i)) := fun i hi => by
    have hn : i < n := by simpa [permList] using hi
    rw [zero_add, seq_of_lt _ hn]
    simp [permList]
  have h := accumulate_eq (x := x) hidx
  simp only [Finset.range_zero, Finset.prod_empty, zero_add] at h
  rw [h]
  refine congrArg _ (List.ext_getElem (by simp [permList]) fun i h₁ h₂ => by simp)

/-- The cross term of row `i`, on sequences. -/
def crossSeq (x : Scalar) (M d delta : ℕ → Scalar) (i : ℕ) : Scalar :=
  delta (i + 1) - (M (i + 1) - x) * delta i - partialProduct M x i * d (i + 1)

theorem crossTerm_eq {G : Type} {n : ℕ} {hint : KnownContentHint G} {d delta : Fin n → Scalar}
    (hd : hint.d = List.ofFn d) (hdelta : hint.delta = List.ofFn delta) (m : Fin n → Scalar)
    (π : Equiv.Perm (Fin n)) (x : Scalar) {i : ℕ} (hi : i + 1 < n) :
    crossTerm hint (List.ofFn m) (permList π) x
        (List.ofFn fun i : Fin n => partialProduct (seq (m ∘ π)) x i) i =
      .ok (crossSeq x (seq (m ∘ π)) (seq d) (seq delta) i) := by
  have ha := idx_ofFn (fun i : Fin n => partialProduct (seq (m ∘ π)) x i) ⟨i, by omega⟩
  have hπ := idx_ofFn (fun i => (π i : ℕ)) ⟨i + 1, hi⟩
  simp only at ha hπ
  simp only [crossTerm, hd, hdelta, idx_seq delta hi, idx_seq d hi,
    idx_seq delta (by omega : i < n), ha, permList, hπ, ok_bind, idx_ofFn, pure_eq_ok, crossSeq,
    seq_of_lt (m ∘ π) hi, Function.comp_apply]

section Honest

variable {G : Type} [AddCommGroup G] [BasePoint G] {V : Type} [AddCommGroup V] [Module Scalar V]
  {φ : V →+ G} {B : V} {n : ℕ} {pp : PublicParams G} {f : Fin n → V}

/-- The hint on the coins `coins`. -/
theorem proveShuffleKnownPreprocess_eq (hf : pp.f = List.ofFn fun i => φ (f i))
    (hB : φ B = basepoint) (hn : n ≠ 0) (coins : KnownContentCoins n) :
    proveShuffleKnownPreprocess pp n coins = .ok
      { d := List.ofFn coins.d
        delta := List.ofFn coins.blind
        rD := coins.rD
        rDelta := coins.rDelta
        rA := coins.rA
        cD := φ (pedersen f B coins.d coins.rD)
        cDelta := φ (pedersen f B
          (padLast fun i => -seq coins.blind i * seq coins.d (i + 1)) coins.rDelta) } := by
  have hd2 : fillInit n (fun i => do
      return -(← idx (List.ofFn coins.blind) i) * (← idx (List.ofFn coins.d) (i + 1))) =
      .ok (List.ofFn (padLast fun i => -seq coins.blind i * seq coins.d (i + 1))) :=
    fillInit_eq hn fun i hi => by
      simp only [idx_seq coins.blind (by omega : i < n), idx_seq coins.d hi, ok_bind, pure_eq_ok]
  simp only [pure_eq_ok] at hd2
  simp only [proveShuffleKnownPreprocess, if_neg hn, hd2, commit_map φ hf hB, ok_bind, pure_eq_ok]

variable [PointEncoding G]

/-- The proof that the honest prover sends, entry by entry. -/
theorem proveShuffleKnownWith_eq (hf : pp.f = List.ofFn fun i => φ (f i)) (hB : φ B = basepoint)
    (hn : n ≠ 0) (ch : KnownChallenger) {hint : KnownContentHint G} {d delta : Fin n → Scalar}
    (hd : hint.d = List.ofFn d) (hdelta : hint.delta = List.ofFn delta) (m : Fin n → Scalar)
    (c : G) (π : Equiv.Perm (Fin n)) (r : Scalar) :
    let x := ch.x (compress c) (List.ofFn m)
    let cross := crossSeq x (seq (m ∘ π)) (seq d) (seq delta)
    let _cA := compress (φ (pedersen f B (padLast cross) hint.rA))
    let e := ch.e (compress c) (List.ofFn m) (compress hint.cD) (compress hint.cDelta) _cA
    proveShuffleKnownWith ch pp hint (List.ofFn m) c (permList π) r = .ok
      { _cD := compress hint.cD
        _cDelta := compress hint.cDelta
        _cA
        f := List.ofFn fun i => e * m (π i) + d i
        fDelta := List.ofFn (n := n) (padLast fun i => e * cross i - seq delta i * seq d (i + 1))
        z := e * r + hint.rD
        zDelta := e * hint.rA + hint.rDelta } := by
  intro x cross _cA e
  have ha2 : fillInit n (crossTerm hint (List.ofFn m) (permList π) x
      (List.ofFn fun i : Fin n => partialProduct (seq (m ∘ π)) x i)) =
      .ok (List.ofFn (padLast cross)) :=
    fillInit_eq hn fun i hi => crossTerm_eq hd hdelta m π x hi
  have hfs : (permList π).zipIdx.mapM (fun (j, i) => do
      return e * (← idx (List.ofFn m) j) + (← idx hint.d i)) =
      .ok (List.ofFn fun i => e * m (π i) + d i) := by
    have hz : (permList π).zipIdx = List.ofFn fun i : Fin n => ((π i : ℕ), (i : ℕ)) :=
      List.ext_getElem (by simp [permList]) fun i h₁ h₂ => by simp [permList]
    rw [hz]
    exact mapM_ofFn fun i => by simp [hd]
  have hfd : fillInit n (fun i => do
      return e * (← crossTerm hint (List.ofFn m) (permList π) x
        (List.ofFn fun i : Fin n => partialProduct (seq (m ∘ π)) x i) i)
        - (← idx hint.delta i) * (← idx hint.d (i + 1))) =
      .ok (List.ofFn (padLast fun i => e * cross i - seq delta i * seq d (i + 1))) :=
    fillInit_eq hn fun i hi => by
      simp only [crossTerm_eq hd hdelta m π x hi, hd, hdelta, idx_seq delta (by omega : i < n),
        idx_seq d hi, ok_bind, pure_eq_ok, cross]
  simp only [proveShuffleKnownWith, List.length_ofFn, accumulate_permList, ok_bind]
  rw [ha2]
  simp only [ok_bind, commit_map φ hf hB]
  rw [hfs, hfd]
  rfl

end Honest

end MaliciousPsu
