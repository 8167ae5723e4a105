import MaliciousPsu.Channel
import MaliciousPsu.OneSided.Indicator

/-!
# The sender's proof

`sender_malicious_psu1`.  With each item the sender transfers a proof that it knows the key between
the item's hash and the point it sent; the receiver recomputes the hash of the proof and, the
assertion being commented out, drops it.

* `recomputeHash_proveItem`: the receiver recomputes the hash that an honest sender cut `c` from.
* `proved_of_honest`: so what an honest sender transfers proves every item.
* `receiverSide_eq_ok`: what the receiver's run needs to complete, which is no proof.
* `receiverSide_enforces_iff`: so a completed run has proved its items only when the sender's
  messages did.
* `fieldToMont_never_fails`: no hash to the curve makes a party panic.
-/

namespace MaliciousPsu

/-! ### The two sides -/

/-- `clear_high_bits`. -/
def clearHighBits (arr : Bytes32) : Bytes32 := joinHalves ((splitHalves arr).1, 0)

/-- `set_high_bits`. -/
def setHighBits (arr : Block) : Bytes32 := joinHalves (arr, 0)

/-- `combine_array`. -/
def combineArray (low high : Block) : Bytes32 := joinHalves (low, high)

/-- The blocks `c`, `z0` and `z1` of one item. -/
structure ItemProof where
  c : Block
  z0 : Block
  z1 : Block

/-- One turn of the sender's loop, on the random bytes it drew. -/
def proveItem (O : Oracles) (sender : Sender) (_original _point : CompressedEdwardsY)
    (original : EdwardsPoint) (raw : Bytes32) : ItemProof :=
  let r8 := clampInteger raw
  let r := Scalar.fromBytesModOrder r8 * ((8 : ℕ) : Scalar)⁻¹
  let hc := O.blake2s (absorb [_original, _point, EdwardsPoint.compress (mulClamped original r8)])
  let hc := clearHighBits hc
  let z := r - Scalar.fromBytesModOrder hc * sender.sk
  ⟨(splitHalves hc).1, (splitHalves z.asBytes).1, (splitHalves z.asBytes).2⟩

/-- The pairs of blocks that the sender puts into the four transfers. -/
structure OtInputs where
  items : List (Block × Block)
  c : List (Block × Block)
  z0 : List (Block × Block)
  z1 : List (Block × Block)

/-- The transfers of an honest sender, on the random bytes of each turn. -/
def senderOt (O : Oracles) (sender : Sender) (_points : List CompressedEdwardsY)
    (original : List EdwardsPoint) (_original : List CompressedEdwardsY)
    (ms : List (Block × Block)) (raws : ℕ → Bytes32) : Run OtInputs := do
  let proofs ← (List.range sender.n).mapM fun i => do
    return proveItem O sender (← idx _original i) (← idx _points i) (← idx original i) (raws i)
  return { items := ms
           c := proofs.map fun proof => (proof.c, 0)
           z0 := proofs.map fun proof => (proof.z0, 0)
           z1 := proofs.map fun proof => (proof.z1, 0) }

/-- `_hc`: the hash that the receiver recomputes from an item, the sender's point and its proof. -/
def recomputeHash (O : Oracles) (item : Block) (hi : CompressedEdwardsY) (h : EdwardsPoint)
    (c z0 z1 : Block) : Run Bytes32 := do
  let g ← itemToEdwards O item
  let cs := Scalar.fromBytesModOrder (setHighBits c)
  let zs := Scalar.fromBytesModOrder (combineArray z0 z1)
  let gr ← vartimeMultiscalarMul [zs, cs] [mulByCofactor g, h]
  return O.blake2s (absorb [EdwardsPoint.compress g, hi, EdwardsPoint.compress gr])

/-- What the receiver holds when its loop starts. -/
structure Received where
  _senderPoints : List CompressedEdwardsY
  senderPoints : List EdwardsPoint
  indicator : List Bool
  results : List Block
  c : List Block
  z0 : List Block
  z1 : List Block

/-- One turn of the receiver's loop, for an item that it did not find. -/
def Received.hashAt (O : Oracles) (r : Received) (i : ℕ) : Run Bytes32 := do
  let h ← idx r.senderPoints i
  let hi ← idx r._senderPoints i
  recomputeHash O (← idx r.results i) hi h (← idx r.c i) (← idx r.z0 i) (← idx r.z1 i)

/-- The messages and the transfers, up to the loop. -/
def receive (receiver : Receiver) (_senderPoints sdM2 : List CompressedEdwardsY) (ot : OtInputs) :
    Run Received := do
  let (_blinded, senderPoints) ← PartyReceiver1M.blind receiver _senderPoints
  let indicator := PartyReceiver1M.compare _blinded sdM2
  return { _senderPoints, senderPoints, indicator
           results := otReceive ot.items indicator
           c := otReceive ot.c indicator
           z0 := otReceive ot.z0 indicator
           z1 := otReceive ot.z1 indicator }

/-- The loop over `0..n`, which drops the hashes: the assertion on them is commented out. -/
def recomputeLoop (O : Oracles) (n : ℕ) (r : Received) : Run Received := do
  let _ ← (List.range n).mapM fun i => do
    if ← idx r.indicator i then return none else return some (← r.hashAt O i)
  return r

/-- The receiver's side of `sender_malicious_psu1`: the two messages that it reads and the
transfers are the sender's, whoever it is. -/
def receiverSide (O : Oracles) (receiver : Receiver) (n : ℕ) (m1 m2 : Message) (ot : OtInputs) :
    Run (Option Received) := do
  match m1, m2 with
  | .hashDH2 _senderPoints, .hashDH2 sdM2 =>
      let r ← receive receiver _senderPoints sdM2 ot
      return some (← recomputeLoop O n r)
  | .hashDH2 _senderPoints, _ =>
      let _ ← PartyReceiver1M.blind receiver _senderPoints
      return none
  | _, _ => return none

/-- The hash of item `i` begins with the block `c` that came with it. -/
def Received.ProvedAt (O : Oracles) (r : Received) (i : ℕ) : Prop :=
  ∃ hc c, r.hashAt O i = .ok hc ∧ r.c[i]? = some c ∧ (splitHalves hc).1 = c

/-- Every item that the receiver did not find is proved. -/
def Received.Proved (O : Oracles) (r : Received) : Prop :=
  ∀ i, r.indicator[i]? = some false → r.ProvedAt O i

/-! ### Honest proofs -/

section Honest

variable (O : Oracles)

theorem mulScalar_add {G : Type*} [AddCommGroup G] {P : G} (h : P ∈ primeSubgroup G)
    (s t : Scalar) : mulScalar P (s + t) = mulScalar P s + mulScalar P t := by
  rw [mulScalar_coe ⟨P, h⟩, mulScalar_coe ⟨P, h⟩, mulScalar_coe ⟨P, h⟩, add_smul,
    AddSubgroup.coe_add]

theorem fromBytesModOrder_asBytes (s : Scalar) : Scalar.fromBytesModOrder s.asBytes = s := by
  rw [Scalar.fromBytesModOrder, Scalar.toNat_asBytes, ZMod.natCast_zmod_val]

theorem setHighBits_clearHighBits (arr : Bytes32) :
    setHighBits (splitHalves (clearHighBits arr)).1 = clearHighBits arr := by
  rw [setHighBits, clearHighBits, splitHalves_joinHalves]

/-- The receiver's combination of an honest response is the point that the sender hashed. -/
theorem response_eq (g : EdwardsPoint) (rawS raw : Bytes32) (cs : Scalar) :
    mulScalar (8 • g) ((Keys.new raw).sk - cs * (Keys.new rawS).sk) +
      mulScalar (mulClamped g (Keys.new rawS).sk8) cs = mulClamped g (clampInteger raw) := by
  have h := EdwardsPoint.eight_nsmul_mem g
  rw [mulScalar_mulClamped, ← mulScalar_add h, mul_comm cs, sub_add_cancel,
    ← Keys.mulClamped_eq raw h]
  rfl

/-- **The receiver recomputes the sender's hash.** -/
theorem recomputeHash_proveItem {k n : ℕ} (input : List UInt8) (π : Equiv.Perm (Fin k))
    (rawS raw : Bytes32) (item : Block) :
    let g := curvePoint O item
    let h := mulClamped g (Keys.new rawS).sk8
    let proof := proveItem O (Sender.new input n rawS π) (EdwardsPoint.compress g)
      (EdwardsPoint.compress h) g raw
    ∃ hc, recomputeHash O item (EdwardsPoint.compress h) h proof.c proof.z0 proof.z1 = .ok hc ∧
      (splitHalves hc).1 = proof.c := by
  intro g h proof
  have hz : combineArray proof.z0 proof.z1 = ((Keys.new raw).sk - Scalar.fromBytesModOrder
      (setHighBits proof.c) * (Keys.new rawS).sk).asBytes := by
    simp only [proof, proveItem, combineArray, setHighBits_clearHighBits, Prod.mk.eta,
      joinHalves_splitHalves]
    rfl
  have hgr : vartimeMultiscalarMul [Scalar.fromBytesModOrder (combineArray proof.z0 proof.z1),
      Scalar.fromBytesModOrder (setHighBits proof.c)] [mulByCofactor g, h] =
      .ok (mulClamped g (clampInteger raw)) := by
    rw [hz, fromBytesModOrder_asBytes, vartimeMultiscalarMul_eq_ok]
    refine ⟨rfl, ?_⟩
    simp only [List.zipWith_cons_cons, List.zipWith_nil_left, List.sum_cons, List.sum_nil,
      add_zero, mulByCofactor]
    exact response_eq g rawS raw _
  refine ⟨_, bind_eq_ok.mpr ⟨g, itemToEdwards_eq O item, bind_eq_ok.mpr ⟨_, hgr, rfl⟩⟩, ?_⟩
  simp only [proof, proveItem, clearHighBits, splitHalves_joinHalves]

/-- The transfers of an honest sender, on its own points. -/
theorem senderOt_eq {k : ℕ} (S : List Block) (π : Equiv.Perm (Fin k)) (rawS : Bytes32)
    (ms : List (Block × Block)) (raws : ℕ → Bytes32) :
    let sender := Sender.new (flatten S) S.length rawS π
    let point x := mulClamped (curvePoint O x) (Keys.new rawS).sk8
    let proof (i : Fin S.length) := proveItem O sender
      (EdwardsPoint.compress (curvePoint O (S.get i))) (EdwardsPoint.compress (point (S.get i)))
      (curvePoint O (S.get i)) (raws i)
    senderOt O sender (S.map fun x => EdwardsPoint.compress (point x)) (S.map (curvePoint O))
        (S.map fun x => EdwardsPoint.compress (curvePoint O x)) ms raws =
      .ok { items := ms
            c := List.ofFn fun i => ((proof i).c, 0)
            z0 := List.ofFn fun i => ((proof i).z0, 0)
            z1 := List.ofFn fun i => ((proof i).z1, 0) } := by
  intro sender point proof
  have hproofs : (List.range sender.n).mapM (fun i => do
      return proveItem O sender
        (← idx (S.map fun x => EdwardsPoint.compress (curvePoint O x)) i)
        (← idx (S.map fun x => EdwardsPoint.compress (point x)) i)
        (← idx (S.map (curvePoint O)) i) (raws i)) = .ok (List.ofFn proof) :=
    mapM_range fun i : Fin S.length => by
      rw [idx_map, idx_map, idx_map]
      rfl
  simp only [pure_eq_ok] at hproofs
  simp only [senderOt, hproofs, ok_bind, List.map_ofFn, pure_eq_ok]
  rfl

theorem otReceive_false {ms : List (Block × Block)} {choices : List Bool} {i : ℕ}
    {m : Block × Block} (hm : ms[i]? = some m) (hi : choices[i]? = some false) :
    idx (otReceive ms choices) i = .ok m.1 := by
  rw [idx_eq_ok, otReceive, List.getElem?_zipWith, hm, hi]
  rfl

variable (S R : List Block) (rawS : Bytes32) (π : Equiv.Perm (Fin R.length))
  (ms : List (Block × Block)) (raws : ℕ → Bytes32)

/-- What an honest sender sends proves every item, whatever the choices are. -/
theorem proved_of_honest (hms : ms.map Prod.fst = S) (choices : List Bool)
    (hlen : choices.length = S.length) :
    let point x := mulClamped (curvePoint O x) (Keys.new rawS).sk8
    let proof (i : Fin S.length) := proveItem O (Sender.new (flatten S) S.length rawS π)
      (EdwardsPoint.compress (curvePoint O S[i])) (EdwardsPoint.compress (point S[i]))
      (curvePoint O S[i]) (raws i)
    Received.Proved O
      { _senderPoints := S.map fun x => EdwardsPoint.compress (point x)
        senderPoints := S.map point
        indicator := choices
        results := otReceive ms choices
        c := otReceive (List.ofFn fun i => ((proof i).c, 0)) choices
        z0 := otReceive (List.ofFn fun i => ((proof i).z0, 0)) choices
        z1 := otReceive (List.ofFn fun i => ((proof i).z1, 0)) choices } := by
  intro point proof i hi
  have hiS : i < S.length := hlen ▸ (List.getElem?_eq_some_iff.mp hi).1
  obtain ⟨m, hm, hitem⟩ : ∃ m, ms[i]? = some m ∧ m.1 = S[i] := by
    subst hms
    rw [List.length_map] at hiS
    exact ⟨ms[i], List.getElem?_eq_getElem hiS, (List.getElem_map _).symm⟩
  have hfn : ∀ f : Fin S.length → Block × Block, (List.ofFn f)[i]? = some (f ⟨i, hiS⟩) :=
    fun f => by rw [List.getElem?_ofFn, dif_pos hiS]
  have hc := otReceive_false (hfn fun i => ((proof i).c, 0)) hi
  have hz0 := otReceive_false (hfn fun i => ((proof i).z0, 0)) hi
  have hz1 := otReceive_false (hfn fun i => ((proof i).z1, 0)) hi
  obtain ⟨hash, hhash, hlow⟩ := recomputeHash_proveItem O (flatten S) π rawS (raws i) S[i]
    (n := S.length)
  refine ⟨hash, _, ?_, idx_eq_ok.mp hc, hlow⟩
  rw [Received.hashAt, idx_map point ⟨i, hiS⟩, ok_bind,
    idx_map (fun x => EdwardsPoint.compress (point x)) ⟨i, hiS⟩, ok_bind,
    otReceive_false hm hi, ok_bind, hc, ok_bind, hz0, ok_bind, hz1, ok_bind, hitem]
  exact hhash

end Honest

/-! ### Any sender -/

section Sender

variable {O : Oracles} {receiver : Receiver} {n : ℕ} {pts sdM2 : List CompressedEdwardsY}
  {ot : OtInputs}

/-- One pair of blocks for each choice. -/
structure OtInputs.Sized (ot : OtInputs) (k : ℕ) : Prop where
  items : ot.items.length = k
  c : ot.c.length = k
  z0 : ot.z0.length = k
  z1 : ot.z1.length = k

/-- The transfers hold a right proof of item `i`, for the point `P` that was sent as `p`. -/
def OtInputs.ProvesAt (O : Oracles) (ot : OtInputs) (i : ℕ) (p : CompressedEdwardsY)
    (P : EdwardsPoint) : Prop :=
  ∃ item c z0 z1 hc, ot.items[i]? = some item ∧ ot.c[i]? = some c ∧ ot.z0[i]? = some z0 ∧
    ot.z1[i]? = some z1 ∧ recomputeHash O item.1 p P c.1 z0.1 z1.1 = .ok hc ∧
    (splitHalves hc).1 = c.1

/-- Every point that the second message does not contain, once blinded, comes with a right proof. -/
def OtInputs.Proves (O : Oracles) (receiver : Receiver) (pts sdM2 : List CompressedEdwardsY)
    (ot : OtInputs) : Prop :=
  ∀ i p P, pts[i]? = some p → EdwardsPoint.decompress p = some P →
    EdwardsPoint.compress (mulScalar P receiver.sk) ∉ sdM2 → ot.ProvesAt O i p P

theorem length_otReceive {ms : List (Block × Block)} {choices : List Bool}
    (h : ms.length = choices.length) : (otReceive ms choices).length = choices.length := by
  rw [otReceive, List.length_zipWith, h, min_self]

/-- What `receive` returns once it has decompressed the points. -/
def gather (receiver : Receiver) (pts : List CompressedEdwardsY) (points : List EdwardsPoint)
    (sdM2 : List CompressedEdwardsY) (ot : OtInputs) : Received :=
  let indicator := PartyReceiver1M.compare
    (points.map fun point => EdwardsPoint.compress (mulScalar point receiver.sk)) sdM2
  { _senderPoints := pts, senderPoints := points, indicator
    results := otReceive ot.items indicator
    c := otReceive ot.c indicator
    z0 := otReceive ot.z0 indicator
    z1 := otReceive ot.z1 indicator }

theorem receive_eq_ok {r : Received} :
    receive receiver pts sdM2 ot = .ok r ↔
      ∃ points, pts.mapM (fun p => unwrap (EdwardsPoint.decompress p)) = .ok points ∧
        r = gather receiver pts points sdM2 ot := by
  constructor
  · intro h
    obtain ⟨b, hb, h⟩ := bind_eq_ok.mp h
    obtain ⟨points, hpoints, hb⟩ := bind_eq_ok.mp hb
    cases hb
    cases h
    exact ⟨points, hpoints, rfl⟩
  · rintro ⟨points, hpoints, rfl⟩
    exact bind_eq_ok.mpr ⟨_, bind_eq_ok.mpr ⟨points, hpoints, rfl⟩, rfl⟩

/-- The lists that the receiver holds have the length of the list of points. -/
theorem receive_lengths {r : Received} (hot : ot.Sized pts.length)
    (h : receive receiver pts sdM2 ot = .ok r) :
    r._senderPoints.length = pts.length ∧ r.senderPoints.length = pts.length ∧
      r.indicator.length = pts.length ∧ r.results.length = pts.length ∧
      r.c.length = pts.length ∧ r.z0.length = pts.length ∧ r.z1.length = pts.length := by
  obtain ⟨points, hpoints, rfl⟩ := receive_eq_ok.mp h
  have hlen := (mapM_eq_ok.mp hpoints).length_eq.symm
  have hind : (PartyReceiver1M.compare (points.map fun point =>
      EdwardsPoint.compress (mulScalar point receiver.sk)) sdM2).length = pts.length := by
    rw [PartyReceiver1M.compare, compareBy, List.length_map, List.length_map, hlen]
  refine ⟨rfl, hlen, hind, ?_, ?_, ?_, ?_⟩
  · exact (length_otReceive (hot.items.trans hind.symm)).trans hind
  · exact (length_otReceive (hot.c.trans hind.symm)).trans hind
  · exact (length_otReceive (hot.z0.trans hind.symm)).trans hind
  · exact (length_otReceive (hot.z1.trans hind.symm)).trans hind

/-- No item and no response makes the receiver panic. -/
theorem exists_recomputeHash (O : Oracles) (item : Block) (hi : CompressedEdwardsY)
    (h : EdwardsPoint) (c z0 z1 : Block) : ∃ hc, recomputeHash O item hi h c z0 z1 = .ok hc :=
  ⟨_, bind_eq_ok.mpr ⟨_, itemToEdwards_eq O item, bind_eq_ok.mpr
    ⟨_, vartimeMultiscalarMul_eq_ok.mpr ⟨rfl, rfl⟩, rfl⟩⟩⟩

/-- The lists that the loop reads have `n` entries. -/
structure Received.Filled (r : Received) (n : ℕ) : Prop where
  _senderPoints : n ≤ r._senderPoints.length
  senderPoints : n ≤ r.senderPoints.length
  indicator : n ≤ r.indicator.length
  results : n ≤ r.results.length
  c : n ≤ r.c.length
  z0 : n ≤ r.z0.length
  z1 : n ≤ r.z1.length

/-- The loop completes on lists of `n` entries, proved or not. -/
theorem recomputeLoop_of_filled {r : Received} (h : r.Filled n) : recomputeLoop O n r = .ok r := by
  have hturn : ∀ i : Fin n, ∃ hash, (do
      if ← idx r.indicator i then return none else return some (← r.hashAt O i)) = .ok hash := by
    intro i
    have hlt : ∀ {k : ℕ}, n ≤ k → (i : ℕ) < k := fun hk => i.isLt.trans_le hk
    obtain ⟨b, hb⟩ : ∃ b, idx r.indicator i = .ok b := ⟨_, idx_of_lt (hlt h.indicator)⟩
    rw [hb, ok_bind]
    cases b with
    | true => exact ⟨none, rfl⟩
    | false =>
      obtain ⟨hc, hhash⟩ : ∃ hc, r.hashAt O i = .ok hc := by
        rw [Received.hashAt, idx_of_lt (hlt h.senderPoints), ok_bind,
          idx_of_lt (hlt h._senderPoints), ok_bind, idx_of_lt (hlt h.results), ok_bind,
          idx_of_lt (hlt h.c), ok_bind, idx_of_lt (hlt h.z0), ok_bind, idx_of_lt (hlt h.z1),
          ok_bind]
        exact exists_recomputeHash O _ _ _ _ _ _
      exact ⟨some hc, by rw [hhash]; rfl⟩
  choose hash hhash using hturn
  rw [recomputeLoop, mapM_range hhash]
  rfl

/-- The loop needs nothing but `n` points. -/
theorem recomputeLoop_eq_ok {r r' : Received} (hot : ot.Sized pts.length)
    (h : receive receiver pts sdM2 ot = .ok r) :
    recomputeLoop O n r = .ok r' ↔ n ≤ pts.length ∧ r' = r := by
  obtain ⟨h₁, h₂, h₃, h₄, h₅, h₆, h₇⟩ := receive_lengths hot h
  constructor
  · intro hloop
    obtain ⟨hashes, hhashes, hr⟩ := bind_eq_ok.mp hloop
    cases hr
    refine ⟨?_, rfl⟩
    by_contra hn
    -- the turn past the last point reads the indicator out of bounds
    have hturns := mapM_eq_ok.mp hhashes
    have hlen := hturns.length_eq
    rw [List.length_range] at hlen
    have hturn := (List.forall₂_iff_get.mp hturns).2 pts.length (by rw [List.length_range]; omega)
      (by omega)
    simp only [List.get_eq_getElem, List.getElem_range] at hturn
    obtain ⟨b, hb, -⟩ := bind_eq_ok.mp hturn
    exact absurd (lt_of_idx hb) (by omega)
  · rintro ⟨hn, rfl⟩
    exact recomputeLoop_of_filled ⟨h₁ ▸ hn, h₂ ▸ hn, h₃ ▸ hn, h₄ ▸ hn, h₅ ▸ hn, h₆ ▸ hn, h₇ ▸ hn⟩

/-- **What a completed run has read.** -/
theorem receiverSide_eq_ok {out : Option Received} (hot : ot.Sized pts.length) :
    receiverSide O receiver n (.hashDH2 pts) (.hashDH2 sdM2) ot = .ok out ↔
      ∃ r, receive receiver pts sdM2 ot = .ok r ∧ n ≤ pts.length ∧ out = some r := by
  simp only [receiverSide, bind_eq_ok, pure_eq_ok, Except.ok.injEq]
  constructor
  · rintro ⟨r, hr, r', hloop, rfl⟩
    obtain ⟨hn, rfl⟩ := (recomputeLoop_eq_ok hot hr).mp hloop
    exact ⟨r', hr, hn, rfl⟩
  · rintro ⟨r, hr, hn, rfl⟩
    exact ⟨r, hr, r, (recomputeLoop_eq_ok hot hr).mpr ⟨hn, rfl⟩, rfl⟩

theorem Received.hashAt_eq {r : Received} {i : ℕ} {P : EdwardsPoint} {p : CompressedEdwardsY}
    {item c z0 z1 : Block} (hP : r.senderPoints[i]? = some P) (hp : r._senderPoints[i]? = some p)
    (hitem : idx r.results i = .ok item) (hc : idx r.c i = .ok c) (hz0 : idx r.z0 i = .ok z0)
    (hz1 : idx r.z1 i = .ok z1) : r.hashAt O i = recomputeHash O item p P c z0 z1 := by
  rw [Received.hashAt, idx_eq_ok.mpr hP, ok_bind, idx_eq_ok.mpr hp, ok_bind, hitem, ok_bind, hc,
    ok_bind, hz0, ok_bind, hz1, ok_bind]

/-- The block and the hash of an item that the receiver does not find. -/
theorem hashAt_gather {points : List EdwardsPoint} {i : ℕ} {p : CompressedEdwardsY}
    {P : EdwardsPoint} {item c z0 z1 : Block × Block} (hp : pts[i]? = some p)
    (hP : points[i]? = some P)
    (hi : (gather receiver pts points sdM2 ot).indicator[i]? = some false)
    (hitem : ot.items[i]? = some item) (hc : ot.c[i]? = some c) (hz0 : ot.z0[i]? = some z0)
    (hz1 : ot.z1[i]? = some z1) :
    (gather receiver pts points sdM2 ot).c[i]? = some c.1 ∧
      (gather receiver pts points sdM2 ot).hashAt O i =
        recomputeHash O item.1 p P c.1 z0.1 z1.1 :=
  ⟨idx_eq_ok.mp (otReceive_false hc hi), Received.hashAt_eq hP hp (otReceive_false hitem hi)
    (otReceive_false hc hi) (otReceive_false hz0 hi) (otReceive_false hz1 hi)⟩

/-- What the receiver holds is proved when the transfers hold right proofs. -/
theorem proved_gather_iff {points : List EdwardsPoint} (hot : ot.Sized pts.length)
    (hpoints : pts.mapM (fun p => unwrap (EdwardsPoint.decompress p)) = .ok points) :
    (gather receiver pts points sdM2 ot).Proved O ↔ ot.Proves O receiver pts sdM2 := by
  have hdec := mapM_eq_ok.mp hpoints
  have hlen := hdec.length_eq
  have hind : ∀ (i : ℕ) (P : EdwardsPoint), points[i]? = some P →
      (gather receiver pts points sdM2 ot).indicator[i]? =
        some (decide (EdwardsPoint.compress (mulScalar P receiver.sk) ∈ sdM2)) := by
    intro i P hP
    simp only [gather, PartyReceiver1M.compare, compareBy, List.getElem?_map, hP, Option.map_some,
      List.any_beq']
    rw [List.contains_eq_mem]
  constructor
  · intro hproved i p P hp hpP hnot
    obtain ⟨hi, rfl⟩ := List.getElem?_eq_some_iff.mp hp
    have hP : points[i]? = some P := by
      have hget := (List.forall₂_iff_get.mp hdec).2 i hi (hlen ▸ hi)
      rw [List.get_eq_getElem, hpP, unwrap_some] at hget
      rw [List.getElem?_eq_getElem (hlen ▸ hi)]
      exact congrArg some (Except.ok.inj hget).symm
    have hitem := List.getElem?_eq_getElem (hot.items ▸ hi : i < ot.items.length)
    have hc := List.getElem?_eq_getElem (hot.c ▸ hi : i < ot.c.length)
    have hz0 := List.getElem?_eq_getElem (hot.z0 ▸ hi : i < ot.z0.length)
    have hz1 := List.getElem?_eq_getElem (hot.z1 ▸ hi : i < ot.z1.length)
    have hfalse := hind i P hP
    rw [decide_eq_false hnot] at hfalse
    obtain ⟨hcr, heq⟩ := hashAt_gather (O := O) hp hP hfalse hitem hc hz0 hz1
    obtain ⟨hash, c, hhash, hc', hlow⟩ := hproved i hfalse
    obtain rfl := Option.some.inj (hcr.symm.trans hc')
    exact ⟨_, _, _, _, hash, hitem, hc, hz0, hz1, heq.symm.trans hhash, hlow⟩
  · intro hproves i hi
    have hlt : i < points.length := by
      have hlt := (List.getElem?_eq_some_iff.mp hi).1
      rwa [gather, PartyReceiver1M.compare, compareBy, List.length_map, List.length_map] at hlt
    have hP := List.getElem?_eq_getElem hlt
    have hp := List.getElem?_eq_getElem (hlen ▸ hlt : i < pts.length)
    have hnot := of_decide_eq_false (Option.some.inj ((hind i _ hP).symm.trans hi))
    have hpP := unwrap_eq_ok.mp ((List.forall₂_iff_get.mp hdec).2 i (hlen ▸ hlt) hlt)
    obtain ⟨item, c, z0, z1, hash, hitem, hc, hz0, hz1, hhash, hlow⟩ :=
      hproves i _ _ hp hpP hnot
    obtain ⟨hcr, heq⟩ := hashAt_gather (O := O) hp hP hi hitem hc hz0 hz1
    exact ⟨hash, c.1, heq.trans hhash, hcr, hlow⟩

/-- **When a completed run has proved its items.**  The receiver completes on `n` points that
decompress, so its items are proved only if the transfers happen to prove them. -/
theorem receiverSide_enforces_iff (O : Oracles) (receiver : Receiver) (n : ℕ)
    (pts sdM2 : List CompressedEdwardsY) (ot : OtInputs) (hot : ot.Sized pts.length) :
    (∀ out, receiverSide O receiver n (.hashDH2 pts) (.hashDH2 sdM2) ot = .ok out →
      ∃ r, out = some r ∧ r.Proved O) ↔
    pts.length < n ∨ (∃ p ∈ pts, EdwardsPoint.decompress p = none) ∨
      ot.Proves O receiver pts sdM2 := by
  constructor
  · intro h
    by_cases hn : n ≤ pts.length
    · right
      by_cases hdec : ∃ p ∈ pts, EdwardsPoint.decompress p = none
      · exact Or.inl hdec
      · right
        obtain ⟨points, hpoints⟩ : ∃ points, pts.mapM (fun p =>
            unwrap (EdwardsPoint.decompress p)) = .ok points := by
          refine returns_mapM.mpr fun p hp => ?_
          obtain ⟨P, hP⟩ := Option.ne_none_iff_exists'.mp fun h => hdec ⟨p, hp, h⟩
          exact ⟨P, unwrap_eq_ok.mpr hP⟩
        have hr : receive receiver pts sdM2 ot = .ok (gather receiver pts points sdM2 ot) :=
          receive_eq_ok.mpr ⟨points, hpoints, rfl⟩
        obtain ⟨r, hout, hproved⟩ := h _ ((receiverSide_eq_ok hot).mpr ⟨_, hr, hn, rfl⟩)
        cases hout
        exact (proved_gather_iff hot hpoints).mp hproved
    · exact Or.inl (not_le.mp hn)
  · intro h out hout
    obtain ⟨r, hr, hn, rfl⟩ := (receiverSide_eq_ok hot).mp hout
    obtain ⟨points, hpoints, rfl⟩ := receive_eq_ok.mp hr
    rcases h with hlt | ⟨p, hp, hnone⟩ | hproves
    · exact absurd hn (not_le.mpr hlt)
    · obtain ⟨P, hP⟩ := returns_mapM.mp ⟨points, hpoints⟩ p hp
      rw [hnone] at hP
      cases hP
    · exact ⟨_, rfl, (proved_gather_iff hot hpoints).mpr hproves⟩

end Sender

/-- A sender of one point, one item and a proof of zeros. -/
def zeroProofs : OtInputs := ⟨[(3, 0)], [(0, 0)], [(0, 0)], [(0, 0)]⟩

theorem zeroProofs_sized (p : CompressedEdwardsY) : zeroProofs.Sized [p].length :=
  ⟨rfl, rfl, rfl, rfl⟩

/-- One point, with a receiver that waits for one. -/
theorem receiverSide_enforces_iff_one :
    let pts := [EdwardsPoint.compress EdwardsPoint.basepoint]
    let receiver := Receiver.new (flatten [4]) 1 0
    (∀ out, receiverSide Oracles.reading receiver 1 (.hashDH2 pts) (.hashDH2 []) zeroProofs =
        .ok out → ∃ r, out = some r ∧ r.Proved Oracles.reading) ↔
    pts.length < 1 ∨ (∃ p ∈ pts, EdwardsPoint.decompress p = none) ∨
      zeroProofs.Proves Oracles.reading receiver pts [] :=
  receiverSide_enforces_iff Oracles.reading _ 1 _ [] zeroProofs (zeroProofs_sized _)

/-- The hash that the receiver recomputes from them does not begin with zeros. -/
theorem low_ne_zero {hash : Bytes32}
    (h : recomputeHash Oracles.reading 3 (EdwardsPoint.compress EdwardsPoint.basepoint)
      EdwardsPoint.basepoint 0 0 0 = .ok hash) : (splitHalves hash).1 ≠ 0 := by
  have hne : (recomputeHash Oracles.reading 3 (EdwardsPoint.compress EdwardsPoint.basepoint)
      EdwardsPoint.basepoint 0 0 0).map (fun hc => decide ((splitHalves hc).1 = 0)) =
      .ok false := by decide +kernel
  have hmap := congrArg (Except.map fun hc => decide ((splitHalves hc).1 = 0)) h
  exact of_decide_eq_false (Except.ok.inj (hmap.symm.trans hne))

/-- **A run that completes on a proof of zeros.** -/
theorem receiverSide_accepts_zeros :
    ∃ r, receiverSide Oracles.reading (Receiver.new (flatten [4]) 1 0) 1
        (.hashDH2 [EdwardsPoint.compress EdwardsPoint.basepoint]) (.hashDH2 []) zeroProofs =
          .ok (some r) ∧
      ¬ r.Proved Oracles.reading := by
  have hpoints : [EdwardsPoint.compress EdwardsPoint.basepoint].mapM (fun p =>
      unwrap (EdwardsPoint.decompress p)) = .ok [EdwardsPoint.basepoint] :=
    mapM_eq_ok.mpr (.cons (unwrap_eq_ok.mpr (EdwardsPoint.decompress_compress _)) .nil)
  have hot := zeroProofs_sized (EdwardsPoint.compress EdwardsPoint.basepoint)
  refine ⟨_, (receiverSide_eq_ok hot).mpr ⟨_, receive_eq_ok.mpr ⟨_, hpoints, rfl⟩, Nat.le_refl 1,
    rfl⟩, fun hproved => ?_⟩
  obtain ⟨item, c, z0, z1, hash, hitem, hc, hz0, hz1, hhash, hlow⟩ :=
    (proved_gather_iff hot hpoints).mp hproved 0 _ _ rfl (EdwardsPoint.decompress_compress _)
      List.not_mem_nil
  obtain rfl := Option.some.inj hitem
  obtain rfl := Option.some.inj hc
  obtain rfl := Option.some.inj hz0
  obtain rfl := Option.some.inj hz1
  -- the first half of the recomputed hash is not the block of zeros
  exact absurd hlow (low_ne_zero hhash)

/-! ### Hashing to the curve never fails -/

/-- An abscissa of the curve and of its twist is that of `(0, 0)`. -/
theorem twist_abscissa {u v : FieldElement} (hsq : IsSquare (curve25519.mont u))
    (hv : 2 * v ^ 2 = curve25519.mont u) : u = 0 ∧ v = 0 := by
  obtain ⟨s, hs⟩ := hsq
  have hv₀ : v = 0 := by
    by_contra hne
    refine curve25519.not_isSquare_Z ⟨s / v, ?_⟩
    rw [show curve25519.Z = 2 from rfl]
    field_simp
    linear_combination hv + hs
  rw [hv₀] at hv
  exact ⟨Elligator.mont_eq_zero_iff.mp (by linear_combination -hv), hv₀⟩

/-- **Mapping to the curve never fails.**  The value is the Elligator map, the abscissa of a point
of the curve (of the twist `2·v² = u³ + A·u² + u` only where the two meet, in `(0, 0)`), and not
`-1`; so none of the `unwrap`s on a hash panics. -/
theorem fieldToMont_never_fails :
    (∀ r : FieldElement, ∃ u, fieldToMont r = FieldElement.asBytes u ∧
      (let w := -feA / (1 + 2 * r ^ 2);
        (IsSquare (w ^ 3 + feA * w ^ 2 + w) → u = w) ∧
        (¬ IsSquare (w ^ 3 + feA * w ^ 2 + w) → u = -w - feA)) ∧
      (∃ v, v ^ 2 = u ^ 3 + feA * u ^ 2 + u) ∧
      (∀ v, 2 * v ^ 2 = u ^ 3 + feA * u ^ 2 + u → u = 0 ∧ v = 0) ∧
      u ≠ -1 ∧
      ∃ P, toEdwards (fieldToMont r) 0 = some P ∧ fieldToEdwards r = .ok P ∧
        toMontgomery P = fieldToMont r) ∧
    (∀ item permut, ∃ P, hashToPoint item permut = .ok P) ∧
    (∀ O sender, ∃ out, PartySender1M.gen O sender = .ok out) ∧
    (∀ O receiver, ∃ out, PartyReceiver1M.gen O receiver = .ok out) ∧
    ∀ O item hi h c z0 z1, ∃ hc, recomputeHash O item hi h c z0 z1 = .ok hc := by
  refine ⟨fun r => ?_, fun item permut => ?_, fun O sender => ?_, fun O receiver => ?_,
    exists_recomputeHash⟩
  · have hw : curve25519.first r = -feA / (1 + 2 * r ^ 2) := rfl
    have hsq := Elligator.isSquare_mont_map (E := curve25519) (r := r)
    obtain ⟨P, hP, hu⟩ := exists_fieldToEdwards r
    refine ⟨curve25519.map r, fieldToMont_eq r, ⟨fun h => ?_, fun h => ?_⟩, ?_, fun v hv => ?_,
      map_ne_neg_one r, P, unwrap_eq_ok.mp hP, hP, ?_⟩
    · exact (if_pos (show IsSquare (curve25519.mont (curve25519.first r)) from h)).trans hw
    · exact (if_neg (show ¬ IsSquare (curve25519.mont (curve25519.first r)) from h)).trans
        (hw ▸ rfl)
    · obtain ⟨v, hv⟩ := hsq
      exact ⟨v, by rw [sq]; exact hv.symm⟩
    · exact twist_abscissa hsq hv
    · rw [toMontgomery_eq, hu, fieldToMont_eq]
  · obtain ⟨P, hP, -⟩ := exists_hashToPoint item permut
    exact ⟨P, hP⟩
  · exact ⟨_, bind_eq_ok.mpr ⟨_, mapM_itemToEdwards O _, rfl⟩⟩
  · refine ⟨(chunksExact receiver.input).map fun item =>
      EdwardsPoint.compress (mulClamped (curvePoint O item) receiver.sk8), ?_⟩
    simp only [PartyReceiver1M.gen, itemToEdwards_eq, ok_bind, pure_eq_ok]
    exact mapM_eq_ok.mpr (List.forall₂_map_right_iff.mpr (List.forall₂_same.mpr fun _ _ => rfl))

end MaliciousPsu
