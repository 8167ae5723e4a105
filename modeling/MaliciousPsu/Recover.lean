import MaliciousPsu.Keys
import MaliciousPsu.Mapping

/-!
# Recovering an item

The search of `recover_from_point`, over eight translates, two branches, two signs and two values
of bit 255.  It contains the preimage that was hashed, since a point whose image under the cofactor
is right is a translate of the hash; and a hit is an item whose hash is, under the cofactor, the
point or its opposite, so that it stops at no other item when no other hashes there.

* `checkBytesInto_spec`: the network is a permutation, and `check_bytes` tells which blocks are
  ciphertexts of items.
* `exists_searchPoint_iff`: the search finds an item exactly where there is a usable one.
* `recoverFromPoint_eq`: any point that the cofactor takes to the image of the hash is recovered.
* `recoverFromPoint_corresponds_iff`: which points get an item of theirs, and not just zeros.
* `recoverFromPoint_hashToPoint`: the two ways a point comes back to its owner.
-/

namespace MaliciousPsu

open FieldElement EdwardsPoint

variable {permut : FeistelPrp256} {item x : Block}

/-- The ciphertext of the padded item, bit 255 cleared, is not zero and below `p`. -/
def Usable (permut : FeistelPrp256) (item : Block) : Prop :=
  0 < (permut.encryptBlock (padded item)).toNat % 2 ^ 255 ∧
    (permut.encryptBlock (padded item)).toNat % 2 ^ 255 < p

instance : Decidable (Usable permut item) := inferInstanceAs (Decidable (_ ∧ _))

/-- No other item hashes, under the cofactor, to the point of `item` or to its opposite. -/
def CollisionFree (permut : FeistelPrp256) (item : Block) : Prop :=
  ∀ (x : Block) (P Q : EdwardsPoint), hashToPoint item permut = .ok P →
    hashToPoint x permut = .ok Q → 8 • Q = 8 • P ∨ 8 • Q = -(8 • P : EdwardsPoint) → x = item

/-! ### One encoding -/

theorem twoPow_or_toNat {b : Bytes32} (h : b.toNat < 2 ^ 255) :
    (b ||| BitVec.twoPow 256 255).toNat = 2 ^ 255 + b.toNat := by
  rw [BitVec.toNat_or, BitVec.toNat_twoPow, Nat.mod_eq_of_lt (by decide), Nat.or_comm,
    ← mul_one (2 ^ 255), ← Nat.two_pow_add_eq_or_of_lt h]

/-- The padded item is enciphered to the bytes, or to the bytes with bit 255 set. -/
def EncryptsTo (permut : FeistelPrp256) (item : Block) (bytes : Bytes32) : Prop :=
  permut.encryptBlock (padded item) = bytes ∨
    permut.encryptBlock (padded item) = bytes ||| BitVec.twoPow 256 255

/-- Deciphered bytes whose second half is zero are a padded item. -/
theorem encryptBlock_padded_iff {b : Bytes32} :
    permut.encryptBlock (padded item) = b ↔ splitHalves (permut.decryptBlock b) = (item, 0) := by
  constructor
  · rintro rfl
    rw [FeistelPrp256.decryptBlock_encryptBlock, padded, splitHalves_joinHalves]
  · intro h
    rw [padded, ← h, joinHalves_splitHalves, FeistelPrp256.encryptBlock_decryptBlock]

theorem padded_injective (permut : FeistelPrp256) :
    Function.Injective fun item => permut.encryptBlock (padded item) := by
  intro x y h
  have hx := encryptBlock_padded_iff.mp (rfl : permut.encryptBlock (padded x) = _)
  have hy := encryptBlock_padded_iff.mp h.symm
  rw [hx] at hy
  exact (Prod.mk.inj hy).1

/-- A hit of `check_bytes` is an item with these bytes for its ciphertext, up to bit 255. -/
theorem encryptsTo_of_checkBytes {b : Bytes32} (h : checkBytes b permut = some x) :
    EncryptsTo permut x b := by
  simp only [checkBytes] at h
  split at h
  · next hz =>
    cases h
    exact Or.inl (encryptBlock_padded_iff.mpr (Prod.ext rfl hz))
  split at h
  · next hz =>
    cases h
    exact Or.inr (encryptBlock_padded_iff.mpr (Prod.ext rfl hz))
  · cases h

/-- **`check_bytes` decides membership.** -/
theorem exists_checkBytes_iff {b : Bytes32} :
    (∃ x, checkBytes b permut = some x) ↔ ∃ item, EncryptsTo permut item b := by
  constructor
  · rintro ⟨x, hx⟩
    exact ⟨x, encryptsTo_of_checkBytes hx⟩
  · rintro ⟨item, h⟩
    by_cases hz : (splitHalves (permut.decryptBlock b)).2 = 0
    · exact ⟨_, if_pos hz⟩
    rcases h with h | h
    · rw [encryptBlock_padded_iff.mp h] at hz
      exact absurd rfl hz
    · refine ⟨item, (if_neg hz).trans ?_⟩
      rw [encryptBlock_padded_iff.mp h]
      exact if_pos rfl

/-- `check_bytes` on the bytes, which it deciphers in place, and on the item that it writes. -/
def checkBytesInto (bytes : Bytes32) (permut : FeistelPrp256) (result : Block) :
    Bool × Bytes32 × Block :=
  let bytesNc := permut.decryptBlock (bytes ||| BitVec.twoPow 256 255)
  let bytes := permut.decryptBlock bytes
  if (splitHalves bytes).2 = 0 then (true, bytes, (splitHalves bytes).1)
  else if (splitHalves bytesNc).2 = 0 then (true, bytes, (splitHalves bytesNc).1)
  else (false, bytes, result)

/-- What is written is the hit, and nothing is written without one. -/
theorem checkBytesInto_eq (bytes : Bytes32) (permut : FeistelPrp256) (result : Block) :
    checkBytesInto bytes permut result = ((checkBytes bytes permut).isSome,
      permut.decryptBlock bytes, (checkBytes bytes permut).getD result) := by
  simp only [checkBytesInto, checkBytes]
  split
  · rfl
  split
  · rfl
  · rfl

/-- **The network is a permutation and `check_bytes` decides membership**, for any block cipher and
any master key. -/
theorem checkBytesInto_spec (aes : Block → Block → Block) (master : Block) :
    let permut := FeistelPrp256.new aes master
    (∀ b, permut.decryptBlock (permut.encryptBlock b) = b) ∧
    (∀ b, permut.encryptBlock (permut.decryptBlock b) = b) ∧
    (Function.Injective fun item => permut.encryptBlock (padded item)) ∧
    ∀ (b : Bytes32) (result : Block),
      let out := checkBytesInto b permut result
      (out.1 = true ↔ ∃ item, EncryptsTo permut item b) ∧
      (out.1 = true → EncryptsTo permut out.2.2 b) ∧ (out.1 = false → out.2.2 = result) := by
  intro permut
  refine ⟨permut.decryptBlock_encryptBlock, permut.encryptBlock_decryptBlock,
    padded_injective permut, fun b result => ?_⟩
  intro out
  have hout : out = _ := checkBytesInto_eq b permut result
  rw [hout, ← exists_checkBytes_iff]
  cases hhit : checkBytes b permut with
  | none =>
    refine ⟨⟨nofun, ?_⟩, nofun, fun _ => rfl⟩
    rintro ⟨x, hx⟩
    cases hx
  | some x =>
    exact ⟨⟨fun _ => ⟨x, rfl⟩, fun _ => rfl⟩, fun _ => encryptsTo_of_checkBytes hhit, nofun⟩

/-- The ciphertext of an item at the encoding of `s` is `s` below bit 255. -/
theorem toNat_of_encryptsTo {s : FieldElement} (h : EncryptsTo permut x (asBytes s)) :
    (permut.encryptBlock (padded x)).toNat % 2 ^ 255 = s.val := by
  have hlt : (asBytes s).toNat < 2 ^ 255 := by
    rw [toNat_asBytes]
    exact (val_lt s).trans p_lt
  rcases h with h | h
  · rw [h, Nat.mod_eq_of_lt hlt, toNat_asBytes]
  · rw [h, twoPow_or_toNat hlt, Nat.add_mod_left, Nat.mod_eq_of_lt hlt, toNat_asBytes]

/-- A hit of `check_bytes` at the encoding of `s` is an item hashed to `s`. -/
theorem itemToField_of_checkBytes {s : FieldElement} (h : checkBytes (asBytes s) permut = some x) :
    itemToField x permut = s := by
  rw [itemToField, fromBytes, toNat_of_encryptsTo (encryptsTo_of_checkBytes h),
    ZMod.natCast_zmod_val]

/-- `check_bytes` hits at the field element of a usable item. -/
theorem checkBytes_ne_none (h : Usable permut item) :
    checkBytes (asBytes (itemToField item permut)) permut ≠ none := by
  set c := permut.encryptBlock (padded item) with hc
  have hval : (asBytes (itemToField item permut)).toNat = c.toNat % 2 ^ 255 := by
    rw [toNat_asBytes, itemToField, ← hc, fromBytes, ZMod.val_natCast, Nat.mod_eq_of_lt h.2]
  have hlt := c.isLt
  have hitem : EncryptsTo permut item (asBytes (itemToField item permut)) := by
    -- Bit 255 of the ciphertext decides which of the two tries is the ciphertext.
    by_cases hbit : c.toNat < 2 ^ 255
    · exact Or.inl (BitVec.eq_of_toNat_eq (by rw [hval, Nat.mod_eq_of_lt hbit]))
    · refine Or.inr (BitVec.eq_of_toNat_eq ?_)
      rw [twoPow_or_toNat (by omega), hval, ← hc]
      omega
  obtain ⟨x, hx⟩ := exists_checkBytes_iff.mpr ⟨item, hitem⟩
  rw [hx]
  exact Option.some_ne_none x

/-! ### One point -/

/-- A hit of `check_item` at a point is an item whose hash is the point or its opposite. -/
theorem hashToPoint_of_checkItem {P Q : EdwardsPoint} {r : FieldElement × FieldElement}
    (hr : edwardsToField P = some r) (hx : checkItem r permut = some x)
    (hQ : hashToPoint x permut = .ok Q) : Q = P ∨ Q = -P := by
  obtain ⟨s, hs, hhit⟩ := List.exists_of_findSome?_eq_some hx
  rw [edwardsToField, toMontgomery_eq] at hr
  obtain ⟨hu, hmap⟩ := map_of_montToField (isSquare_mont_montgomeryU P) hr hs
  obtain ⟨Q', hQ', huQ⟩ := exists_hashToPoint x permut
  obtain rfl : Q' = Q := Except.ok.inj (hQ'.symm.trans hQ)
  rw [itemToField_of_checkBytes hhit, hmap] at huQ
  exact eq_or_eq_neg huQ hu

theorem itemToField_ne_zero (h : Usable permut item) : itemToField item permut ≠ 0 := by
  intro h₀
  rw [itemToField, fromBytes, ZMod.natCast_eq_zero_iff] at h₀
  have hle := Nat.le_of_dvd h.1 h₀
  have hlt := h.2
  omega

/-- What `check_item` hits is usable: `0` is no candidate. -/
theorem usable_of_checkItem {P : EdwardsPoint} {r : FieldElement × FieldElement}
    (hr : edwardsToField P = some r) (hx : checkItem r permut = some x) : Usable permut x := by
  obtain ⟨s, hs, hhit⟩ := List.exists_of_findSome?_eq_some hx
  rw [edwardsToField, toMontgomery_eq] at hr
  obtain ⟨hu, hmap⟩ := map_of_montToField (isSquare_mont_montgomeryU P) hr hs
  have hs₀ : s ≠ 0 := by
    rintro rfl
    exact hu (hmap.symm.trans map_zero)
  rw [Usable, toNat_of_encryptsTo (encryptsTo_of_checkBytes hhit)]
  exact ⟨Nat.pos_of_ne_zero fun h => hs₀ ((ZMod.val_eq_zero s).mp h), val_lt s⟩

/-- `check_item` hits where a usable item is among the candidates. -/
theorem checkItem_ne_none (h : Usable permut item) {r : FieldElement × FieldElement}
    (hs : itemToField item permut ∈ candidates r) : checkItem r permut ≠ none := by
  rw [checkItem, Ne, List.findSome?_eq_none_iff]
  exact fun hnone => checkBytes_ne_none h (hnone _ hs)

/-! ### The search -/

/-- The item hashes, under the cofactor, to the point or to its opposite. -/
def Corresponds (permut : FeistelPrp256) (item : Block) (point : EdwardsPoint) : Prop :=
  ∃ Q, hashToPoint item permut = .ok Q ∧
    (8 • Q = 8 • point ∨ 8 • Q = -(8 • point : EdwardsPoint))

/-- The loop of `recover_from_point`. -/
def searchPoint (point : EdwardsPoint) (permut : FeistelPrp256) : Option Block :=
  EdwardsPoint.eightTorsion.findSome? fun T =>
    (edwardsToField (point + T)).bind fun r => checkItem r permut

theorem recoverFromPoint_eq_getD (point : EdwardsPoint) (permut : FeistelPrp256) :
    recoverFromPoint point permut = (searchPoint point permut).getD 0 := rfl

/-- What the search finds is usable and corresponds to the point. -/
theorem of_searchPoint {point : EdwardsPoint} (h : searchPoint point permut = some x) :
    Usable permut x ∧ Corresponds permut x point := by
  obtain ⟨T, hT, hx⟩ := List.exists_of_findSome?_eq_some h
  obtain ⟨r, hr, hx⟩ := Option.bind_eq_some_iff.mp hx
  obtain ⟨Q, hQ, -⟩ := exists_hashToPoint x permut
  have h₈ : 8 • (point + T) = 8 • point := by
    rw [smul_add, mem_eightTorsion.mp hT, add_zero]
  refine ⟨usable_of_checkItem hr hx, Q, hQ, ?_⟩
  rcases hashToPoint_of_checkItem hr hx hQ with rfl | rfl
  · exact Or.inl h₈
  · exact Or.inr (by rw [smul_neg, h₈])

/-- An item that corresponds to a point is among the candidates at its translates. -/
theorem mem_candidates_of_corresponds {P : EdwardsPoint} (h : Corresponds permut x P)
    (h₀ : itemToField x permut ≠ 0) :
    ∃ T ∈ eightTorsion, ∃ r, edwardsToField (P + T) = some r ∧
      itemToField x permut ∈ candidates r := by
  obtain ⟨Q, hQ, h₈⟩ := h
  obtain ⟨Q', hQ', hu⟩ := exists_hashToPoint x permut
  obtain rfl : Q' = Q := Except.ok.inj (hQ'.symm.trans hQ)
  obtain ⟨r, hr, hs⟩ := montToField_of_map h₀
  rcases h₈ with h₈ | h₈
  · refine ⟨Q' - P, mem_eightTorsion.mpr (by rw [smul_sub, h₈, sub_self]), r, ?_, hs⟩
    rw [add_sub_cancel, edwardsToField, toMontgomery_eq, hu, hr]
  · refine ⟨-Q' - P, mem_eightTorsion.mpr (by rw [smul_sub, smul_neg, h₈, neg_neg, sub_self]), r,
      ?_, hs⟩
    rw [add_sub_cancel, edwardsToField, toMontgomery_eq,
      show montgomeryU (-Q') = montgomeryU Q' from rfl, hu, hr]

/-- **The search succeeds at the points of usable items.** -/
theorem exists_searchPoint_iff {point : EdwardsPoint} :
    (∃ x, searchPoint point permut = some x) ↔
      ∃ item, Usable permut item ∧ Corresponds permut item point := by
  constructor
  · rintro ⟨x, hx⟩
    exact ⟨x, of_searchPoint hx⟩
  · rintro ⟨item, h, hpoint⟩
    obtain ⟨T, hT, r, hr, hs⟩ := mem_candidates_of_corresponds hpoint (itemToField_ne_zero h)
    rw [← Option.isSome_iff_exists, ← Option.ne_none_iff_isSome, searchPoint, Ne,
      List.findSome?_eq_none_iff]
    intro hnone
    have hnone := hnone T hT
    rw [hr, Option.bind_some] at hnone
    exact checkItem_ne_none h hs hnone

/-- **A point that the cofactor takes to the image of the hash is recovered.** -/
theorem recoverFromPoint_eq (h : Usable permut item) (hfree : CollisionFree permut item)
    {P point : EdwardsPoint} (hP : hashToPoint item permut = .ok P) (hpt : 8 • point = 8 • P) :
    recoverFromPoint point permut = item := by
  obtain ⟨x, hx⟩ := exists_searchPoint_iff.mpr ⟨item, h, P, hP, Or.inl hpt.symm⟩
  obtain ⟨-, Q, hQ, h₈⟩ := of_searchPoint hx
  rw [recoverFromPoint_eq_getD, hx, Option.getD_some]
  rw [hpt] at h₈
  exact hfree x P Q hP hQ h₈

/-- **When the item that is returned is right.**  It hashes, under the cofactor, to the point or to
its opposite, exactly when some usable item does, or the block of zeros that is returned when none
is found. -/
theorem recoverFromPoint_corresponds_iff (point : EdwardsPoint) (permut : FeistelPrp256) :
    Corresponds permut (recoverFromPoint point permut) point ↔
      (∃ item, Usable permut item ∧ Corresponds permut item point) ∨
        Corresponds permut 0 point := by
  rw [← exists_searchPoint_iff, recoverFromPoint_eq_getD]
  cases hfound : searchPoint point permut with
  | none =>
    constructor
    · exact Or.inr
    · rintro (⟨x, hx⟩ | h)
      · cases hx
      · exact h
  | some x => exact iff_of_true (of_searchPoint hfound).2 (Or.inl ⟨x, rfl⟩)

/-! ### The cipher that leaves blocks as they are -/

/-- The network over the identity: `AES_K(R) = R`, with the keys 1, 2 and 3. -/
def identityPrp : FeistelPrp256 := .new (fun _ b => b) 0

theorem roundFunctions_identityPrp :
    identityPrp.roundFunctions = [(· ^^^ 1#128), (· ^^^ 2#128), (· ^^^ 3#128)] := rfl

theorem itemToField_identityPrp (x : Block) :
    itemToField x identityPrp = ((2 ^ 128 + (x ^^^ 3).toNat : ℕ) : FieldElement) := by
  have hx : Feistel.encrypt (· ^^^ ·) identityPrp.roundFunctions (splitHalves (padded x)) =
      (x ^^^ 3, 1) := by
    rw [padded, splitHalves_joinHalves, roundFunctions_identityPrp]
    have hzero : ∀ y : Block, 0 ^^^ y = y := fun _ => BitVec.zero_xor
    simp only [Feistel.encrypt, Feistel.round, hzero]
    refine Prod.ext ?_ ?_
    · exact BitVec.xor_assoc x 1#128 2#128
    · rw [BitVec.xor_assoc (x ^^^ 1#128), ← BitVec.xor_assoc (x ^^^ 1#128) (x ^^^ 1#128),
        BitVec.xor_self, BitVec.zero_xor]
      rfl
  have hlt := (x ^^^ 3).isLt
  have hval : (joinHalves (x ^^^ 3, 1)).toNat % 2 ^ 255 = 2 ^ 128 + (x ^^^ 3).toNat := by
    have h₁ : (1 : Block).toNat = 1 := rfl
    simp only [joinHalves, BitVec.toNat_ofNat, h₁]
    omega
  rw [itemToField, FeistelPrp256.encryptBlock, hx, fromBytes, hval]

/-- The hash of the item 3. -/
def identityHash : EdwardsPoint where
  x := (53799502328062387774096936288882148808025977225638934754445166234163843701170 : ℕ)
  y := (6628338063579220123827019676228242964474387574155498178588287407043237366000 : ℕ)
  on_curve := by decide +kernel

theorem hashToPoint_identityPrp : hashToPoint 3 identityPrp = .ok identityHash := by
  decide +kernel

theorem val_itemToField_identityPrp (x : Block) :
    (itemToField x identityPrp).val = 2 ^ 128 + (x ^^^ 3).toNat := by
  have hlt := (x ^^^ 3).isLt
  rw [itemToField_identityPrp, ZMod.val_natCast, Nat.mod_eq_of_lt (by rw [p]; omega)]

/-- What the candidates at the translates of a point have in common that lie in the window of
`2^128` field elements in which this cipher leaves the items. -/
def allInWindow (point : EdwardsPoint) (good : FieldElement → Bool) : Bool :=
  eightTorsion.all fun T => (edwardsToField (point + T)).all fun r =>
    (candidates r).all fun s => s.val / 2 ^ 128 != 1 || good s

theorem good_of_allInWindow {point : EdwardsPoint} {good : FieldElement → Bool}
    (hall : allInWindow point good = true) (h : Corresponds identityPrp x point) :
    good (itemToField x identityPrp) = true := by
  have hval := val_itemToField_identityPrp x
  have hlt := (x ^^^ 3).isLt
  have h₀ : itemToField x identityPrp ≠ 0 := by
    intro h
    rw [h, ZMod.val_zero] at hval
    omega
  have hone : (itemToField x identityPrp).val / 2 ^ 128 = 1 := by omega
  obtain ⟨T, hT, r, hr, hs⟩ := mem_candidates_of_corresponds h h₀
  have hgood := List.all_eq_true.mp hall T hT
  rw [hr, Option.all_some] at hgood
  have hgood := List.all_eq_true.mp hgood _ hs
  rw [hone] at hgood
  exact hgood

/-- No item corresponds to the basepoint under this cipher. -/
theorem not_corresponds_basepoint (x : Block) : ¬ Corresponds identityPrp x basepoint := by
  have hall : allInWindow basepoint (fun _ => false) = true := by decide +kernel
  intro h
  cases good_of_allInWindow hall h

theorem usable_identityPrp : Usable identityPrp 3 := by decide +kernel

/-- Under this cipher different items are different field elements. -/
theorem itemToField_identityPrp_inj {x y : Block}
    (h : itemToField x identityPrp = itemToField y identityPrp) : x = y := by
  have hval := congrArg ZMod.val h
  rw [val_itemToField_identityPrp, val_itemToField_identityPrp] at hval
  have hxor : x ^^^ 3 = y ^^^ 3 := BitVec.eq_of_toNat_eq (add_left_cancel hval)
  rw [← BitVec.xor_zero (x := x), ← BitVec.xor_self (x := (3 : Block)), ← BitVec.xor_assoc, hxor,
    BitVec.xor_assoc, BitVec.xor_self, BitVec.xor_zero]

/-- An item is read in a window of `2^128` field elements, so that it has no collision when the
candidates at the translates of its hash meet the window only there. -/
theorem collisionFree_of_allInWindow {item : Block} {point : EdwardsPoint}
    (hpoint : hashToPoint item identityPrp = .ok point)
    (hall : allInWindow point (· == itemToField item identityPrp) = true) :
    CollisionFree identityPrp item := by
  intro x P Q hP hQ h₈
  obtain rfl : P = point := Except.ok.inj (hP.symm.trans hpoint)
  have hgood := good_of_allInWindow hall ⟨Q, hQ, h₈⟩
  have heq : itemToField x identityPrp = itemToField item identityPrp := beq_iff_eq.mp hgood
  exact itemToField_identityPrp_inj heq

theorem collisionFree_identityPrp : CollisionFree identityPrp 3 :=
  collisionFree_of_allInWindow hashToPoint_identityPrp (by decide +kernel)

/-- **Mapping an item to the curve and back is the identity**, through the cofactor and `8⁻¹`, and
through `mul_clamped(sk_8)` and `sk_8inv`. -/
theorem recoverFromPoint_hashToPoint (h : Usable permut item) (hfree : CollisionFree permut item) :
    ∃ P, hashToPoint item permut = .ok P ∧
      recoverFromPoint (mulScalar (mulByCofactor P) (8 : Scalar)⁻¹) permut = item ∧
      ∀ raw : Bytes32, recoverFromPoint
        (mulScalar (mulClamped P (Keys.new raw).sk8) (Keys.new raw).sk8Inv) permut = item := by
  obtain ⟨P, hP, -⟩ := exists_hashToPoint item permut
  have h₈ := eight_nsmul_mem P
  refine ⟨P, hP, recoverFromPoint_eq h hfree hP ?_, fun raw => recoverFromPoint_eq h hfree hP ?_⟩
  · rw [mulByCofactor, ← one_mul (8 : Scalar)⁻¹, Keys.eight_nsmul_mulScalar h₈, mulScalar_one h₈]
  · exact Keys.eight_nsmul_mulScalar_sk8Inv raw h₈

/-- The item 3 under the identity cipher. -/
theorem recoverFromPoint_hashToPoint_identityPrp :
    ∃ P, hashToPoint 3 identityPrp = .ok P ∧
      recoverFromPoint (mulScalar (mulByCofactor P) (8 : Scalar)⁻¹) identityPrp = 3 ∧
      ∀ raw : Bytes32, recoverFromPoint
        (mulScalar (mulClamped P (Keys.new raw).sk8) (Keys.new raw).sk8Inv) identityPrp = 3 :=
  recoverFromPoint_hashToPoint usable_identityPrp collisionFree_identityPrp

end MaliciousPsu
