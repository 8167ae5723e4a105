import MaliciousPsu.Lib.Feistel
import MaliciousPsu.Montgomery
import MaliciousPsu.Rust

/-!
# Items as points

`mapping.rs`.  An item of 16 bytes is padded, enciphered by a Feistel network over AES, read as a
field element and mapped to the curve by Elligator 2.  The way back searches: an encoding does not
tell which of its two ciphertexts it had (bit 255), nor a point its field element (two branches,
two signs each) or its component in `E[8]`.  The block cipher is any function `aes` of a key and a
block.

* `decryptBlock_encryptBlock`, `encryptBlock_decryptBlock`: the network is a permutation.
* `fieldToMont_eq`: `field_to_mont` computes the Elligator map.
* `exists_hashToPoint`: no panic; a hash has the Elligator map of its field element as its `u`.
* `montToField_preimages`: `mont_to_field` finds exactly the preimages of `u`.
-/

namespace MaliciousPsu

open FieldElement

/-! ### The permutation of 32-byte blocks -/

/-- `split_at_mut(16)`. -/
def splitHalves (b : Bytes32) : Block × Block :=
  (BitVec.ofNat 128 b.toNat, BitVec.ofNat 128 (b.toNat / 2 ^ 128))

/-- The 32 bytes with these halves. -/
def joinHalves (x : Block × Block) : Bytes32 := BitVec.ofNat 256 (x.1.toNat + 2 ^ 128 * x.2.toNat)

@[simp] theorem splitHalves_joinHalves (x : Block × Block) : splitHalves (joinHalves x) = x := by
  have h₁ := x.1.isLt
  have h₂ := x.2.isLt
  refine Prod.ext (BitVec.eq_of_toNat_eq ?_) (BitVec.eq_of_toNat_eq ?_)
  · simp only [splitHalves, joinHalves, BitVec.toNat_ofNat]
    omega
  · simp only [splitHalves, joinHalves, BitVec.toNat_ofNat]
    omega

@[simp] theorem joinHalves_splitHalves (b : Bytes32) : joinHalves (splitHalves b) = b := by
  have h := b.isLt
  refine BitVec.eq_of_toNat_eq ?_
  simp only [splitHalves, joinHalves, BitVec.toNat_ofNat]
  omega

/-- `FeistelPrp256`: the three round keys and the ciphers under them. -/
structure FeistelPrp256 where
  roundKeys : List Block
  rounds : List (Block → Block)

namespace FeistelPrp256

/-- `FeistelPrp256::new`: key `i` is the encryption of `i + 1` under the master key. -/
def new (aes : Block → Block → Block) (master : Block) : FeistelPrp256 :=
  let roundKeys := (List.range 3).map fun i => aes master (BitVec.ofNat 128 (i + 1))
  ⟨roundKeys, roundKeys.map aes⟩

/-- The round functions `R ↦ AES_K(R ⊕ K)`. -/
def roundFunctions (permut : FeistelPrp256) : List (Block → Block) :=
  List.zipWith (fun rk round r => round (r ^^^ rk)) permut.roundKeys permut.rounds

/-- `encrypt_block`. -/
def encryptBlock (permut : FeistelPrp256) (block : Bytes32) : Bytes32 :=
  joinHalves (Feistel.encrypt (· ^^^ ·) permut.roundFunctions (splitHalves block))

/-- `decrypt_block`. -/
def decryptBlock (permut : FeistelPrp256) (block : Bytes32) : Bytes32 :=
  joinHalves (Feistel.decrypt (· ^^^ ·) permut.roundFunctions (splitHalves block))

theorem xor_xor_cancel (a b : Block) : a ^^^ b ^^^ b = a := by
  rw [BitVec.xor_assoc, BitVec.xor_self, BitVec.xor_zero]

@[simp] theorem decryptBlock_encryptBlock (permut : FeistelPrp256) (b : Bytes32) :
    permut.decryptBlock (permut.encryptBlock b) = b := by
  rw [decryptBlock, encryptBlock, splitHalves_joinHalves, Feistel.decrypt_encrypt xor_xor_cancel,
    joinHalves_splitHalves]

@[simp] theorem encryptBlock_decryptBlock (permut : FeistelPrp256) (b : Bytes32) :
    permut.encryptBlock (permut.decryptBlock b) = b := by
  rw [decryptBlock, encryptBlock, splitHalves_joinHalves, Feistel.encrypt_decrypt xor_xor_cancel,
    joinHalves_splitHalves]

end FeistelPrp256

/-! ### Field elements and abscissas -/

/-- `field_to_mont`. -/
def fieldToMont (r : FieldElement) : MontgomeryPoint :=
  let uSquared := r ^ 2
  let zu := feZ * uSquared
  let v := zu + 1
  let vSquared := v ^ 2
  let t3 := (feA ^ 2 * zu - vSquared) * feA
  let t1 := vSquared * v
  let s := sqrtRatioI 1 (t3 * t1)
  let u := if s.1 then 1 else uSquared * (-feZ * sqrtM1)
  let t1Squared := s.2 ^ 2
  let x := -u * feA * t3 * vSquared * t1Squared
  asBytes x

/-- `mont_to_field`. -/
def montToField (m : MontgomeryPoint) : Option (FieldElement × FieldElement) :=
  let u := fromBytes m
  if u = -feA then none
  else
    let t := u + feA
    let zu := -feZ * u
    let s := sqrtRatioI 1 (zu * t)
    if s.1 then some (abs (t * s.2), abs (u * s.2)) else none

/-- `field_to_edwards`. -/
def fieldToEdwards (r : FieldElement) : Run EdwardsPoint := unwrap (toEdwards (fieldToMont r) 0)

/-- `edwards_to_field`. -/
def edwardsToField (P : EdwardsPoint) : Option (FieldElement × FieldElement) :=
  montToField (toMontgomery P)

/-- `t3·t1` of `field_to_mont` is the value of the curve at the first candidate, times `v⁶`. -/
theorem t3_mul_t1 (r : FieldElement) :
    (feA ^ 2 * (feZ * r ^ 2) - (feZ * r ^ 2 + 1) ^ 2) * feA *
      ((feZ * r ^ 2 + 1) ^ 2 * (feZ * r ^ 2 + 1)) =
    curve25519.mont (curve25519.first r) * ((feZ * r ^ 2 + 1) ^ 3) ^ 2 := by
  have hv : curve25519.den r ≠ 0 := Elligator.den_ne_zero
  rw [Elligator.mont, Elligator.first]
  have hd : feZ * r ^ 2 + 1 = curve25519.den r := add_comm _ _
  have hz : feZ * r ^ 2 = curve25519.den r - 1 := by rw [← hd, add_sub_cancel_right]
  rw [hd, hz]
  rw [show curve25519.A = feA from rfl]
  field_simp
  ring

/-- `field_to_mont` computes the Elligator map. -/
theorem fieldToMont_eq (r : FieldElement) : fieldToMont r = asBytes (curve25519.map r) := by
  have hv : feZ * r ^ 2 + 1 ≠ 0 := by
    rw [add_comm]
    exact Elligator.den_ne_zero (E := curve25519)
  have hw : curve25519.first r * (feZ * r ^ 2 + 1) = -feA := by
    rw [add_comm]
    exact Elligator.first_mul_den
  have hsecond := Elligator.second_eq (E := curve25519) (r := r)
  have ht := t3_mul_t1 r
  have hv₆ : ((feZ * r ^ 2 + 1) ^ 3) ^ 2 ≠ 0 := pow_ne_zero 2 (pow_ne_zero 3 hv)
  have hw₀ : curve25519.mont (curve25519.first r) ≠ 0 := fun h =>
    Elligator.first_ne_zero (Elligator.mont_eq_zero_iff.mp h)
  have ht₀ := mul_ne_zero hw₀ hv₆
  rw [← ht] at ht₀
  rw [fieldToMont, Elligator.map]
  refine congrArg asBytes ?_
  set t3 := (feA ^ 2 * (feZ * r ^ 2) - (feZ * r ^ 2 + 1) ^ 2) * feA
  set s := sqrtRatioI 1 (t3 * ((feZ * r ^ 2 + 1) ^ 2 * (feZ * r ^ 2 + 1)))
  -- The test on `t3·t1` is the test on the first candidate: `v⁶` is a square.
  by_cases hsq : IsSquare (curve25519.mont (curve25519.first r))
  · have hM := hsq.mul (IsSquare.sq ((feZ * r ^ 2 + 1) ^ 3))
    rw [← ht] at hM
    obtain ⟨h₁, h₂, -⟩ := sqrtRatioI_of_isSquare one_ne_zero ht₀ (by rwa [one_mul])
    rw [if_pos h₁, if_pos hsq]
    linear_combination curve25519.first r * h₂ - t3 * (feZ * r ^ 2 + 1) ^ 2 * s.2 ^ 2 * hw
  · have hM := Elligator.not_isSquare_mul_sq hsq (pow_ne_zero 3 hv)
    rw [← ht] at hM
    obtain ⟨h₁, h₂, -⟩ := sqrtRatioI_of_not_isSquare one_ne_zero ht₀ (by rwa [one_mul])
    rw [if_neg (by rw [h₁]; decide), if_neg hsq, hsecond, show curve25519.Z = feZ from rfl]
    linear_combination r ^ 2 * feZ * sqrtM1 * (t3 * (feZ * r ^ 2 + 1) ^ 2 * s.2 ^ 2 * hw -
      curve25519.first r * h₂) - r ^ 2 * feZ * curve25519.first r * sqrtM1_mul_self

theorem map_ne_neg_one (r : FieldElement) : curve25519.map r ≠ -1 := by
  intro h
  have hsq := Elligator.isSquare_mont_map (E := curve25519) (r := r)
  rw [h, Elligator.mont, show curve25519.A = feA from rfl] at hsq
  refine not_isSquare_feA_sub_two ?_
  convert hsq using 1
  ring

/-- **`field_to_edwards` does not panic**; the point has the Elligator map for its `u`. -/
theorem exists_fieldToEdwards (r : FieldElement) :
    ∃ P, fieldToEdwards r = .ok P ∧ montgomeryU P = curve25519.map r := by
  obtain ⟨P, hP, hu⟩ := toEdwards_asBytes (map_ne_neg_one r) Elligator.isSquare_mont_map
  exact ⟨P, by rw [fieldToEdwards, fieldToMont_eq, hP, unwrap_some], hu⟩

/-- The field elements that `check_item` tries: the two representatives and their opposites. -/
def candidates (r : FieldElement × FieldElement) : List FieldElement := [r.1, -r.1, r.2, -r.2]

theorem mem_candidates {r : FieldElement × FieldElement} {s : FieldElement} :
    s ∈ candidates r ↔ s ^ 2 = r.1 ^ 2 ∨ s ^ 2 = r.2 ^ 2 := by
  simp [candidates, sq_eq_sq_iff_eq_or_eq_neg, or_assoc]

/-- What `mont_to_field` finds are preimages. -/
theorem map_of_montToField {u s : FieldElement} {r : FieldElement × FieldElement}
    (hsq : IsSquare (curve25519.mont u)) (h : montToField (asBytes u) = some r)
    (hs : s ∈ candidates r) : u ≠ 0 ∧ curve25519.map s = u := by
  simp only [montToField, fromBytes_asBytes] at h
  split at h
  · cases h
  split at h
  · next hroot =>
    have hone := mul_sq_of_sqrtRatioI hroot
    set t := (sqrtRatioI 1 (-feZ * u * (u + feA))).2
    have hu : u ≠ 0 := by
      rintro rfl
      simp at hone
    refine ⟨hu, (Elligator.map_eq_iff hu).mpr ⟨hsq, ?_⟩⟩
    rw [show curve25519.A = feA from rfl, show curve25519.Z = feZ from rfl]
    obtain rfl := Option.some.inj h
    rcases mem_candidates.mp hs with hs | hs
    · left
      rw [hs, abs_sq]
      linear_combination (u + feA) * hone
    · right
      rw [hs, abs_sq]
      linear_combination u * hone
  · cases h

/-- `mont_to_field` finds every preimage but `0`. -/
theorem montToField_of_map {s : FieldElement} (hs : s ≠ 0) :
    ∃ r, montToField (asBytes (curve25519.map s)) = some r ∧ s ∈ candidates r := by
  have hu := Elligator.map_ne_zero (E := curve25519) hs
  have hA := Elligator.map_ne_neg_A (E := curve25519) hs
  obtain ⟨-, hpre⟩ := (Elligator.map_eq_iff hu).mp (rfl : curve25519.map s = _)
  rw [show curve25519.A = feA from rfl, show curve25519.Z = feZ from rfl] at hpre
  rw [show curve25519.A = feA from rfl] at hA
  generalize curve25519.map s = u at hu hA hpre
  have ht : u + feA ≠ 0 := fun h => hA (eq_neg_of_add_eq_zero_left h)
  have hz : feZ ≠ 0 := Elligator.Z_ne curve25519
  have hne : -feZ * u * (u + feA) ≠ 0 := mul_ne_zero (mul_ne_zero (neg_ne_zero.mpr hz) hu) ht
  simp only [montToField, fromBytes_asBytes, if_neg hA]
  -- A preimage by either branch makes `-Z·u·(u + A)` the inverse of a square.
  rcases hpre with h | h
  · have hroot : -feZ * u * (u + feA) * (s / (u + feA)) ^ 2 = 1 := by
      field_simp
      linear_combination h
    rw [sqrtRatioI_of_mul_sq hne hroot]
    refine ⟨_, rfl, mem_candidates.mpr (Or.inl ?_)⟩
    rw [abs_sq, mul_pow, abs_sq, ← mul_pow, mul_div_cancel₀ _ ht]
  · have hroot : -feZ * u * (u + feA) * (s / u) ^ 2 = 1 := by
      field_simp
      linear_combination h
    rw [sqrtRatioI_of_mul_sq hne hroot]
    refine ⟨_, rfl, mem_candidates.mpr (Or.inr ?_)⟩
    rw [abs_sq, mul_pow, abs_sq, ← mul_pow, mul_div_cancel₀ _ hu]

/-- `A` is no square, so that `0` has the second candidate for its image. -/
theorem map_zero : curve25519.map 0 = 0 := by
  have hA : ¬ IsSquare feA :=
    not_isSquare_of_powMod (a := 486662) (by decide) (by decide +kernel) (by decide +kernel)
  have hfirst : curve25519.first 0 = -feA := by
    rw [Elligator.first, Elligator.den, show curve25519.A = feA from rfl]
    simp
  have hmont : curve25519.mont (-feA) = -feA := by
    rw [Elligator.mont, show curve25519.A = feA from rfl]
    ring
  have hnot : ¬ IsSquare (curve25519.mont (curve25519.first 0)) := by
    rw [hfirst, hmont]
    intro h
    refine hA ?_
    rw [← neg_neg feA, ← neg_one_mul]
    exact curve25519.isSquare_neg_one.mul h
  rw [Elligator.map, if_neg hnot, hfirst, show curve25519.A = feA from rfl]
  ring

theorem ne_zero_of_map {r u : FieldElement} (hu : u ≠ 0) (h : curve25519.map r = u) : r ≠ 0 := by
  rintro rfl
  exact hu (h ▸ map_zero)

theorem fieldToMont_eq_iff {r u : FieldElement} :
    fieldToMont r = asBytes u ↔ curve25519.map r = u := by
  rw [fieldToMont_eq, asBytes_injective.eq_iff]

/-- `mont_to_field` reads nothing of an encoding but its field element. -/
theorem montToField_asBytes {m : MontgomeryPoint} :
    montToField m = montToField (asBytes (fromBytes m)) := by
  rw [montToField, montToField, fromBytes_asBytes]

/-- **`mont_to_field` computes exactly the preimages of `field_to_mont`**: it returns two of them,
which with their opposites are all, and returns nothing when there are none. -/
theorem montToField_preimages {m : MontgomeryPoint} {u : FieldElement} (hm : fromBytes m = u)
    (hu : u ≠ 0) (hsq : IsSquare (u ^ 3 + feA * u ^ 2 + u)) :
    ((montToField m).isSome ↔ ∃ r, fieldToMont r = asBytes u) ∧
    (∀ r₀ r₁, montToField m = some (r₀, r₁) →
      {r | fieldToMont r = asBytes u} = {r₀, -r₀, r₁, -r₁}) ∧
    ∀ r ≠ 0, ∃ r₀ r₁, montToField (fieldToMont r) = some (r₀, r₁) ∧
      (r ∈ [r₀, r₁] ∨ -r ∈ [r₀, r₁]) := by
  have hmont : IsSquare (curve25519.mont u) := hsq
  rw [montToField_asBytes, hm]
  simp only [fieldToMont_eq_iff]
  refine ⟨⟨fun hsome => ?_, fun ⟨r, hr⟩ => ?_⟩, fun r₀ r₁ hpair => ?_, fun r hr => ?_⟩
  · obtain ⟨r, hr⟩ := Option.isSome_iff_exists.mp hsome
    exact ⟨r.1, (map_of_montToField hmont hr (mem_candidates.mpr (Or.inl rfl))).2⟩
  · obtain ⟨c, hc, -⟩ := montToField_of_map (ne_zero_of_map hu hr)
    rw [← hr, hc]
    rfl
  · have hmem : ∀ s, s ∈ candidates (r₀, r₁) ↔
        s ∈ ({r₀, -r₀, r₁, -r₁} : Set FieldElement) := fun s => by simp [candidates]
    ext s
    rw [← hmem]
    constructor
    · intro hs
      obtain ⟨c, hc, hsc⟩ := montToField_of_map (ne_zero_of_map hu hs)
      rw [show curve25519.map s = u from hs, hpair] at hc
      exact Option.some.inj hc ▸ hsc
    · exact fun hs => (map_of_montToField hmont hpair hs).2
  · obtain ⟨⟨r₀, r₁⟩, hc, hs⟩ := montToField_of_map hr
    refine ⟨r₀, r₁, by rw [fieldToMont_eq, hc], ?_⟩
    simp only [candidates, List.mem_cons, List.not_mem_nil, or_false] at hs
    rcases hs with rfl | rfl | rfl | rfl
    · exact Or.inl (by simp)
    · exact Or.inr (by simp)
    · exact Or.inl (by simp)
    · exact Or.inr (by simp)

/-- The abscissa `9` of the basepoint. -/
theorem montToField_preimages_nine : let u : FieldElement := 9
    ((montToField 9).isSome ↔ ∃ r, fieldToMont r = asBytes u) ∧
    (∀ r₀ r₁, montToField 9 = some (r₀, r₁) →
      {r | fieldToMont r = asBytes u} = {r₀, -r₀, r₁, -r₁}) ∧
    ∀ r ≠ 0, ∃ r₀ r₁, montToField (fieldToMont r) = some (r₀, r₁) ∧
      (r ∈ [r₀, r₁] ∨ -r ∈ [r₀, r₁]) :=
  montToField_preimages (by decide +kernel) (by decide +kernel)
    ⟨(14781619447589544791020593568409986887264606134616475288964881837755586237401 : ℕ),
      by decide +kernel⟩

/-! ### Items and points -/

/-- The block that is enciphered: the item, and 16 zero bytes. -/
def padded (item : Block) : Bytes32 := joinHalves (item, 0)

/-- The field element that an item is hashed to. -/
def itemToField (item : Block) (permut : FeistelPrp256) : FieldElement :=
  fromBytes (permut.encryptBlock (padded item))

/-- `hash_to_point`. -/
def hashToPoint (item : Block) (permut : FeistelPrp256) : Run EdwardsPoint :=
  fieldToEdwards (itemToField item permut)

/-- `check_bytes`, the item it writes to `result` when it returns `true`: the bytes are tried as
they are, and then with bit 255 set. -/
def checkBytes (bytes : Bytes32) (permut : FeistelPrp256) : Option Block :=
  let bytesNc := splitHalves (permut.decryptBlock (bytes ||| BitVec.twoPow 256 255))
  let bytes := splitHalves (permut.decryptBlock bytes)
  if bytes.2 = 0 then some bytes.1
  else if bytesNc.2 = 0 then some bytesNc.1
  else none

/-- `check_item`. -/
def checkItem (r : FieldElement × FieldElement) (permut : FeistelPrp256) : Option Block :=
  (candidates r).findSome? fun s => checkBytes (asBytes s) permut

/-- `recover_from_point`: the item of the first translate by `E[8]` that has one, or zeros. -/
def recoverFromPoint (point : EdwardsPoint) (permut : FeistelPrp256) : Block :=
  (EdwardsPoint.eightTorsion.findSome? fun T =>
    (edwardsToField (point + T)).bind fun r => checkItem r permut).getD 0

/-- **`hash_to_point` does not panic.** -/
theorem exists_hashToPoint (item : Block) (permut : FeistelPrp256) :
    ∃ P, hashToPoint item permut = .ok P ∧
      montgomeryU P = curve25519.map (itemToField item permut) :=
  exists_fieldToEdwards _

end MaliciousPsu
