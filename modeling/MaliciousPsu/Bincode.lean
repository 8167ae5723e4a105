import MaliciousPsu.Channel

/-!
# The default format of bincode

A `u32` for the variant of an enumeration, a `u64` for the length of a `Vec`, everything
little-endian and one field after the other in the order of the source; points and scalars as
their 32 bytes, which must be those of a point and of a scalar below `ℓ`.

* `bincode`: a serializer as the channel needs it.
-/

namespace MaliciousPsu

namespace Bincode

/-! ### Words -/

/-- `k` bytes, little-endian. -/
def word (k : ℕ) : Serial UInt8 (BitVec (8 * k)) :=
  .fixed k (fun b => leBytes k b.toNat) (fun bs => some (BitVec.ofNat (8 * k) (leNat bs)))
    (fun b => length_leBytes k b.toNat) fun b => by
      have hlt : b.toNat < 256 ^ k := by
        rw [show 256 = 2 ^ 8 from rfl, ← pow_mul]
        exact b.isLt
      rw [leNat_leBytes k b.toNat hlt, BitVec.ofNat_toNat, BitVec.setWidth_eq]

/-- `[u8; 32]`. -/
def bytes32 : Serial UInt8 Bytes32 := word 32

/-- `u32`. -/
def u32 : Serial UInt8 UInt32 := (word 4).map UInt32.ofBitVec UInt32.toBitVec

/-- `u64`, for the length of a `Vec`. -/
def u64 : Serial UInt8 ℕ := (word 8).map BitVec.toNat (BitVec.ofNat 64)

/-- A `Scalar`. -/
def scalar : Serial UInt8 Scalar :=
  .fixed 32 (fun s => Bytes32.bytes s.asBytes)
    (fun bs => Scalar.fromCanonicalBytes (BitVec.ofNat 256 (leNat bs)))
    (fun s => Bytes32.length_bytes s.asBytes) fun s => by
      rw [Bytes32.leNat_bytes, BitVec.ofNat_toNat, BitVec.setWidth_eq,
        Scalar.fromCanonicalBytes_asBytes]

/-- An `EdwardsPoint`. -/
def point : Serial UInt8 EdwardsPoint :=
  .fixed 32 (fun P => Bytes32.bytes (compress P))
    (fun bs => decompress (BitVec.ofNat 256 (leNat bs)))
    (fun P => Bytes32.length_bytes (compress P)) fun P => by
      rw [Bytes32.leNat_bytes, BitVec.ofNat_toNat, BitVec.setWidth_eq,
        PointEncoding.decompress_compress]

/-- A `Vec`. -/
def vec {α : Type} (A : Serial UInt8 α) : Serial UInt8 (List α) := .list u64 A

theorem length_bytes32 (b : Bytes32) : (bytes32.enc b).length = 32 := length_leBytes 32 b.toNat

theorem length_u32 (n : UInt32) : (u32.enc n).length = 4 := length_leBytes 4 _

theorem length_scalar (s : Scalar) : (scalar.enc s).length = 32 := Bytes32.length_bytes s.asBytes

theorem length_point (P : EdwardsPoint) : (point.enc P).length = 32 :=
  Bytes32.length_bytes (compress P)

theorem length_vec {α : Type} {A : Serial UInt8 α} {w : ℕ} (h : ∀ a, (A.enc a).length = w)
    (l : List α) : ((vec A).enc l).length = 8 + w * l.length := by
  have hcount : (u64.enc l.length).length = 8 := length_leBytes 8 _
  rw [← A.length_encList h, ← hcount]
  show (u64.enc l.length ++ A.encList l).length = _
  exact List.length_append

theorem valid_u64 {n : ℕ} (h : n < 2 ^ 64) : u64.Valid n :=
  ⟨trivial, by rw [BitVec.toNat_ofNat, Nat.mod_eq_of_lt h]⟩

theorem valid_vec {α : Type} {A : Serial UInt8 α} (h : ∀ a, A.Valid a) {l : List α}
    (hl : l.length < 2 ^ 64) : (vec A).Valid l := ⟨valid_u64 hl, fun a _ => h a⟩

/-! ### Proofs -/

/-- `KnownContentProof`. -/
def knownContentProof : Serial UInt8 KnownContentProof :=
  (bytes32.pair <| bytes32.pair <| bytes32.pair <| (vec scalar).pair <| (vec scalar).pair <|
    scalar.pair scalar).map
    (fun (_cD, _cDelta, _cA, f, fDelta, z, zDelta) => ⟨_cD, _cDelta, _cA, f, fDelta, z, zDelta⟩)
    fun psi => (psi._cD, psi._cDelta, psi._cA, psi.f, psi.fDelta, psi.z, psi.zDelta)

/-- `AdaptedShuffleProof`. -/
def adaptedShuffleProof : Serial UInt8 AdaptedShuffleProof :=
  (bytes32.pair <| bytes32.pair <| bytes32.pair <| bytes32.pair <| bytes32.pair <| bytes32.pair <|
    (vec scalar).pair <| scalar.pair <| scalar.pair knownContentProof).map
    (fun (_cPi, _cD, _gD, _cZ, _gU, _cU, x, v, v2, psi) =>
      ⟨_cPi, _cD, _gD, _cZ, _gU, _cU, x, v, v2, psi⟩)
    fun proof => (proof._cPi, proof._cD, proof._gD, proof._cZ, proof._gU, proof._cU, proof.x,
      proof.v, proof.v2, proof.psi)

/-- `BatchedDDHProof`. -/
def batchedDDHProof : Serial UInt8 BatchedDDHProof :=
  (bytes32.pair scalar).map (fun (_c, z) => ⟨_c, z⟩) fun proof => (proof._c, proof.z)

/-! ### Messages -/

instance : Inhabited AdaptedShuffleProof :=
  ⟨⟨0, 0, 0, 0, 0, 0, [], 0, 0, ⟨0, 0, 0, [], [], 0, 0⟩⟩⟩

instance : Inhabited BatchedDDHProof := ⟨⟨0, 0⟩⟩

/-- The index of a variant. -/
def variantIndex : Message → ℕ
  | .round1 _ => 0
  | .round2 _ _ => 1
  | .round3 _ _ => 2
  | .round4 _ _ _ => 3
  | .hashDH _ => 4
  | .hashDH2 _ => 5

/-- The content of a variant. -/
def variant : ℕ → Option (Serial UInt8 Message)
  | 0 => some <| bytes32.map .round1 fun
      | .round1 sigma => sigma
      | _ => 0
  | 1 => some <| (point.pair (vec bytes32)).map (fun (pk, points) => .round2 pk points) fun
      | .round2 pk points => (pk, points)
      | _ => (0, [])
  | 2 => some <| (adaptedShuffleProof.pair (vec bytes32)).map
      (fun (proof, points) => .round3 proof points) fun
      | .round3 proof points => (proof, points)
      | _ => default
  | 3 => some <| (batchedDDHProof.pair <| (vec bytes32).pair (vec u32)).map
      (fun (proof, unblinded, ind) => .round4 proof unblinded ind) fun
      | .round4 proof unblinded ind => (proof, unblinded, ind)
      | _ => default
  | 4 => some <| (vec bytes32).map .hashDH fun
      | .hashDH points => points
      | _ => []
  | 5 => some <| (vec bytes32).map .hashDH2 fun
      | .hashDH2 points => points
      | _ => []
  | _ => none

/-- `Message`. -/
def message : Serial UInt8 Message :=
  .tagged ((word 4).map BitVec.toNat (BitVec.ofNat 32)) variantIndex variant

theorem length_of_variant {m : Message} {A : Serial UInt8 Message}
    (h : variant (variantIndex m) = some A) :
    (message.enc m).length = 4 + (A.enc m).length := by
  have htag : (((word 4).map BitVec.toNat (BitVec.ofNat 32)).enc (variantIndex m)).length = 4 :=
    length_leBytes 4 _
  rw [message, Serial.length_tagged h, htag]

theorem length_message (m : Message) : (message.enc m).length = m.size := by
  cases m with
  | round1 sigma =>
    refine (length_of_variant rfl).trans ?_
    rw [Serial.enc_map, length_bytes32]
    rfl
  | round2 pk points =>
    refine (length_of_variant rfl).trans ?_
    simp only [Serial.enc_map, Serial.length_pair, length_point, length_vec length_bytes32,
      Message.size]
    omega
  | round3 proof points =>
    refine (length_of_variant rfl).trans ?_
    simp only [Serial.enc_map, Serial.length_pair, adaptedShuffleProof,
      knownContentProof, length_bytes32, length_scalar, length_vec length_bytes32,
      length_vec length_scalar, Message.size]
    omega
  | round4 proof unblinded ind =>
    refine (length_of_variant rfl).trans ?_
    simp only [Serial.enc_map, Serial.length_pair, batchedDDHProof, length_bytes32,
      length_scalar, length_vec length_bytes32, length_vec length_u32, Message.size]
    omega
  | hashDH points =>
    refine (length_of_variant rfl).trans ?_
    simp only [Serial.enc_map, length_vec length_bytes32, Message.size]
    omega
  | hashDH2 points =>
    refine (length_of_variant rfl).trans ?_
    simp only [Serial.enc_map, length_vec length_bytes32, Message.size]
    omega

theorem valid_bytes32 {l : List Bytes32} (h : l.length < 2 ^ 64) : (vec bytes32).Valid l :=
  valid_vec (fun _ => trivial) h

theorem valid_scalars {l : List Scalar} (h : l.length < 2 ^ 64) : (vec scalar).Valid l :=
  valid_vec (fun _ => trivial) h

theorem valid_indices {l : List UInt32} (h : l.length < 2 ^ 64) : (vec u32).Valid l :=
  valid_vec (A := u32) (fun _ => ⟨trivial, rfl⟩) h

theorem valid_message {m : Message} (h : m.Encodable) : message.Valid m := by
  cases m with
  | round1 sigma => exact Serial.valid_tagged ⟨trivial, rfl⟩ rfl ⟨trivial, rfl⟩
  | round2 pk points =>
    exact Serial.valid_tagged ⟨trivial, rfl⟩ rfl ⟨⟨trivial, valid_bytes32 h⟩, rfl⟩
  | round3 proof points =>
    obtain ⟨hx, hf, hfDelta, hpoints⟩ := h
    have hpsi : knownContentProof.Valid proof.psi :=
      ⟨⟨trivial, trivial, trivial, valid_scalars hf, valid_scalars hfDelta, trivial, trivial⟩, rfl⟩
    have hproof : adaptedShuffleProof.Valid proof :=
      ⟨⟨trivial, trivial, trivial, trivial, trivial, trivial, valid_scalars hx, trivial, trivial,
        hpsi⟩, rfl⟩
    exact Serial.valid_tagged ⟨trivial, rfl⟩ rfl ⟨⟨hproof, valid_bytes32 hpoints⟩, rfl⟩
  | round4 proof unblinded ind =>
    obtain ⟨hunblinded, hind⟩ := h
    have hproof : batchedDDHProof.Valid proof := ⟨⟨trivial, trivial⟩, rfl⟩
    exact Serial.valid_tagged ⟨trivial, rfl⟩ rfl
      ⟨⟨hproof, valid_bytes32 hunblinded, valid_indices hind⟩, rfl⟩
  | hashDH points => exact Serial.valid_tagged ⟨trivial, rfl⟩ rfl ⟨valid_bytes32 h, rfl⟩
  | hashDH2 points => exact Serial.valid_tagged ⟨trivial, rfl⟩ rfl ⟨valid_bytes32 h, rfl⟩

end Bincode

/-- `bincode::serialize` and `bincode::deserialize`, which leaves the bytes after a message. -/
def bincode : Bincode where
  serialize := Bincode.message.enc
  deserialize bytes := (Bincode.message.dec bytes).map Prod.fst
  length_serialize := Bincode.length_message
  deserialize_serialize {m} hm := by
    have h := Bincode.message.dec_enc (Bincode.valid_message hm) []
    rw [List.append_nil] at h
    rw [h, Option.map_some]
  deserialize_take {m k} hm hk := by
    rw [Bincode.message.dec_take (Bincode.valid_message hm)
      (hk.trans_eq (Bincode.length_message m).symm), Option.map_none]

end MaliciousPsu
