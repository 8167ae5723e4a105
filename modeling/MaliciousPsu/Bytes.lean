import Mathlib.Data.List.Basic
import Mathlib.Data.Nat.ModEq
import Mathlib.Tactic.Ring

/-!
# Byte arrays

A `[u8; 32]` is a `BitVec 256` and a `[u8; 16]` a `BitVec 128`, both little-endian: byte `i` is
bits `8·i … 8·i+7`.  A `Vec<u8>` is a `List UInt8`.

* `leBytes`, `leNat`: little-endian bytes of a number, and back.
* `chunksExact`: `chunks_exact(16)`, with the bytes that do not fill a block dropped.
-/

namespace MaliciousPsu

/-- `[u8; 32]`. -/
abbrev Bytes32 := BitVec 256

/-- `[u8; 16]`. -/
abbrev Block := BitVec 128

/-- The `k` little-endian bytes of `n % 256 ^ k`. -/
def leBytes : ℕ → ℕ → List UInt8
  | 0, _ => []
  | k + 1, n => UInt8.ofNat n :: leBytes k (n / 256)

/-- The number a little-endian byte string spells. -/
def leNat : List UInt8 → ℕ
  | [] => 0
  | b :: bs => b.toNat + 256 * leNat bs

@[simp] theorem length_leBytes : ∀ k n, (leBytes k n).length = k
  | 0, _ => rfl
  | k + 1, n => by simp [leBytes, length_leBytes k]

theorem leNat_leBytes_mod : ∀ k n, leNat (leBytes k n) = n % 256 ^ k
  | 0, n => by simp [leBytes, leNat, Nat.mod_one]
  | k + 1, n => by
      rw [leBytes, leNat, leNat_leBytes_mod k, UInt8.toNat_ofNat']
      exact (pow_succ' 256 k ▸ Nat.mod_mul).symm

theorem leNat_leBytes (k n : ℕ) (h : n < 256 ^ k) : leNat (leBytes k n) = n := by
  rw [leNat_leBytes_mod, Nat.mod_eq_of_lt h]

theorem leBytes_leNat : ∀ bs : List UInt8, leBytes bs.length (leNat bs) = bs
  | [] => rfl
  | b :: bs => by
      have ih := leBytes_leNat bs
      have hb := b.toNat_lt
      simp only [List.length_cons, leBytes, leNat]
      rw [show (b.toNat + 256 * leNat bs) / 256 = leNat bs by omega, ih]
      congr 1
      rw [← UInt8.toNat_inj, UInt8.toNat_ofNat']
      omega

theorem leBytes_concat : ∀ k n, leBytes (k + 1) n = leBytes k n ++ [UInt8.ofNat (n / 256 ^ k)]
  | 0, n => by rw [pow_zero, Nat.div_one]; rfl
  | k + 1, n => by
      rw [leBytes, leBytes_concat k, leBytes, List.cons_append, Nat.div_div_eq_div_mul, pow_succ']

theorem leBytes_mod (k n : ℕ) : leBytes k (n % 256 ^ k) = leBytes k n := by
  have h := leBytes_leNat (leBytes k n)
  rwa [length_leBytes, leNat_leBytes_mod] at h

/-- The bytes of a `[u8; 32]`. -/
def Bytes32.bytes (b : Bytes32) : List UInt8 := leBytes 32 b.toNat

/-- The bytes of a `[u8; 16]`. -/
def Block.bytes (b : Block) : List UInt8 := leBytes 16 b.toNat

/-- The `[u8; 16]` with these bytes. -/
def Block.ofBytes (bs : List UInt8) : Block := BitVec.ofNat 128 (leNat bs)

@[simp] theorem Bytes32.length_bytes (b : Bytes32) : (Bytes32.bytes b).length = 32 :=
  length_leBytes 32 _

@[simp] theorem Block.length_bytes (b : Block) : (Block.bytes b).length = 16 :=
  length_leBytes 16 _

@[simp] theorem Block.ofBytes_bytes (b : Block) : Block.ofBytes (Block.bytes b) = b := by
  rw [Block.ofBytes, Block.bytes, leNat_leBytes 16 _ (by have := b.isLt; omega)]
  simp

theorem Bytes32.leNat_bytes (b : Bytes32) : leNat (Bytes32.bytes b) = b.toNat :=
  leNat_leBytes 32 _ (by have := b.isLt; omega)

/-! ### Blocks of an input -/

/-- `chunks_exact(16)` on `fuel` bytes at most, each chunk read as a block. -/
def chunksAux : ℕ → List UInt8 → List Block
  | 0, _ => []
  | fuel + 1, bs =>
      if bs.length < 16 then [] else Block.ofBytes (bs.take 16) :: chunksAux fuel (bs.drop 16)

/-- `input.chunks_exact(16)`: the 16-byte blocks of `input`, the remainder dropped. -/
def chunksExact (bs : List UInt8) : List Block := chunksAux bs.length bs

theorem length_chunksAux_le : ∀ (fuel : ℕ) (bs : List UInt8), (chunksAux fuel bs).length ≤ fuel
  | 0, _ => Nat.le_refl 0
  | fuel + 1, bs => by
      rw [chunksAux]
      split
      · exact Nat.zero_le _
      · exact Nat.succ_le_succ (length_chunksAux_le fuel _)

theorem length_chunksExact_le (bs : List UInt8) : (chunksExact bs).length ≤ bs.length :=
  length_chunksAux_le bs.length bs

/-- The bytes of a list of blocks. -/
def flatten (V : List Block) : List UInt8 := V.flatMap Block.bytes

@[simp] theorem flatten_nil : flatten [] = [] := rfl

@[simp] theorem flatten_cons (b : Block) (V : List Block) :
    flatten (b :: V) = Block.bytes b ++ flatten V := rfl

@[simp] theorem length_flatten (V : List Block) : (flatten V).length = 16 * V.length := by
  induction V with
  | nil => rfl
  | cons b V ih => simp only [flatten_cons, List.length_append, Block.length_bytes, ih,
      List.length_cons]; ring

theorem chunksAux_flatten : ∀ (V : List Block) (fuel : ℕ), V.length < fuel →
    chunksAux fuel (flatten V) = V
  | [], _ + 1, _ => by simp [chunksAux]
  | b :: V, fuel + 1, h => by
      have hlen : (Block.bytes b).length = 16 := Block.length_bytes b
      have ih := chunksAux_flatten V fuel (by simpa using h)
      simp [chunksAux, hlen, List.take_left' hlen, List.drop_left' hlen, ih]

@[simp] theorem chunksExact_flatten (V : List Block) : chunksExact (flatten V) = V := by
  cases V with
  | nil => rfl
  | cons b V =>
      refine chunksAux_flatten _ _ ?_
      simp only [length_flatten, List.length_cons]
      omega

end MaliciousPsu
