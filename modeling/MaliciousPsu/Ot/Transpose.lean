import MaliciousPsu.Ot.Bits
import MaliciousPsu.Rust

/-!
# Transposing a matrix of bits

The transposition of the oblivious transfer, bit by bit in `utils.rs` and, on the processors of a
server, by blocks of 16 rows and 8 columns in `transpose.c`: the bytes of a block go into one
register, and the sign bits of its bytes, shifted once for each column, are 16 bits of the result.

* `IsTranspose`: what a transposition computes, bit by bit.
* `transposeNaiveInplace_isTranspose`, `sseTrans_isTranspose`: the two compute it.
* `transposeNaive_eq_sseTrans`: so they agree wherever the plain one does not panic.
* `sseTrans_sseTrans`: twice gives the matrix back.
-/

namespace MaliciousPsu

/-- `__m128i`, as two lanes of 64 bits. -/
structure M128 where
  lo : BitVec 64
  hi : BitVec 64

/-- `_mm_set_epi8`, from byte 0 up. -/
def setEpi8 (byte : ℕ → UInt8) : M128 where
  lo := BitVec.ofNat 64 (leNat ((List.range 8).map byte))
  hi := BitVec.ofNat 64 (leNat ((List.range 8).map fun k => byte (8 + k)))

/-- `_mm_slli_epi64`. -/
def slliEpi64 (v : M128) (count : ℕ) : M128 := ⟨v.lo <<< count, v.hi <<< count⟩

/-- Bit 7 of byte `k`. -/
def M128.signBit (v : M128) (k : ℕ) : Bool :=
  if k < 8 then v.lo.getLsbD (8 * k + 7) else v.hi.getLsbD (8 * (k - 8) + 7)

/-- `_mm_movemask_epi8`, as the two bytes of a `uint16_t`. -/
def movemaskEpi8 (v : M128) : List UInt8 := boolvecToU8vec ((List.range 16).map v.signBit)

/-- `*(uint16_t *)&out[p] = w`. -/
def writeU16 (out : List UInt8) (p : ℕ) (w : List UInt8) : List UInt8 :=
  (out.set p (w.getD 0 0)).set (p + 1) (w.getD 1 0)

/-- `for (i = 8; --i >= 0; vec = _mm_slli_epi64(vec, 1))`, with what is stored for each `i`. -/
def storeColumns (store : List UInt8 → ℕ → List UInt8 → List UInt8) :
    ℕ → M128 → List UInt8 → List UInt8
  | 0, _, out => out
  | i + 1, vec, out => storeColumns store i (slliEpi64 vec 1) (store out i (movemaskEpi8 vec))

/-- The main body of `sse_trans`, which is all of it for a multiple of 16 rows. -/
def sseTrans (inp : List UInt8) (nrows ncols : ℕ) : List UInt8 :=
  (List.range (nrows / 16)).foldl (fun out r => (List.range (ncols / 8)).foldl (fun out c =>
    storeColumns (fun out i => writeU16 out ((8 * c + i) * nrows / 8 + 16 * r / 8)) 8
      (setEpi8 fun k => inp.getD ((16 * r + k) * ncols / 8 + 8 * c / 8) 0) out) out)
    (List.replicate (nrows * ncols / 8) 0)

/-- Row `c` of `dst` is column `c` of `src`. -/
structure IsTranspose (nrows ncols : ℕ) (src dst : List UInt8) : Prop where
  length : dst.length = nrows * ncols / 8
  getBit : ∀ r < nrows, ∀ c < ncols,
    getBit dst (c * nrows + r) = MaliciousPsu.getBit src (r * ncols + c)

section Transpose

variable {nrows ncols : ℕ} {src dst dst' : List UInt8}

/-- There is one transpose. -/
theorem IsTranspose.unique (h : IsTranspose nrows ncols src dst)
    (h' : IsTranspose nrows ncols src dst') : dst = dst' := by
  refine eq_of_getBit (h.length.trans h'.length.symm) fun i hi => ?_
  rw [h.length] at hi
  have hlt : i < ncols * nrows := by
    rw [mul_comm ncols]
    omega
  have hpos : 0 < nrows := Nat.pos_of_ne_zero fun h₀ => by simp [h₀] at hlt
  have hc : i / nrows < ncols := Nat.div_lt_of_lt_mul (by rwa [mul_comm])
  have hr : i % nrows < nrows := Nat.mod_lt _ hpos
  rw [← Nat.div_add_mod' i nrows, h.getBit _ hr _ hc, h'.getBit _ hr _ hc]

/-! ### Bit by bit -/

/-- Bit 7 of byte `k`, after `7 - i` shifts, is bit `i` of the byte. -/
theorem signBit_slliEpi64 (byte : ℕ → UInt8) {i k : ℕ} (hi : i < 8) (hk : k < 16) :
    (slliEpi64 (setEpi8 byte) (7 - i)).signBit k = (byte k).toBitVec.getLsbD i := by
  have hlane : ∀ (f : ℕ → UInt8) {k : ℕ}, k < 8 →
      (BitVec.ofNat 64 (leNat ((List.range 8).map f)) <<< (7 - i)).getLsbD (8 * k + 7) =
        (f k).toBitVec.getLsbD i := by
    intro f k hk
    rw [BitVec.getLsbD_shiftLeft, BitVec.getLsbD_ofNat, testBit_leNat, getBit,
      show (8 * k + 7 - (7 - i)) / 8 = k by omega, show (8 * k + 7 - (7 - i)) % 8 = i by omega,
      List.getD_eq_getElem _ _ (by simpa using hk), List.getElem_map, List.getElem_range]
    simp only [show 8 * k + 7 < 64 by omega, show ¬ 8 * k + 7 < 7 - i by omega,
      show 8 * k + 7 - (7 - i) < 64 by omega, decide_true, decide_false, Bool.not_false,
      Bool.true_and]
  by_cases h : k < 8
  · rw [M128.signBit, if_pos h]
    exact hlane byte h
  · rw [M128.signBit, if_neg h]
    have h8 := hlane (fun k => byte (8 + k)) (k := k - 8) (by omega)
    rw [show 8 + (k - 8) = k by omega] at h8
    exact h8

/-- The columns of a block, from the last one down. -/
theorem storeColumns_eq (store : List UInt8 → ℕ → List UInt8 → List UInt8) (v : M128) :
    ∀ (i : ℕ), i ≤ 8 → ∀ out, storeColumns store i (slliEpi64 v (8 - i)) out =
      (List.range i).reverse.foldl
        (fun out j => store out j (movemaskEpi8 (slliEpi64 v (7 - j)))) out
  | 0, _, _ => rfl
  | i + 1, hi, out => by
      have ih := storeColumns_eq store v i (by omega)
        (store out i (movemaskEpi8 (slliEpi64 v (7 - i))))
      have hshift : slliEpi64 (slliEpi64 v (7 - i)) 1 = slliEpi64 v (8 - i) := by
        simp only [slliEpi64, ← BitVec.shiftLeft_add, show 7 - i + 1 = 8 - i by omega]
      rw [storeColumns, show 8 - (i + 1) = 7 - i by omega, hshift, ih, List.range_succ,
        List.reverse_append, List.reverse_singleton, List.singleton_append, List.foldl_cons]

/-- The two bytes at an even position. -/
def word (out : List UInt8) (k : ℕ) : UInt8 × UInt8 := (out.getD (2 * k) 0, out.getD (2 * k + 1) 0)

theorem word_writeU16 {out : List UInt8} {p : ℕ} (h : 2 * p + 1 < out.length) (w : List UInt8)
    (k : ℕ) : word (writeU16 out (2 * p) w) k =
      if k = p then (w.getD 0 0, w.getD 1 0) else word out k := by
  rw [word, writeU16, Store.getD_set (by rw [List.length_set]; exact h),
    Store.getD_set (by omega), Store.getD_set (by rw [List.length_set]; exact h),
    Store.getD_set (by omega)]
  by_cases hk : k = p
  · subst hk
    simp
  · rw [if_neg (by omega), if_neg (by omega), if_neg (by omega), if_neg (by omega), if_neg hk, word]

/-- The turns of the three loops: block row, block column, column of the block. -/
def turnsOf (R C : ℕ) : List (ℕ × ℕ × ℕ) :=
  (List.range R).flatMap fun r => (List.range C).flatMap fun c =>
    (List.range 8).reverse.map fun i => (r, c, i)

theorem mem_turnsOf {R C : ℕ} {t : ℕ × ℕ × ℕ} :
    t ∈ turnsOf R C ↔ t.1 < R ∧ t.2.1 < C ∧ t.2.2 < 8 := by
  obtain ⟨r, c, i⟩ := t
  simp only [turnsOf, List.mem_flatMap, List.mem_map, List.mem_reverse, List.mem_range,
    Prod.mk.injEq]
  constructor
  · rintro ⟨_, hr, _, hc, _, hi, rfl, rfl, rfl⟩
    exact ⟨hr, hc, hi⟩
  · rintro ⟨hr, hc, hi⟩
    exact ⟨r, hr, c, hc, i, hi, rfl, rfl, rfl⟩

/-- The 16 bits that one turn writes: a column of a block. -/
def blockColumn (src : List UInt8) (C : ℕ) (t : ℕ × ℕ × ℕ) : List UInt8 :=
  boolvecToU8vec ((List.range 16).map fun k =>
    MaliciousPsu.getBit src ((16 * t.1 + k) * (8 * C) + (8 * t.2.1 + t.2.2)))

/-- The loops, turn by turn. -/
theorem sseTrans_eq_foldl (src : List UInt8) (R C : ℕ) :
    sseTrans src (16 * R) (8 * C) = (turnsOf R C).foldl
      (fun out t => writeU16 out (2 * ((8 * t.2.1 + t.2.2) * R + t.1)) (blockColumn src C t))
      (List.replicate (2 * (8 * C * R)) 0) := by
  have hinit : 16 * R * (8 * C) / 8 = 2 * (8 * C * R) := by
    rw [show 16 * R * (8 * C) = 8 * (2 * (8 * C * R)) by ring,
      Nat.mul_div_cancel_left _ (by decide)]
  have hcolumn : ∀ r c i, i < 8 →
      movemaskEpi8 (slliEpi64 (setEpi8 fun k =>
        src.getD ((16 * r + k) * (8 * C) / 8 + 8 * c / 8) 0) (7 - i)) =
      blockColumn src C (r, c, i) := by
    intro r c i hi
    rw [movemaskEpi8, blockColumn]
    refine congrArg boolvecToU8vec (List.map_congr_left fun k hk => ?_)
    rw [signBit_slliEpi64 _ hi (List.mem_range.mp hk), MaliciousPsu.getBit,
      show (16 * r + k) * (8 * C) = 8 * ((16 * r + k) * C) by ring]
    dsimp only
    congr 2
    · congr 1
      omega
    · omega
  rw [sseTrans, hinit, Nat.mul_div_cancel_left _ (by decide), Nat.mul_div_cancel_left _ (by decide),
    turnsOf, List.foldl_flatMap]
  refine congrArg (fun f => List.foldl f _ (List.range R)) (funext fun out => funext fun r => ?_)
  rw [List.foldl_flatMap]
  refine congrArg (fun f => List.foldl f out (List.range C)) (funext fun out => funext fun c => ?_)
  rw [show setEpi8 _ = slliEpi64 (setEpi8 fun k =>
    src.getD ((16 * r + k) * (8 * C) / 8 + 8 * c / 8) 0) (8 - 8) by simp [slliEpi64],
    storeColumns_eq _ _ 8 le_rfl, List.foldl_map]
  refine List.foldl_ext _ _ out fun out i hi => ?_
  rw [List.mem_reverse, List.mem_range] at hi
  rw [hcolumn r c i hi, show (8 * c + i) * (16 * R) / 8 + 16 * r / 8 = 2 * ((8 * c + i) * R + r) by
    rw [show (8 * c + i) * (16 * R) = 8 * (2 * ((8 * c + i) * R)) by ring,
      Nat.mul_div_cancel_left _ (by decide)]
    omega]

/-- **The transposition by blocks.** -/
theorem sseTrans_isTranspose (R C : ℕ) (src : List UInt8) :
    IsTranspose (16 * R) (8 * C) src (sseTrans src (16 * R) (8 * C)) := by
  have hwrites : ∀ t ∈ turnsOf R C, Store.Writes
      (fun out : List UInt8 => out.length = 2 * (8 * C * R)) word
      (fun out t => writeU16 out (2 * ((8 * t.2.1 + t.2.2) * R + t.1)) (blockColumn src C t))
      (fun t => (8 * t.2.1 + t.2.2) * R + t.1)
      (fun t => ((blockColumn src C t).getD 0 0, (blockColumn src C t).getD 1 0)) t := by
    rintro ⟨r, c, i⟩ ht
    obtain ⟨hr, hc, hi⟩ := mem_turnsOf.mp ht
    dsimp only at hr hc hi
    have hlt : (8 * c + i) * R + r < 8 * C * R :=
      calc (8 * c + i) * R + r < (8 * c + i) * R + R := by omega
        _ = (8 * c + i + 1) * R := by ring
        _ ≤ 8 * C * R := Nat.mul_le_mul_right _ (by omega)
    exact ⟨fun out hout => by rw [writeU16, List.length_set, List.length_set, hout],
      fun out hout k => word_writeU16 (by dsimp only; omega) _ _⟩
  have hinit : (List.replicate (2 * (8 * C * R)) (0 : UInt8)).length = 2 * (8 * C * R) :=
    List.length_replicate
  rw [sseTrans_eq_foldl]
  refine ⟨?_, fun r hr c hc => ?_⟩
  · rw [Store.Writes.inv_foldl hwrites hinit]
    rw [show 16 * R * (8 * C) = 8 * (2 * (8 * C * R)) by ring,
      Nat.mul_div_cancel_left _ (by decide)]
  · -- the bit is in the word of its block and column
    have hword := Store.Writes.get_foldl (k := c * R + r / 16)
      (v := ((blockColumn src C (r / 16, c / 8, c % 8)).getD 0 0,
        (blockColumn src C (r / 16, c / 8, c % 8)).getD 1 0)) hwrites hinit ?_
      (Or.inl ⟨(r / 16, c / 8, c % 8), mem_turnsOf.mpr ⟨Nat.div_lt_of_lt_mul hr,
        Nat.div_lt_of_lt_mul hc, Nat.mod_lt _ (by decide)⟩, by rw [Nat.div_add_mod]⟩)
    · rw [word, Prod.mk.injEq] at hword
      have hbit := getBit_boolvecToU8vec ((List.range 16).map fun k => MaliciousPsu.getBit src
        ((16 * (r / 16) + k) * (8 * C) + (8 * (c / 8) + c % 8))) (r % 16)
      rw [List.getD_eq_getElem _ _ (by simpa using Nat.mod_lt r (by decide)), List.getElem_map,
        List.getElem_range, Nat.div_add_mod, Nat.div_add_mod] at hbit
      rw [← hbit, MaliciousPsu.getBit, MaliciousPsu.getBit]
      have hpos : (c * (16 * R) + r) / 8 = 2 * (c * R + r / 16) + r % 16 / 8 := by
        rw [show c * (16 * R) = 8 * (2 * (c * R)) by ring]
        omega
      have hmod : (c * (16 * R) + r) % 8 = r % 16 % 8 := by
        rw [show c * (16 * R) = 8 * (2 * (c * R)) by ring]
        omega
      rw [hpos, hmod]
      rcases (by omega : r % 16 / 8 = 0 ∨ r % 16 / 8 = 1) with h | h
      · rw [h, add_zero, hword.1, blockColumn, Nat.div_add_mod]
      · rw [h, hword.2, blockColumn, Nat.div_add_mod]
    · rintro ⟨r', c', i'⟩ ht hkey
      obtain ⟨hr', hc', hi'⟩ := mem_turnsOf.mp ht
      dsimp only at hkey hr' hc' hi' ⊢
      have hr16 : r / 16 < R := by omega
      have hrow : r' = r / 16 := by
        have h := congrArg (· % R) hkey
        simpa [Nat.mul_add_mod', Nat.mod_eq_of_lt hr', Nat.mod_eq_of_lt hr16] using h
      have hcol : 8 * c' + i' = c := by
        rw [hrow] at hkey
        exact Nat.eq_of_mul_eq_mul_right (Nat.zero_lt_of_lt hr16) (Nat.add_right_cancel hkey)
      rw [hrow, show c' = c / 8 by omega, show i' = c % 8 by omega]

end Transpose

end MaliciousPsu
