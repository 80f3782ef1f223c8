import OvaLib.MemoryPool.MemoryPool

/-!
# The size arithmetic of the memory pool

`align_up` and the two operations of `add_chunk` compute modulo `2 ^ 64`. The stride of a new pool
is a multiple of the alignment, so it either holds a block or wraps to 0, and the bytes asked for
are those of the header and the blocks or fewer.

## What can go wrong

Three operations may wrap around. A block size in the last multiple of the alignment below `2 ^ 64`
is rounded up to 0, and all blocks of the chunk are then the same one. The product of the stride and
the number of blocks may lose its upper part, and so may its sum with the header. In the last two
cases `malloc` is asked for too little, and if it succeeds, the free list is laid out past the end
of what it returned.

The result is an equivalence for every block size and number of blocks for which
`create_memory_pool` returns a pool. The sizes are right exactly when the header and the rounded
blocks together are less than `2 ^ 64` bytes, computed without wrapping.

## Main results

* `alignUp_wraps` — a block size that cannot be rounded up gets the stride 0
* `create_sizes_iff` — when the sizes of a new pool are those that its free list relies on
-/

namespace OvaLib

open Foundation MemoryPool

variable {t : Platform} {blockSize : ℕ} {initialBlocks : ℤ}

/-- A block size above the last multiple of the alignment wraps to the stride 0. -/
theorem alignUp_wraps (hsize : blockSize < 2 ^ 64) (h : 2 ^ 64 ≤ roundedBlock t blockSize) :
    alignUp (if blockSize < 8 then 8 else blockSize) t.maxAlign = 0 := by
  have hlog : t.alignLog ≤ 64 :=
    (Nat.pow_le_pow_iff_right (by decide)).mp ((Nat.le_add_right _ _).trans t.small)
  have halign : t.maxAlign ≤ 2 ^ 64 := (Nat.le_add_right _ _).trans t.small
  have hpos : 0 < t.maxAlign := Nat.two_pow_pos _
  have hle : roundedBlock t blockSize ≤ max blockSize 8 + t.maxAlign - 1 :=
    Nat.div_mul_le_self _ _
  -- the sum wraps once, to less than one alignment
  have hwrap : sizeT (max blockSize 8 + t.maxAlign - 1) =
      max blockSize 8 + t.maxAlign - 1 - 2 ^ 64 := by
    rw [sizeT, Nat.mod_eq_sub_mod (by omega), Nat.mod_eq_of_lt (by omega)]
  have hsmall : max blockSize 8 + t.maxAlign - 1 - 2 ^ 64 < t.maxAlign := by omega
  calc alignUp (if blockSize < 8 then 8 else blockSize) t.maxAlign
      = (max blockSize 8 + t.maxAlign - 1 - 2 ^ 64) / t.maxAlign * t.maxAlign := by
        rw [alignUp, nodeSized_eq, hwrap]
        exact and_highBits hlog (by omega)
    _ = 0 := by rw [Nat.div_eq_of_lt hsmall, Nat.zero_mul]

theorem fresh_alignedBlock (t : Platform) (blockSize : ℕ) (initialBlocks : ℤ) :
    (fresh t blockSize initialBlocks).alignedBlock =
      alignUp (if blockSize < 8 then 8 else blockSize) t.maxAlign := rfl

/-- The stride holds a block, and a node of the free list, exactly when it does not wrap. -/
theorem stride_iff (hsize : blockSize < 2 ^ 64) :
    (blockSize ≤ (fresh t blockSize initialBlocks).alignedBlock ∧
      8 ≤ (fresh t blockSize initialBlocks).alignedBlock) ↔ roundedBlock t blockSize < 2 ^ 64 := by
  have hle := le_roundedBlock t blockSize
  rw [fresh_alignedBlock]
  by_cases hfit : roundedBlock t blockSize < 2 ^ 64
  · rw [alignUp_eq hfit]
    exact iff_of_true ⟨by omega, by omega⟩ hfit
  · rw [alignUp_wraps hsize (not_lt.mp hfit)]
    exact iff_of_false (by omega) hfit

/-- The bytes asked for suffice exactly when neither the product nor the sum wraps. -/
theorem request_iff (hfit : roundedBlock t blockSize < 2 ^ 64) :
    t.chunkSize + (fresh t blockSize initialBlocks).alignedBlock * initialBlocks.toNat ≤
        (fresh t blockSize initialBlocks).chunkBytes t ↔
      chunkSpan t blockSize initialBlocks.toNat < 2 ^ 64 := by
  have hspan : t.chunkSize + roundedBlock t blockSize * initialBlocks.toNat =
      chunkSpan t blockSize initialBlocks.toNat := by
    rw [chunkSpan, Nat.mul_comm]
  have hbytes : (fresh t blockSize initialBlocks).chunkBytes t =
      chunkSpan t blockSize initialBlocks.toNat % 2 ^ 64 := by
    rw [chunkBytes, fresh_alignedBlock, alignUp_eq hfit, sizeT, sizeT, Nat.add_mod_mod]
    exact congrArg (· % 2 ^ 64) hspan
  rw [hbytes, fresh_alignedBlock, alignUp_eq hfit, hspan]
  constructor
  · intro hle
    exact hle.trans_lt (Nat.mod_lt _ (by decide))
  · intro hlt
    rw [Nat.mod_eq_of_lt hlt]

/-- The fields of a new pool that the requests are computed from. -/
theorem create_fields {out : Bool} {found : Option ℕ} {m m' : Bytes} {pool : MemoryPool}
    (h : MemoryPool.create t blockSize initialBlocks out found m = some (pool, m')) :
    pool.alignedBlock = (fresh t blockSize initialBlocks).alignedBlock ∧
      pool.chunkBytes t = (fresh t blockSize initialBlocks).chunkBytes t := by
  obtain ⟨-, -, hadd⟩ := create_eq h
  cases found with
  | none => exact absurd hadd (by simp [MemoryPool.addChunk])
  | some c =>
    rw [MemoryPool.addChunk, initChunkFreeList] at hadd
    obtain ⟨rfl, -⟩ := Prod.mk.inj (Option.some.inj hadd)
    exact ⟨rfl, rfl⟩

/-- **When the sizes of a new pool are right.** Its stride holds a block and a node of the free
list, and the bytes asked for hold the header and all blocks, exactly when header and rounded blocks
together fit in a `size_t`. -/
theorem create_sizes_iff (hsize : blockSize < 2 ^ 64) {out : Bool} {found : Option ℕ}
    {m m' : Bytes} {pool : MemoryPool}
    (hcreate : MemoryPool.create t blockSize initialBlocks out found m = some (pool, m')) :
    (blockSize ≤ pool.alignedBlock ∧ 8 ≤ pool.alignedBlock ∧
        t.chunkSize + pool.alignedBlock * initialBlocks.toNat ≤ pool.chunkBytes t) ↔
      chunkSpan t blockSize initialBlocks.toNat < 2 ^ 64 := by
  obtain ⟨-, hblocks, -⟩ := create_eq hcreate
  obtain ⟨hstride, hbytes⟩ := create_fields hcreate
  rw [hstride, hbytes, ← and_assoc, stride_iff hsize]
  constructor
  · rintro ⟨hfit, hrequest⟩
    exact (request_iff hfit).mp hrequest
  · intro hspan
    have hone : 1 ≤ initialBlocks.toNat := by omega
    have hmul := Nat.mul_le_mul_right (roundedBlock t blockSize) hone
    have hfit : roundedBlock t blockSize < 2 ^ 64 := by
      rw [chunkSpan] at hspan
      omega
    exact ⟨hfit, (request_iff hfit).mpr hspan⟩

/-- Ten blocks of 24 bytes: a stride of 32, and 368 bytes. -/
theorem create_sizes_iff_small :
    ∃ pool m', MemoryPool.create lp64 24 10 true (some 4096) (fun _ => 0) = some (pool, m') ∧
      ((24 ≤ pool.alignedBlock ∧ 8 ≤ pool.alignedBlock ∧
          lp64.chunkSize + pool.alignedBlock * (10 : ℤ).toNat ≤ pool.chunkBytes lp64) ↔
        chunkSpan lp64 24 (10 : ℤ).toNat < 2 ^ 64) := by
  obtain ⟨⟨pool, m'⟩, hcreate⟩ : ∃ r, MemoryPool.create lp64 24 10 true (some 4096) (fun _ => 0) =
      some r := ⟨_, rfl⟩
  exact ⟨pool, m', hcreate, create_sizes_iff (by decide) hcreate⟩

/-- One block of `2 ^ 64 - 1` bytes gets the stride 0; four blocks of `2 ^ 62` bytes get a chunk
that ends after its header. -/
theorem create_sizes_wrap :
    (∃ pool m', MemoryPool.create lp64 (2 ^ 64 - 1) 1 true (some 4096) (fun _ => 0) =
        some (pool, m') ∧ pool.alignedBlock < 2 ^ 64 - 1) ∧
      ∃ pool m', MemoryPool.create lp64 (2 ^ 62) 4 true (some 4096) (fun _ => 0) =
        some (pool, m') ∧
          pool.chunkBytes lp64 < lp64.chunkSize + pool.alignedBlock * (4 : ℤ).toNat := by
  refine ⟨⟨_, _, rfl, ?_⟩, ⟨_, _, rfl, ?_⟩⟩ <;> decide +kernel

end OvaLib
