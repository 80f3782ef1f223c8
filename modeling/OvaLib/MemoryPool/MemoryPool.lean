import OvaLib.Foundation.Memory

/-!
# The memory pool

`memory_pool.c`: blocks of one size, cut out of chunks and recycled through a free list whose links
lie in the free blocks themselves. The model keeps memory as bytes; the caller may write to its
blocks, and to anything outside the chunks, whenever it likes.

## The contract

A block is a caller's own from the `alloc` that hands it out, zeroed, to the `free` that gives it
back: no other block that is held overlaps it, and what is written to it changes neither the other
blocks nor the pool. That is the purpose of the pool, and `Owns` states it for one state. Callers
have to give back only what they hold, and write only to what they hold or to memory that has
nothing to do with the pool; `Step` has no other steps.

## Why memory is bytes

The free list has no cells of its own. Its links are the first bytes of the free blocks, which were
in the hands of callers before and may be so again. That the links are intact is not a matter of
types, then, but of who has written where, and so the model has one memory, and reads and writes the
links as the eight bytes they are.

## Sizes

Sizes are `size_t`, so 64-bit. The stride of the blocks and the size of a chunk are computed without
a check. What `malloc` returns is left open, up to what it promises: a region of the size asked for
that overlaps none of the pool's other chunks. When a computation has wrapped around, the region is
smaller than what the pool makes of it. `memoryPool_owns_iff` says when the sum with the header does
that, for sizes whose product is in range, and `SizeArithmetic` is about all three computations.

## Main results

* `Inv.step` — free and live blocks together are the blocks of the chunks, at all times
* `memoryPool_owns_iff` — when the blocks that callers hold are theirs alone
-/

namespace OvaLib

open Foundation

/-! ## The model -/

/-- What the platform fixes: `_Alignof(max_align_t)` and `sizeof(chunk)`, which is also where the
data of a chunk begins. -/
structure Platform where
  alignLog : ℕ
  chunkSize : ℕ
  pointer_le : 8 ≤ chunkSize
  small : 2 ^ alignLog + chunkSize ≤ 2 ^ 64

/-- `_Alignof(max_align_t)`. -/
def Platform.maxAlign (t : Platform) : ℕ := 2 ^ t.alignLog

/-- The `size_t` a computed value is kept as. -/
def sizeT (n : ℕ) : ℕ := n % 2 ^ 64

/-- `align_up`. -/
def alignUp (size alignment : ℕ) : ℕ :=
  sizeT (size + alignment - 1) &&& (2 ^ 64 - 1 - (alignment - 1))

/-- `memory_pool`, but for the user's pointer. -/
structure MemoryPool where
  blockSize : ℕ
  alignedBlock : ℕ
  blocksPerChunk : ℕ
  /-- The address of the first free block, or 0. -/
  freeList : ℕ
  /-- The address of the last chunk, or 0. -/
  chunks : ℕ
  totalBlocks : ℕ
  freeBlocks : ℕ

namespace MemoryPool

/-- The loop of `init_chunk_free_list`: each block goes to the front of the free list. -/
def linkBlocks (alignedBlock : ℕ) : ℕ → ℕ → ℕ → Bytes → ℕ × Bytes
  | 0, _, freeList, m => (freeList, m)
  | n + 1, ptr, freeList, m =>
    linkBlocks alignedBlock n (ptr + alignedBlock) ptr (store m 8 ptr freeList)

/-- `init_chunk_free_list`. -/
def initChunkFreeList (t : Platform) (pool : MemoryPool) (c : ℕ) (m : Bytes) :
    MemoryPool × Bytes :=
  let (freeList, m) :=
    linkBlocks pool.alignedBlock pool.blocksPerChunk (c + t.chunkSize) pool.freeList m
  ({ pool with
      freeList := freeList
      totalBlocks := sizeT (pool.totalBlocks + pool.blocksPerChunk)
      freeBlocks := sizeT (pool.freeBlocks + pool.blocksPerChunk) }, m)

/-- The bytes that `add_chunk` asks for. -/
def chunkBytes (t : Platform) (pool : MemoryPool) : ℕ :=
  sizeT (t.chunkSize + sizeT (pool.alignedBlock * pool.blocksPerChunk))

/-- `add_chunk`, where `malloc` returns `found`. -/
def addChunk (t : Platform) (pool : MemoryPool) (found : Option ℕ) (m : Bytes) :
    Option (MemoryPool × Bytes) :=
  match found with
  | none => none
  | some c =>
    some (initChunkFreeList t { pool with chunks := c } c (store m 8 c pool.chunks))

/-- The pool of `create_memory_pool` before its first chunk. -/
def fresh (t : Platform) (blockSize : ℕ) (initialBlocks : ℤ) : MemoryPool where
  blockSize := blockSize
  alignedBlock := alignUp (if blockSize < 8 then 8 else blockSize) t.maxAlign
  blocksPerChunk := initialBlocks.toNat
  freeList := 0
  chunks := 0
  totalBlocks := 0
  freeBlocks := 0

/-- `create_memory_pool`; the first flag says whether the pool itself was to be had. -/
def create (t : Platform) (blockSize : ℕ) (initialBlocks : ℤ) (out : Bool) (found : Option ℕ)
    (m : Bytes) : Option (MemoryPool × Bytes) :=
  if blockSize = 0 ∨ initialBlocks ≤ 0 then none
  else if !out then none
  else (fresh t blockSize initialBlocks).addChunk t found m

/-- The block at the head of the free list, zeroed. -/
def takeBlock (pool : MemoryPool) (m : Bytes) : ℕ × MemoryPool × Bytes :=
  let node := pool.freeList
  (node,
    { pool with
      freeList := load m 8 node
      freeBlocks := sizeT (pool.freeBlocks + (2 ^ 64 - 1)) },
    fill m node pool.blockSize zeroByte)

/-- `memory_pool_alloc`. -/
def alloc (t : Platform) (pool : MemoryPool) (found : Option ℕ) (m : Bytes) :
    Option ℕ × MemoryPool × Bytes :=
  match if pool.freeList = 0 then pool.addChunk t found m else some (pool, m) with
  | none => (none, pool, m)
  | some (pool, m) =>
    let (node, pool, m) := pool.takeBlock m
    (some node, pool, m)

/-- `memory_pool_free`. -/
def free (pool : MemoryPool) (ptr : ℕ) (m : Bytes) : MemoryPool × Bytes :=
  if ptr = 0 then (pool, m)
  else
    ({ pool with freeList := ptr, freeBlocks := sizeT (pool.freeBlocks + 1) },
      store m 8 ptr pool.freeList)

/-- `memory_pool_active_count`. -/
def activeCount (pool : MemoryPool) : ℕ :=
  sizeT (pool.totalBlocks + (2 ^ 64 - pool.freeBlocks))

end MemoryPool

/-! ## Runs

A run is a sequence of calls and of writes by callers. The writes are what makes the statement more
than one about the calls alone. -/

/-- A pool in use: the memory, the blocks that callers hold and the chunks that the pool got. -/
structure PoolUse where
  pool : MemoryPool
  memory : Bytes
  /-- The blocks that were handed out and not given back. -/
  live : List ℕ
  chunks : List ℕ

/-- What `malloc` promises about the region at `c`. -/
structure Granted (t : Platform) (bytes : ℕ) (chunks : List ℕ) (c : ℕ) : Prop where
  pos : 0 < c
  aligned : t.maxAlign ∣ c
  fits : c + bytes ≤ 2 ^ 64
  apart : ∀ d ∈ chunks, RangesApart c bytes d bytes

namespace PoolUse

/-- A call of `memory_pool_alloc`. -/
def alloc (t : Platform) (u : PoolUse) (found : Option ℕ) : PoolUse :=
  let (node, pool, m) := u.pool.alloc t found u.memory
  { pool := pool
    memory := m
    live := node.toList ++ u.live
    chunks := if u.pool.freeList = 0 then found.toList ++ u.chunks else u.chunks }

/-- A call of `memory_pool_free`. -/
def free (u : PoolUse) (ptr : ℕ) : PoolUse :=
  let (pool, m) := u.pool.free ptr u.memory
  { u with pool := pool, memory := m, live := u.live.erase ptr }

/-- The byte lies in a chunk, and in no block that a caller holds. -/
def Reserved (t : Platform) (u : PoolUse) (q : ℕ) : Prop :=
  (∃ c ∈ u.chunks, c ≤ q ∧ q < c + u.pool.chunkBytes t) ∧
    ∀ p ∈ u.live, ¬(p ≤ q ∧ q < p + u.pool.blockSize)

/-- One call on a pool, or a write of its callers. -/
inductive Step (t : Platform) (u : PoolUse) : PoolUse → Prop
  | alloc (found : Option ℕ)
      (hfound : ∀ c ∈ found, Granted t (u.pool.chunkBytes t) u.chunks c) :
      Step t u (u.alloc t found)
  | free (ptr : ℕ) (hlive : ptr ∈ u.live) : Step t u (u.free ptr)
  | write (m : Bytes) (hm : ∀ q, u.Reserved t q → m q = u.memory q) :
      Step t u { u with memory := m }

/-- The pools that `create_memory_pool` and later calls lead to. -/
inductive Reachable (t : Platform) (blockSize : ℕ) (initialBlocks : ℤ) : PoolUse → Prop
  | create {out : Bool} {c : ℕ} {m m' : Bytes} {pool : MemoryPool}
      (hcreate : MemoryPool.create t blockSize initialBlocks out (some c) m = some (pool, m'))
      (hc : Granted t ((MemoryPool.fresh t blockSize initialBlocks).chunkBytes t) [] c) :
      Reachable t blockSize initialBlocks ⟨pool, m', [], [c]⟩
  | step {u u' : PoolUse} : Reachable t blockSize initialBlocks u → Step t u u' →
      Reachable t blockSize initialBlocks u'

/-- Each block that a caller holds is its own: away from the others, inside the payload of a chunk
and not on the free list; and the pool counts right. -/
structure Owns (t : Platform) (blockSize : ℕ) (u : PoolUse) : Prop where
  distinct : u.live.Nodup
  apart : u.live.Pairwise fun p q => RangesApart p blockSize q blockSize
  inside : ∀ p ∈ u.live, ∃ c ∈ u.chunks,
    c + t.chunkSize ≤ p ∧ p + blockSize ≤ c + u.pool.chunkBytes t
  free : ∃ free, Chain 8 u.memory u.pool.freeList free ∧ (∀ p ∈ u.live, p ∉ free) ∧
    u.pool.freeBlocks = free.length
  active : u.pool.activeCount = u.live.length

end PoolUse

/-! ## Sizes -/

/-- The size of a block, at least that of a pointer and rounded up to the alignment. -/
def roundedBlock (t : Platform) (blockSize : ℕ) : ℕ :=
  (max blockSize 8 + t.maxAlign - 1) / t.maxAlign * t.maxAlign

theorem le_roundedBlock (t : Platform) (blockSize : ℕ) :
    max blockSize 8 ≤ roundedBlock t blockSize := by
  have hpos : 0 < t.maxAlign := Nat.two_pow_pos _
  have hmod := Nat.div_add_mod (max blockSize 8 + t.maxAlign - 1) t.maxAlign
  have hlt := Nat.mod_lt (max blockSize 8 + t.maxAlign - 1) hpos
  rw [Nat.mul_comm] at hmod
  rw [roundedBlock]
  omega

/-- A block is made large enough for a node of the free list. -/
theorem nodeSized_eq (blockSize : ℕ) :
    (if blockSize < 8 then 8 else blockSize) = max blockSize 8 := by
  split <;> omega

/-- `align_up` rounds up to the alignment, where the result is a `size_t`. -/
theorem alignUp_eq {t : Platform} {blockSize : ℕ} (h : roundedBlock t blockSize < 2 ^ 64) :
    alignUp (if blockSize < 8 then 8 else blockSize) t.maxAlign = roundedBlock t blockSize := by
  have hlog : t.alignLog ≤ 64 :=
    (Nat.pow_le_pow_iff_right (by decide)).mp ((Nat.le_add_right _ _).trans t.small)
  have hle := le_roundedBlock t blockSize
  -- the rounded size leaves room for one more alignment below 2 ^ 64
  have hroom : roundedBlock t blockSize + t.maxAlign ≤ 2 ^ 64 := by
    obtain ⟨k, hk⟩ : t.maxAlign ∣ 2 ^ 64 - roundedBlock t blockSize :=
      Nat.dvd_sub (pow_dvd_pow 2 hlog) (Nat.dvd_mul_left _ _)
    have hkpos : 0 < k := by
      rcases Nat.eq_zero_or_pos k with rfl | hkpos
      · rw [Nat.mul_zero] at hk
        omega
      · exact hkpos
    have hmul : t.maxAlign * 1 ≤ t.maxAlign * k := Nat.mul_le_mul_left _ hkpos
    omega
  rw [alignUp, nodeSized_eq, sizeT, Nat.mod_eq_of_lt (by omega)]
  exact and_highBits hlog (by omega)

/-! ## The invariant

`Carved` is about the blocks and the bytes of the links, and `Inv` adds the two counters. -/

/-- The blocks of the chunk at `c`. -/
def blocksOf (t : Platform) (blockSize count c : ℕ) : List ℕ :=
  slots (roundedBlock t blockSize) count (c + t.chunkSize)

/-- The bytes of a chunk. -/
def chunkSpan (t : Platform) (blockSize count : ℕ) : ℕ :=
  t.chunkSize + count * roundedBlock t blockSize

/-- The free and the live blocks together are the blocks of the chunks. -/
structure Carved (t : Platform) (blockSize count : ℕ) (u : PoolUse) (free : List ℕ) : Prop where
  blockSize_eq : u.pool.blockSize = blockSize
  alignedBlock_eq : u.pool.alignedBlock = roundedBlock t blockSize
  blocksPerChunk_eq : u.pool.blocksPerChunk = count
  chunkChain : Chain 8 u.memory u.pool.chunks u.chunks
  regions : ∀ c ∈ u.chunks, 0 < c ∧ c + chunkSpan t blockSize count ≤ 2 ^ 64
  apart : u.chunks.Pairwise fun c d =>
    RangesApart c (chunkSpan t blockSize count) d (chunkSpan t blockSize count)
  freeChain : Chain 8 u.memory u.pool.freeList free
  /-- Every block of a chunk is free or held, and none is both. -/
  blocks : (free ++ u.live).Perm (u.chunks.flatMap (blocksOf t blockSize count))

/-- The invariant: the chunks are carved into free and live blocks, and the counters are right. -/
structure Inv (t : Platform) (blockSize count : ℕ) (u : PoolUse) (free : List ℕ) : Prop extends
    Carved t blockSize count u free where
  total : u.pool.totalBlocks = u.chunks.length * count
  freeBlocks_eq : u.pool.freeBlocks = free.length

variable {t : Platform} {blockSize count : ℕ} {u : PoolUse} {free : List ℕ}

theorem mem_blocksOf {c p : ℕ} (h : p ∈ blocksOf t blockSize count c) :
    c + t.chunkSize ≤ p ∧ p + roundedBlock t blockSize ≤ c + chunkSpan t blockSize count := by
  have hp := mem_slots h
  rw [chunkSpan]
  omega

namespace Carved

/-- A block lies in the payload of a chunk. -/
theorem inside (h : Carved t blockSize count u free) {p : ℕ} (hp : p ∈ free ++ u.live) :
    ∃ c ∈ u.chunks, c + t.chunkSize ≤ p ∧
      p + roundedBlock t blockSize ≤ c + chunkSpan t blockSize count := by
  obtain ⟨c, hc, hpc⟩ := List.mem_flatMap.mp (h.blocks.mem_iff.mp hp)
  exact ⟨c, hc, mem_blocksOf hpc⟩

theorem pos_lt (h : Carved t blockSize count u free) {p : ℕ} (hp : p ∈ free ++ u.live) :
    0 < p ∧ p + roundedBlock t blockSize ≤ 2 ^ 64 := by
  obtain ⟨c, hc, hle, hend⟩ := h.inside hp
  have hregion := h.regions c hc
  omega

/-- No two blocks overlap. -/
theorem pairwise (h : Carved t blockSize count u free) : (free ++ u.live).Pairwise fun p q =>
    RangesApart p (roundedBlock t blockSize) q (roundedBlock t blockSize) :=
  h.blocks.symm.pairwise (slots_apart (le_refl _) h.apart) fun hpq => hpq.symm

theorem nodup (h : Carved t blockSize count u free) : (free ++ u.live).Nodup := by
  refine h.pairwise.imp ?_
  rintro p q hpq rfl
  have hle := le_roundedBlock t blockSize
  rw [RangesApart] at hpq
  omega

theorem length_eq (h : Carved t blockSize count u free) :
    free.length + u.live.length = u.chunks.length * count := by
  have hlen := h.blocks.length_eq
  rw [List.length_append, List.length_flatMap] at hlen
  rw [hlen]
  clear h
  induction u.chunks with
  | nil => rw [List.map_nil, List.sum_nil, List.length_nil, Nat.zero_mul]
  | cons c chunks ih =>
    rw [List.map_cons, List.sum_cons, ih, blocksOf, length_slots, List.length_cons,
      Nat.succ_mul, Nat.add_comm]

/-- The counters never reach 2 ^ 64. -/
theorem length_lt (h : Carved t blockSize count u free) : u.chunks.length * count < 2 ^ 64 := by
  rw [← h.length_eq, ← List.length_append]
  refine length_lt_of_nodup h.nodup (by decide) fun p hp => ?_
  have hle := le_roundedBlock t blockSize
  have hp := h.pos_lt hp
  omega

/-- A block does not touch the header of any chunk. -/
theorem header_apart (h : Carved t blockSize count u free) {c p : ℕ} (hc : c ∈ u.chunks)
    (hp : p ∈ free ++ u.live) : RangesApart c 8 p (roundedBlock t blockSize) := by
  obtain ⟨d, hd, hle, hend⟩ := h.inside hp
  have hheader := t.pointer_le
  rcases eq_or_ne c d with rfl | hne
  · exact .inl (by omega)
  · have hcd := h.apart.forall hc hd hne
    have hspan : t.chunkSize ≤ chunkSpan t blockSize count := Nat.le_add_right _ _
    rw [RangesApart] at *
    omega

theorem span_le (h : Carved t blockSize count u free) {p : ℕ} (hp : p ∈ free) :
    p < 256 ^ 8 := by
  have hle := le_roundedBlock t blockSize
  have hp := h.pos_lt (List.mem_append_left _ hp)
  omega

/-- The head of the free list is a pointer. -/
theorem freeList_lt (h : Carved t blockSize count u free) : u.pool.freeList < 256 ^ 8 := by
  by_cases hzero : u.pool.freeList = 0
  · rw [hzero]
    decide
  · obtain ⟨rest, rfl, -⟩ := h.freeChain.pop hzero
    exact h.span_le List.mem_cons_self

theorem chunkBytes_eq (h : Carved t blockSize count u free)
    (hfit : chunkSpan t blockSize count < 2 ^ 64) :
    u.pool.chunkBytes t = chunkSpan t blockSize count := by
  rw [chunkSpan] at hfit ⊢
  rw [MemoryPool.chunkBytes, h.alignedBlock_eq, h.blocksPerChunk_eq, Nat.mul_comm, sizeT, sizeT,
    Nat.mod_eq_of_lt (by omega), Nat.mod_eq_of_lt (by omega)]

end Carved

/-! ## The steps -/

/-- The loop of `init_chunk_free_list` chains the new blocks before the old ones, and writes to the
new ones only. -/
theorem linkBlocks_spec {stride : ℕ} (hstride : 8 ≤ stride) : ∀ {n ptr head : ℕ} {m : Bytes}
    {l : List ℕ}, Chain 8 m head l → head < 256 ^ 8 → 0 < ptr → ptr + n * stride ≤ 2 ^ 64 →
      (∀ q ∈ l, RangesApart q 8 ptr (n * stride)) →
      ∃ l', Chain 8 (MemoryPool.linkBlocks stride n ptr head m).2
          (MemoryPool.linkBlocks stride n ptr head m).1 l' ∧
        l'.Perm (slots stride n ptr ++ l) ∧
        ∀ p k, RangesApart p k ptr (n * stride) →
          AgreeOn p k m (MemoryPool.linkBlocks stride n ptr head m).2 := by
  intro n
  induction n with
  | zero => exact fun hchain _ _ _ _ => ⟨_, hchain, .refl _, fun _ _ _ _ _ _ => rfl⟩
  | succ n ih =>
    intro ptr head m l hchain hhead hptr hend hapart
    have hmul : (n + 1) * stride = n * stride + stride := Nat.succ_mul n stride
    have hpush := hchain.push (Nat.pos_iff_ne_zero.mp hptr) hhead fun q hq =>
      (hapart q hq).mono (le_refl _) (by omega)
    obtain ⟨l', hchain', hperm, hagree⟩ := ih hpush (by omega) (Nat.add_pos_left hptr stride)
      (by omega) (fun q hq => by
        rcases List.mem_cons.mp hq with rfl | hq
        · exact .inl (by omega)
        · have hq := hapart q hq
          rw [RangesApart] at *
          omega)
    refine ⟨l', hchain', hperm.trans List.perm_middle, fun p k hpk => ?_⟩
    rw [RangesApart] at hpk
    refine AgreeOn.trans (agreeOn_store ?_ m head) (hagree p k ?_)
    · rw [RangesApart]
      omega
    · rw [RangesApart]
      omega

namespace Inv

/-- A block goes from the free list to a caller. -/
theorem takeBlock (h : Inv t blockSize count u free) (hne : u.pool.freeList ≠ 0) :
    ∃ rest, free = u.pool.freeList :: rest ∧
      Inv t blockSize count
        ⟨(u.pool.takeBlock u.memory).2.1, (u.pool.takeBlock u.memory).2.2,
          u.pool.freeList :: u.live, u.chunks⟩ rest := by
  obtain ⟨rest, rfl, hrest⟩ := h.freeChain.pop hne
  have hpair := List.pairwise_cons.mp (List.cons_append ▸ h.pairwise)
  have hle := le_roundedBlock t blockSize
  have hsize : u.pool.blockSize ≤ roundedBlock t blockSize := by
    rw [h.blockSize_eq]
    omega
  refine ⟨rest, rfl, ?_⟩
  rw [MemoryPool.takeBlock]
  refine ⟨⟨h.blockSize_eq, h.alignedBlock_eq, h.blocksPerChunk_eq, ?chunkChain, h.regions, h.apart,
    ?freeChain, ?blocks⟩, h.total, ?freeBlocks⟩
  case chunkChain =>
    refine h.chunkChain.congr fun c hc => agreeOn_fill ?_ _ _
    exact (h.header_apart hc List.mem_cons_self).mono (le_refl _) hsize
  case freeChain =>
    refine hrest.congr fun q hq => agreeOn_fill ?_ _ _
    exact (hpair.1 q (List.mem_append_left _ hq)).symm.mono (by omega) hsize
  case blocks => exact List.perm_middle.trans h.blocks
  case freeBlocks =>
    have hlt := h.length_lt
    have hlen := h.length_eq
    have hcount := h.freeBlocks_eq
    rw [List.length_cons] at hlen hcount
    simp only [sizeT]
    omega

/-- A block goes from a caller to the free list. -/
theorem free_live (h : Inv t blockSize count u free) {ptr : ℕ} (hlive : ptr ∈ u.live) :
    Inv t blockSize count (u.free ptr) (ptr :: free) := by
  have hmem : ptr ∈ free ++ u.live := List.mem_append_right _ hlive
  have hptr := h.pos_lt hmem
  have hle := le_roundedBlock t blockSize
  have hdisj := (List.nodup_append.mp h.nodup).2.2
  rw [PoolUse.free, MemoryPool.free, if_neg (by omega)]
  refine ⟨⟨h.blockSize_eq, h.alignedBlock_eq, h.blocksPerChunk_eq, ?chunkChain, h.regions, h.apart,
    ?freeChain, ?blocks⟩, h.total, ?freeBlocks⟩
  case chunkChain =>
    refine h.chunkChain.congr fun c hc => agreeOn_store ?_ _ _
    exact (h.header_apart hc hmem).mono (le_refl _) (by omega)
  case freeChain =>
    refine h.freeChain.push (by omega) h.freeList_lt fun q hq => ?_
    have hqp := h.pairwise.forall (List.mem_append_left _ hq) hmem (hdisj q hq ptr hlive)
    exact hqp.mono (by omega) (by omega)
  case blocks =>
    refine List.Perm.trans ?_ h.blocks
    rw [List.cons_append]
    exact List.perm_middle.symm.trans ((List.perm_cons_erase hlive).symm.append_left _)
  case freeBlocks =>
    have hlt := h.length_lt
    have hlen := h.length_eq
    have hcount := h.freeBlocks_eq
    have hpos := List.length_pos_of_mem hlive
    rw [List.length_cons]
    simp only [sizeT]
    omega

/-- Callers may write to their blocks, and outside the chunks. -/
theorem write (h : Inv t blockSize count u free) (hfit : chunkSpan t blockSize count < 2 ^ 64)
    {m : Bytes} (hm : ∀ q, u.Reserved t q → m q = u.memory q) :
    Inv t blockSize count { u with memory := m } free := by
  have hle := le_roundedBlock t blockSize
  have hsize := h.blockSize_eq
  have hbytes := h.chunkBytes_eq hfit
  have hspan : t.chunkSize ≤ chunkSpan t blockSize count := Nat.le_add_right _ _
  have hheader := t.pointer_le
  refine ⟨⟨h.blockSize_eq, h.alignedBlock_eq, h.blocksPerChunk_eq, ?_, h.regions, h.apart, ?_,
    h.blocks⟩, h.total, h.freeBlocks_eq⟩
  · refine h.chunkChain.congr fun c hc q hq hqc => (hm q ⟨⟨c, hc, hq, ?_⟩, fun p hp => ?_⟩).symm
    · omega
    · have hcp := h.header_apart hc (List.mem_append_right _ hp)
      rw [RangesApart] at hcp
      omega
  · refine h.freeChain.congr fun r hr q hq hqr => (hm q ⟨?_, fun p hp => ?_⟩).symm
    · obtain ⟨c, hc, hcr, hend⟩ := h.inside (List.mem_append_left _ hr)
      exact ⟨c, hc, by omega, by omega⟩
    · have hdisj := (List.nodup_append.mp h.nodup).2.2 r hr p hp
      have hrp := h.pairwise.forall (List.mem_append_left _ hr) (List.mem_append_right _ hp) hdisj
      rw [RangesApart] at hrp
      omega

/-- A new chunk: its blocks are free. -/
theorem addChunk (h : Inv t blockSize count u free) (hcount : 0 < count)
    (hfit : chunkSpan t blockSize count < 2 ^ 64) {c : ℕ}
    (hc : Granted t (chunkSpan t blockSize count) u.chunks c) :
    ∃ pool m free', u.pool.addChunk t (some c) u.memory = some (pool, m) ∧ pool.freeList ≠ 0 ∧
      Inv t blockSize count ⟨pool, m, u.live, c :: u.chunks⟩ free' := by
  have hheader := t.pointer_le
  have hle := le_roundedBlock t blockSize
  have hpos := hc.pos
  have hend := hc.fits
  have hspan : chunkSpan t blockSize count = t.chunkSize + count * roundedBlock t blockSize := rfl
  have hhead : u.pool.chunks < 256 ^ 8 := by
    by_cases hzero : u.pool.chunks = 0
    · rw [hzero]
      decide
    · obtain ⟨rest, hrest, -⟩ := h.chunkChain.pop hzero
      have hregion := h.regions u.pool.chunks (hrest ▸ List.mem_cons_self)
      omega
  have hblock : ∀ q ∈ free, ∃ d ∈ u.chunks, d + t.chunkSize ≤ q ∧
      q + roundedBlock t blockSize ≤ d + chunkSpan t blockSize count :=
    fun q hq => h.inside (List.mem_append_left _ hq)
  -- the new header is clear of everything the pool has
  have hchunks := h.chunkChain.push hpos.ne' hhead fun d hd =>
    (hc.apart d hd).symm.mono (by omega) (by omega)
  have hfree := h.freeChain.congr fun q hq => agreeOn_store (q := c) (k := 8) (by
    obtain ⟨d, hd, hdq, hqd⟩ := hblock q hq
    have hcd := hc.apart d hd
    rw [RangesApart] at hcd ⊢
    omega) u.memory u.pool.chunks
  have hlinked := @linkBlocks_spec (roundedBlock t blockSize) (by omega) count (c + t.chunkSize)
    _ _ _ hfree h.freeList_lt (by omega) (by omega) (by
      intro q hq
      obtain ⟨d, hd, hdq, hqd⟩ := hblock q hq
      have hcd := hc.apart d hd
      rw [RangesApart] at hcd ⊢
      omega)
  rw [MemoryPool.addChunk, MemoryPool.initChunkFreeList]
  dsimp only
  rw [h.alignedBlock_eq, h.blocksPerChunk_eq]
  cases hloop : MemoryPool.linkBlocks (roundedBlock t blockSize) count (c + t.chunkSize)
      u.pool.freeList (store u.memory 8 c u.pool.chunks) with
  | mk head m =>
    rw [hloop] at hlinked
    obtain ⟨free', hchain, hperm, hagree⟩ := hlinked
    dsimp only at hchain hagree
    have hcarved : ∀ total frees, Carved t blockSize count
        ⟨⟨u.pool.blockSize, roundedBlock t blockSize, count, head, c, total, frees⟩, m, u.live,
          c :: u.chunks⟩ free' := by
      intro total frees
      refine ⟨h.blockSize_eq, rfl, rfl, ?_, ?_, ?_, hchain, ?_⟩
      · refine hchunks.congr fun d hd => hagree d 8 ?_
        rcases List.mem_cons.mp hd with rfl | hd
        · exact .inl (by omega)
        · have hcd := hc.apart d hd
          rw [RangesApart] at hcd ⊢
          omega
      · intro d hd
        rcases List.mem_cons.mp hd with rfl | hd
        · exact ⟨hpos, hend⟩
        · exact h.regions d hd
      · exact List.pairwise_cons.mpr ⟨hc.apart, h.apart⟩
      · rw [List.flatMap_cons]
        refine (hperm.append_right _).trans ?_
        rw [List.append_assoc]
        exact h.blocks.append_left _
    have hlen : free'.length = count + free.length := by
      rw [hperm.length_eq, List.length_append, length_slots]
    have hlt := (hcarved 0 0).length_lt
    have hsum := (hcarved 0 0).length_eq
    have htotal := h.total
    have hfreeBlocks := h.freeBlocks_eq
    rw [List.length_cons, Nat.succ_mul] at hlt hsum
    dsimp only at hlt hsum
    refine ⟨_, _, free', rfl, ?_, hcarved _ _, ?_, ?_⟩
    · intro hzero
      obtain rfl : head = 0 := hzero
      rw [hchain.eq_nil, List.length_nil] at hlen
      omega
    · simp only [sizeT, List.length_cons, Nat.succ_mul]
      rw [h.total]
      exact Nat.mod_eq_of_lt hlt
    · simp only [sizeT]
      rw [h.freeBlocks_eq, hlen, Nat.add_comm]
      exact Nat.mod_eq_of_lt (by omega)

/-- One call of `memory_pool_alloc`. -/
theorem alloc (h : Inv t blockSize count u free) (hcount : 0 < count)
    (hfit : chunkSpan t blockSize count < 2 ^ 64) {found : Option ℕ}
    (hfound : ∀ c ∈ found, Granted t (u.pool.chunkBytes t) u.chunks c) :
    ∃ free', Inv t blockSize count (u.alloc t found) free' := by
  rw [PoolUse.alloc, MemoryPool.alloc]
  by_cases hzero : u.pool.freeList = 0
  · rw [if_pos hzero, if_pos hzero]
    cases found with
    | none => exact ⟨free, h⟩
    | some c =>
      have hc := hfound c rfl
      rw [h.chunkBytes_eq hfit] at hc
      obtain ⟨pool, m, free', hadd, hne, hinv⟩ := h.addChunk hcount hfit hc
      obtain ⟨rest, -, htake⟩ := hinv.takeBlock hne
      rw [hadd]
      exact ⟨rest, htake⟩
  · rw [if_neg hzero, if_neg hzero]
    obtain ⟨rest, -, htake⟩ := h.takeBlock hzero
    exact ⟨rest, htake⟩

/-- **The invariant is kept** by every call, and by every write of the callers. -/
theorem step (h : Inv t blockSize count u free) (hcount : 0 < count)
    (hfit : chunkSpan t blockSize count < 2 ^ 64) {u' : PoolUse} (hstep : PoolUse.Step t u u') :
    ∃ free', Inv t blockSize count u' free' := by
  cases hstep with
  | alloc found hfound => exact h.alloc hcount hfit hfound
  | free ptr hlive => exact ⟨_, h.free_live hlive⟩
  | write m hm => exact ⟨free, h.write hfit hm⟩

/-- The pool before its first chunk. -/
theorem fresh (t : Platform) (blockSize : ℕ) {initialBlocks : ℤ} (m : Bytes)
    (h : roundedBlock t blockSize < 2 ^ 64) :
    Inv t blockSize initialBlocks.toNat ⟨MemoryPool.fresh t blockSize initialBlocks, m, [], []⟩
      [] := by
  refine ⟨⟨rfl, alignUp_eq h, rfl, .nil, ?_, .nil, .nil, .refl _⟩, (Nat.zero_mul _).symm, rfl⟩
  exact fun c hc => absurd hc List.not_mem_nil

/-- What the invariant says about the callers' blocks. -/
theorem owns (h : Inv t blockSize count u free)
    (hfit : chunkSpan t blockSize count < 2 ^ 64) : u.Owns t blockSize := by
  have hle := le_roundedBlock t blockSize
  have hnodup := List.nodup_append.mp h.nodup
  refine ⟨hnodup.2.1, ?_, ?_, ⟨free, h.freeChain, ?_, h.freeBlocks_eq⟩, ?_⟩
  · exact (List.pairwise_append.mp h.pairwise).2.1.imp fun hpq => hpq.mono (by omega) (by omega)
  · intro p hp
    obtain ⟨c, hc, hcp, hpc⟩ := h.inside (List.mem_append_right _ hp)
    rw [h.chunkBytes_eq hfit]
    exact ⟨c, hc, hcp, by omega⟩
  · exact fun p hp hfree => hnodup.2.2 p hfree p hp rfl
  · have hlt := h.length_lt
    have hlen := h.length_eq
    have htotal := h.total
    have hfree := h.freeBlocks_eq
    simp only [MemoryPool.activeCount, sizeT]
    omega

end Inv

/-! ## Every run -/

theorem create_eq {initialBlocks : ℤ} {out : Bool} {found : Option ℕ} {m : Bytes}
    {r : MemoryPool × Bytes}
    (h : MemoryPool.create t blockSize initialBlocks out found m = some r) :
    blockSize ≠ 0 ∧ 0 < initialBlocks ∧
      (MemoryPool.fresh t blockSize initialBlocks).addChunk t found m = some r := by
  rw [MemoryPool.create] at h
  split at h
  · exact absurd h (by simp)
  · next hpos =>
    split at h
    · exact absurd h (by simp)
    · exact ⟨fun hzero => hpos (.inl hzero), not_le.mp fun hle => hpos (.inr hle), h⟩

theorem PoolUse.Reachable.created {initialBlocks : ℤ}
    (h : PoolUse.Reachable t blockSize initialBlocks u) : blockSize ≠ 0 ∧ 0 < initialBlocks := by
  induction h with
  | create hcreate _ =>
    obtain ⟨hsize, hblocks, -⟩ := create_eq hcreate
    exact ⟨hsize, hblocks⟩
  | step _ _ ih => exact ih

/-- The invariant holds in every run, if the header and the blocks of a chunk fit in a `size_t`. -/
theorem PoolUse.Reachable.inv {initialBlocks : ℤ}
    (hfit : chunkSpan t blockSize initialBlocks.toNat < 2 ^ 64)
    (h : PoolUse.Reachable t blockSize initialBlocks u) :
    0 < initialBlocks.toNat ∧ ∃ free, Inv t blockSize initialBlocks.toNat u free := by
  induction h with
  | @create out c m m' pool hcreate hc =>
    obtain ⟨-, hpos, hadd⟩ := create_eq hcreate
    have hcount : 0 < initialBlocks.toNat := by omega
    have hrounded : roundedBlock t blockSize < 2 ^ 64 := by
      have hmul := Nat.mul_le_mul_right (roundedBlock t blockSize) hcount
      rw [chunkSpan] at hfit
      omega
    have hfresh := @Inv.fresh t blockSize initialBlocks m hrounded
    rw [hfresh.chunkBytes_eq hfit] at hc
    obtain ⟨pool', m'', free, hadd', -, hinv⟩ := hfresh.addChunk hcount hfit hc
    rw [hadd] at hadd'
    obtain ⟨rfl, rfl⟩ := Prod.mk.inj (Option.some.inj hadd')
    exact ⟨hcount, free, hinv⟩
  | step _ hstep ih =>
    obtain ⟨hcount, free, hinv⟩ := ih
    exact ⟨hcount, hinv.step hcount hfit hstep⟩

theorem linkBlocks_ne_zero {stride : ℕ} : ∀ {n ptr head : ℕ} {m : Bytes}, 0 < ptr →
    (0 < n ∨ head ≠ 0) → (MemoryPool.linkBlocks stride n ptr head m).1 ≠ 0
  | 0, _, _, _, _, h => h.resolve_left (Nat.lt_irrefl 0)
  | n + 1, ptr, _, _, hptr, _ => by
    rw [MemoryPool.linkBlocks]
    exact linkBlocks_ne_zero (Nat.add_pos_left hptr stride) (.inr hptr.ne')

@[simp] theorem chunkBytes_takeBlock (t : Platform) (pool : MemoryPool) (m : Bytes) :
    (pool.takeBlock m).2.1.chunkBytes t = pool.chunkBytes t := by
  rw [MemoryPool.takeBlock, MemoryPool.chunkBytes, MemoryPool.chunkBytes]

/-- Where header and blocks together do not fit, a chunk is smaller than its header. -/
theorem overrun {initialBlocks : ℤ} (hsize : blockSize ≠ 0) (hblocks : 0 < initialBlocks)
    (hproduct : initialBlocks.toNat * roundedBlock t blockSize < 2 ^ 64)
    (hover : 2 ^ 64 ≤ chunkSpan t blockSize initialBlocks.toNat) :
    ∃ u, PoolUse.Reachable t blockSize initialBlocks u ∧ u.live.length = 1 ∧
      u.pool.chunkBytes t < t.chunkSize ∧ ¬u.Owns t blockSize := by
  have hcount : 0 < initialBlocks.toNat := by omega
  have hsmall := t.small
  have hpos : 0 < t.maxAlign := Nat.two_pow_pos _
  have hrounded : roundedBlock t blockSize < 2 ^ 64 := by
    have hmul := Nat.mul_le_mul_right (roundedBlock t blockSize) hcount
    omega
  have hbytes : (MemoryPool.fresh t blockSize initialBlocks).chunkBytes t < t.chunkSize := by
    rw [chunkSpan] at hover
    simp only [MemoryPool.chunkBytes, MemoryPool.fresh, sizeT]
    rw [alignUp_eq hrounded, Nat.mul_comm (roundedBlock t blockSize)]
    omega
  have hc : Granted t ((MemoryPool.fresh t blockSize initialBlocks).chunkBytes t) []
      t.maxAlign := by
    refine ⟨hpos, Nat.dvd_refl _, ?_, fun d hd => absurd hd List.not_mem_nil⟩
    rw [Platform.maxAlign]
    omega
  cases hadd : MemoryPool.initChunkFreeList t
      { MemoryPool.fresh t blockSize initialBlocks with chunks := t.maxAlign } t.maxAlign
      (store (fun _ => 0) 8 t.maxAlign 0) with
  | mk pool m =>
    have hcreate : MemoryPool.create t blockSize initialBlocks true (some t.maxAlign)
        (fun _ => 0) = some (pool, m) := by
      rw [MemoryPool.create, if_neg (by omega), if_neg (by decide)]
      exact congrArg some hadd
    have hfst := congrArg Prod.fst hadd
    dsimp only at hfst
    have hpool : pool.chunkBytes t < t.chunkSize := by
      rw [← hfst]
      exact hbytes
    have hne : pool.freeList ≠ 0 := by
      rw [← hfst]
      exact linkBlocks_ne_zero (Nat.add_pos_left hpos _) (.inl hcount)
    have hcreated := PoolUse.Reachable.create hcreate hc
    have hstep := hcreated.step (.alloc none fun c hc => absurd hc (by simp))
    rw [PoolUse.alloc, MemoryPool.alloc, if_neg hne, if_neg hne] at hstep
    refine ⟨_, hstep, rfl, ?_, fun howns => ?_⟩
    · dsimp only
      rw [chunkBytes_takeBlock]
      exact hpool
    · obtain ⟨c, -, hcp, hpc⟩ := howns.inside pool.freeList List.mem_cons_self
      dsimp only at hpc
      rw [chunkBytes_takeBlock] at hpc
      omega

/-- **When the blocks that callers hold are theirs alone**: in every run, exactly when a chunk with
its header fits in a `size_t`. -/
theorem memoryPool_owns_iff (t : Platform) (blockSize : ℕ) (initialBlocks : ℤ)
    (hproduct : initialBlocks.toNat * roundedBlock t blockSize < 2 ^ 64) :
    (∀ u, PoolUse.Reachable t blockSize initialBlocks u → u.Owns t blockSize) ↔
      blockSize = 0 ∨ initialBlocks ≤ 0 ∨ chunkSpan t blockSize initialBlocks.toNat < 2 ^ 64 := by
  constructor
  · intro hall
    by_contra hnot
    rw [not_or, not_or, not_le, not_lt] at hnot
    obtain ⟨u, hu, -, -, hbad⟩ := overrun hnot.1 hnot.2.1 hproduct hnot.2.2
    exact hbad (hall u hu)
  · intro hcond u hu
    obtain ⟨hsize, hblocks⟩ := hu.created
    have hfit := (hcond.resolve_left hsize).resolve_left (not_le.mpr hblocks)
    obtain ⟨-, free, hinv⟩ := hu.inv hfit
    exact hinv.owns hfit

/-- A 64-bit platform with 16-byte alignment, where the header of a chunk takes 48 bytes. -/
def lp64 : Platform := ⟨4, 48, by decide, by decide⟩

theorem memoryPool_owns_iff_small :
    10 * roundedBlock lp64 24 < 2 ^ 64 ∧
    ((∀ u, PoolUse.Reachable lp64 24 10 u → u.Owns lp64 24) ↔
      (24 = 0 ∨ (10 : ℤ) ≤ 0 ∨ chunkSpan lp64 24 10 < 2 ^ 64)) :=
  ⟨by decide, memoryPool_owns_iff lp64 24 10 (by decide)⟩

/-- One block of 2 ^ 64 - 16 bytes: the pool gets a chunk of 32 bytes for it. -/
theorem memoryPool_overrun :
    (1 : ℤ).toNat * roundedBlock lp64 (2 ^ 64 - 16) < 2 ^ 64 ∧
      ∃ u, PoolUse.Reachable lp64 (2 ^ 64 - 16) 1 u ∧ u.live.length = 1 ∧
        u.pool.chunkBytes lp64 < lp64.chunkSize ∧ ¬u.Owns lp64 (2 ^ 64 - 16) := by
  refine ⟨by decide, overrun (by decide) (by decide) (by decide) (by decide)⟩

end OvaLib
