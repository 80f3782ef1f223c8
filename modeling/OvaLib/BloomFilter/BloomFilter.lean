import Mathlib.Data.Set.Basic
import Mathlib.Tactic.IntervalCases
import OvaLib.Foundation.PackedBits
import OvaLib.Types

/-!
# The Bloom filter

`bloom_filter.c`. An element is hashed twice, and its indices are `h1 + i * h2` modulo the number of
bits, all in 64 bits. Reading or writing a byte that was not allocated is `none`.

## The contract

An element is a byte sequence of any length. `might_contain` answers with possible membership or
definite absence: an element that was added since the last `clear` is never said to be absent. An
element that was not added may be said to be present, and how often that happens is not a matter of
this module.

## Why it holds

`add` sets the bits of the indices of an element, and `might_contain` asks for the bits of the same
indices, computed from the same bytes by the same arithmetic. In between, bits are only set, except
by `clear`, which starts over. That the wrapping sums and the fallback for a second hash of 0 are
the same in both loops is what the proof comes to; no property of the hash function is used. Every
index is below the number of bits, and there is a byte for it, so that no run leaves the array.

## Scope

`bloom_compute_params` works out the number of bits and of hashes in floating point; here they are
given, and only its last checks are modelled. The estimate of the error rate is left out, and so are
the two fields that only record what was asked for.

## Main results

* `bloomSetBit_spec`, `bloomGetBit_spec` — one bit
* `BloomFilter.add_spec`, `BloomFilter.mightContain_spec` — the marks of an element
* `bloomFilter_complete` — no false negatives, in every run
-/

namespace OvaLib

open Foundation

/-! ## The model -/

/-- `FNV1A64_OFFSET`. -/
def fnv1a64Offset : UInt64 := 14695981039346656037

/-- `FNV1A64_PRIME`. -/
def fnv1a64Prime : UInt64 := 1099511628211

/-- `BLOOM_SEED_1`. -/
def bloomSeed1 : UInt64 := 0x243f6a8885a308d3

/-- `BLOOM_SEED_2`. -/
def bloomSeed2 : UInt64 := 0x9e3779b97f4a7c15

/-- `BLOOM_H2_FALLBACK`. -/
def bloomH2Fallback : UInt64 := 0x27d4eb2f165667c5

/-- `fnv1a64_dual`: `*h1_out` and `*h2_out`. -/
def fnv1a64Dual (data : List UInt8) : UInt64 × UInt64 :=
  data.foldl (fun (h1, h2) byte =>
    ((h1 ^^^ byte.toUInt64) * fnv1a64Prime, (h2 ^^^ byte.toUInt64) * fnv1a64Prime))
    (fnv1a64Offset ^^^ bloomSeed1, fnv1a64Offset ^^^ bloomSeed2)

/-- `(uint8_t)(1u << (idx & 7u))`. -/
def bloomMask (idx : UInt64) : UInt8 := ((1 : UInt32) <<< (idx &&& 7).toUInt32).toUInt8

/-- `bloom_set_bit`. -/
def bloomSetBit (bits : List UInt8) (idx : UInt64) : Option (List UInt8) :=
  bits[(idx >>> 3).toNat]?.map fun byte => bits.set (idx >>> 3).toNat (byte ||| bloomMask idx)

/-- `bloom_get_bit`. -/
def bloomGetBit (bits : List UInt8) (idx : UInt64) : Option Bool :=
  bits[(idx >>> 3).toNat]?.map fun byte => byte &&& bloomMask idx ≠ 0

/-- `bloom_index`. -/
def bloomIndex (h1 h2 i mBits : UInt64) : UInt64 := (h1 + i * h2) % mBits

/-- `bloom_filter_impl`. -/
structure BloomFilter where
  mBits : UInt64
  kHashes : UInt64
  /-- The bytes that were allocated. -/
  bits : List UInt8
  itemsAdded : UInt64

namespace BloomFilter

/-- The end of `bloom_compute_params`, for the rounded number of bits and of hashes. -/
def checkParams (mBits kHashes : UInt64) : Option (UInt64 × UInt64) :=
  let kHashes := if kHashes = 0 then 1 else kHashes
  let bytes := (mBits + 7) / 8
  if bytes = 0 then none else some (mBits, kHashes)

/-- `create_bloom_filter`. -/
def create (mBits kHashes : UInt64) (a : Allocator) : Option BloomFilter × Allocator :=
  match checkParams mBits kHashes with
  | none => (none, a)
  | some (mBits, kHashes) =>
    let (out, a) := a.alloc
    if !out then (none, a)
    else
      let (impl, a) := a.alloc
      if !impl then (none, a)
      else
        let bytes := (mBits + 7) / 8
        let (bits, a) := a.alloc
        if !bits then (none, a)
        else (some ⟨mBits, kHashes, .replicate bytes.toNat 0, 0⟩, a)

/-- The loop of `bloom_filter_add_method`, for `n` hashes from `i` on. -/
def setBits (h1 h2 mBits : UInt64) : ℕ → UInt64 → List UInt8 → Option (List UInt8)
  | 0, _, bits => some bits
  | n + 1, i, bits =>
    (bloomSetBit bits (bloomIndex h1 h2 i mBits)).bind (setBits h1 h2 mBits n (i + 1))

/-- The loop of `bloom_filter_might_contain_method`. -/
def getBits (bits : List UInt8) (h1 h2 mBits : UInt64) : ℕ → UInt64 → Option Bool
  | 0, _ => some true
  | n + 1, i =>
    (bloomGetBit bits (bloomIndex h1 h2 i mBits)).bind fun bit =>
      if !bit then some false else getBits bits h1 h2 mBits n (i + 1)

/-- `bloom_filter_add_method`. The element is a byte string, or `NULL` with a length that is not
zero. -/
def add (f : BloomFilter) (element : Option (List UInt8)) : Option BloomFilter :=
  if f.mBits = 0 ∨ f.kHashes = 0 then some f
  else
    match element with
    | none => some f
    | some data =>
      let (h1, h2) := fnv1a64Dual data
      let h2 := if h2 = 0 then bloomH2Fallback else h2
      (setBits h1 h2 f.mBits f.kHashes.toNat 0 f.bits).map fun bits =>
        { f with bits := bits, itemsAdded := f.itemsAdded + 1 }

/-- `bloom_filter_might_contain_method`. -/
def mightContain (f : BloomFilter) (element : Option (List UInt8)) : Option Bool :=
  if f.mBits = 0 ∨ f.kHashes = 0 then some false
  else
    match element with
    | none => some false
    | some data =>
      let (h1, h2) := fnv1a64Dual data
      let h2 := if h2 = 0 then bloomH2Fallback else h2
      getBits f.bits h1 h2 f.mBits f.kHashes.toNat 0

/-- `bloom_filter_clear_method`. `memset` past the end of the array is `none`. -/
def clear (f : BloomFilter) : Option BloomFilter :=
  if f.mBits = 0 then some f
  else
    let bytes := ((f.mBits + 7) / 8).toNat
    if f.bits.length < bytes then none
    else some { f with bits := .replicate bytes 0 ++ f.bits.drop bytes, itemsAdded := 0 }

end BloomFilter

/-- A call that changes a filter. -/
inductive BloomCall
  | add (element : Option (List UInt8))
  | clear

namespace BloomFilter

/-- A call. -/
def step (f : BloomFilter) : BloomCall → Option BloomFilter
  | .add element => f.add element
  | .clear => f.clear

/-- A run. -/
def run (f : BloomFilter) : List BloomCall → Option BloomFilter
  | [] => some f
  | c :: calls => (f.step c).bind fun f => run f calls

end BloomFilter

/-- The elements after a call. -/
def BloomCall.contents (xs : List (List UInt8)) : BloomCall → List (List UInt8)
  | .add none => xs
  | .add (some data) => data :: xs
  | .clear => []

/-! ## One bit

The index of a bit is split into that of its byte and its place there, by a shift and a mask. -/

theorem bloomMask_eq (idx : UInt64) :
    (bloomMask idx).toBitVec = BitVec.twoPow 8 (idx.toNat % 8) := by
  have hlt : idx.toNat % 8 < 8 := Nat.mod_lt _ (by decide)
  have hand : idx &&& 7 = UInt64.ofNat (idx.toNat % 8) := by
    refine UInt64.toNat_inj.mp ?_
    rw [UInt64.toNat_and, UInt64.toNat_ofNat', Nat.mod_eq_of_lt (by omega)]
    exact Nat.and_two_pow_sub_one_eq_mod idx.toNat 3
  rw [bloomMask, hand]
  generalize idx.toNat % 8 = k at hlt
  interval_cases k <;> rfl

theorem shiftRight_three (idx : UInt64) : (idx >>> 3).toNat = idx.toNat / 8 := by
  rw [UInt64.toNat_shiftRight]
  exact Nat.shiftRight_eq_div_pow _ _

/-- **`bloom_set_bit`** sets the bit at the index. -/
theorem bloomSetBit_spec {bits : List UInt8} {idx : UInt64} (hidx : idx.toNat / 8 < bits.length) :
    ∃ bits', bloomSetBit bits idx = some bits' ∧ bits'.length = bits.length ∧
      ∀ j, bitAt bits' j = (bitAt bits j || decide (j = idx.toNat)) := by
  refine ⟨_, ?_, List.length_set, bitAt_set_or hidx (bloomMask_eq idx)⟩
  rw [bloomSetBit, shiftRight_three, List.getElem?_eq_getElem hidx]
  rfl

/-- **`bloom_get_bit`** reads the bit at the index. -/
theorem bloomGetBit_spec {bits : List UInt8} {idx : UInt64} (hidx : idx.toNat / 8 < bits.length) :
    bloomGetBit bits idx = some (bitAt bits idx.toNat) := by
  have hmask := mask_eq_zero_iff (b := bits[idx.toNat / 8]) (bloomMask_eq idx)
    (Nat.mod_lt _ (by decide))
  rw [bloomGetBit, shiftRight_three, List.getElem?_eq_getElem hidx, Option.map_some, bitAt,
    List.getElem?_eq_getElem hidx, Option.getD_some]
  refine congrArg some (Bool.eq_iff_iff.mpr ?_)
  rw [decide_eq_true_eq, ne_eq, hmask, Bool.not_eq_false]

theorem bloomIndex_lt {mBits : UInt64} (hm : mBits ≠ 0) (h1 h2 i : UInt64) :
    (bloomIndex h1 h2 i mBits).toNat < mBits.toNat := by
  rw [bloomIndex, UInt64.toNat_mod]
  refine Nat.mod_lt _ (Nat.pos_of_ne_zero fun h => hm (UInt64.toNat_inj.mp ?_))
  rw [h]
  rfl

/-! ## The marks of an element

The loops of the two methods, by induction on the number of hashes that are left. -/

/-- The bits that are set. -/
def marked (bits : List UInt8) : Set ℕ := {j | bitAt bits j = true}

/-- The indices of `n` hashes from `i` on. -/
def marks (h1 h2 mBits : UInt64) (n : ℕ) (i : UInt64) : Set ℕ :=
  {j | ∃ t < n, j = (bloomIndex h1 h2 (i + UInt64.ofNat t) mBits).toNat}

theorem marks_zero (h1 h2 mBits i : UInt64) : marks h1 h2 mBits 0 i = ∅ :=
  Set.eq_empty_of_forall_notMem fun _ ⟨_, ht, _⟩ => absurd ht (Nat.not_lt_zero _)

theorem marks_succ (h1 h2 mBits : UInt64) (n : ℕ) (i : UInt64) : marks h1 h2 mBits (n + 1) i =
    insert (bloomIndex h1 h2 i mBits).toNat (marks h1 h2 mBits n (i + 1)) := by
  have hnext : ∀ t, i + UInt64.ofNat (t + 1) = i + 1 + UInt64.ofNat t := fun t => by
    rw [UInt64.ofNat_add, UInt64.add_comm (UInt64.ofNat t), UInt64.add_assoc]
    rfl
  have hfirst : i + UInt64.ofNat 0 = i := UInt64.add_zero i
  ext j
  constructor
  · rintro ⟨t, ht, rfl⟩
    cases t with
    | zero => exact .inl (by rw [hfirst])
    | succ t => exact .inr ⟨t, Nat.lt_of_succ_lt_succ ht, by rw [hnext]⟩
  · rintro (rfl | ⟨t, ht, rfl⟩)
    · exact ⟨0, Nat.succ_pos n, by rw [hfirst]⟩
    · exact ⟨t + 1, Nat.succ_lt_succ ht, by rw [hnext]⟩

namespace BloomFilter

variable {h1 h2 mBits kHashes : UInt64} {f f' : BloomFilter} {xs : List (List UInt8)}

variable (h1 h2) in
/-- **The loop of `add`** marks the indices, and keeps every other mark. -/
theorem setBits_spec (hm : mBits ≠ 0) : ∀ (n : ℕ) (i : UInt64) {bits : List UInt8},
    mBits.toNat ≤ 8 * bits.length → ∃ bits', setBits h1 h2 mBits n i bits = some bits' ∧
      bits'.length = bits.length ∧ marked bits' = marked bits ∪ marks h1 h2 mBits n i
  | 0, i, bits, _ => ⟨bits, rfl, rfl, by rw [marks_zero, Set.union_empty]⟩
  | n + 1, i, bits, hbits => by
    have hidx := bloomIndex_lt hm h1 h2 i
    obtain ⟨bits₁, hset, hlen₁, hbit⟩ :=
      bloomSetBit_spec (show (bloomIndex h1 h2 i mBits).toNat / 8 < bits.length by omega)
    obtain ⟨bits', hrest, hlen', hmarks⟩ := setBits_spec hm n (i + 1) (hlen₁.symm ▸ hbits)
    refine ⟨bits', ?_, hlen'.trans hlen₁, ?_⟩
    · rw [setBits, hset, Option.bind_some, hrest]
    · have hmarked : marked bits₁ = insert (bloomIndex h1 h2 i mBits).toNat (marked bits) := by
        ext j
        show bitAt bits₁ j = true ↔ _
        rw [hbit, Bool.or_eq_true, decide_eq_true_eq, or_comm]
        rfl
      rw [hmarks, hmarked, marks_succ, Set.insert_union, Set.union_insert]

/-- **The loop of `might_contain`** looks at the same indices. -/
theorem getBits_spec (hm : mBits ≠ 0) {bits : List UInt8} (hbits : mBits.toNat ≤ 8 * bits.length) :
    ∀ (n : ℕ) (i : UInt64), ∃ b, getBits bits h1 h2 mBits n i = some b ∧
      (b = true ↔ marks h1 h2 mBits n i ⊆ marked bits)
  | 0, i => ⟨true, rfl, by simp [marks_zero]⟩
  | n + 1, i => by
    have hidx := bloomIndex_lt hm h1 h2 i
    obtain ⟨b, hrest, hiff⟩ := getBits_spec hm hbits n (i + 1)
    rw [getBits, bloomGetBit_spec (by omega), Option.bind_some, marks_succ, Set.insert_subset_iff,
      ← hiff]
    show ∃ c, _ ∧ (c = true ↔ bitAt bits (bloomIndex h1 h2 i mBits).toNat = true ∧ b = true)
    cases bitAt bits (bloomIndex h1 h2 i mBits).toNat with
    | false => exact ⟨false, rfl, by simp⟩
    | true => exact ⟨b, hrest, by simp⟩

/-- The indices of an element. -/
def marksOf (mBits kHashes : UInt64) (data : List UInt8) : Set ℕ :=
  marks (fnv1a64Dual data).1
    (if (fnv1a64Dual data).2 = 0 then bloomH2Fallback else (fnv1a64Dual data).2) mBits
    kHashes.toNat 0

/-- A filter with this number of bits and of hashes, to which these elements were added. -/
structure Holds (mBits kHashes : UInt64) (f : BloomFilter) (xs : List (List UInt8)) : Prop where
  mBits_eq : f.mBits = mBits
  kHashes_eq : f.kHashes = kHashes
  mBits_ne : mBits ≠ 0
  kHashes_ne : kHashes ≠ 0
  bytes_eq : ((mBits + 7) / 8).toNat = (mBits.toNat + 7) / 8
  /-- There is a byte for every bit. -/
  length_eq : f.bits.length = (mBits.toNat + 7) / 8
  marked : ∀ x ∈ xs, marksOf mBits kHashes x ⊆ OvaLib.marked f.bits

theorem Holds.le_bits (h : Holds mBits kHashes f xs) : mBits.toNat ≤ 8 * f.bits.length := by
  have hlen := h.length_eq
  omega

/-- **`add`** marks the element, and keeps every other mark. -/
theorem add_spec (h : Holds mBits kHashes f xs) (element : Option (List UInt8)) :
    ∃ f', f.add element = some f' ∧
      Holds mBits kHashes f' (BloomCall.contents xs (.add element)) := by
  have hguard : ¬(f.mBits = 0 ∨ f.kHashes = 0) := by
    rw [h.mBits_eq, h.kHashes_eq]
    exact not_or.mpr ⟨h.mBits_ne, h.kHashes_ne⟩
  cases element with
  | none => exact ⟨f, if_neg hguard, h⟩
  | some data =>
    obtain ⟨bits, hset, hlen, hmarks⟩ := setBits_spec (fnv1a64Dual data).1
      (if (fnv1a64Dual data).2 = 0 then bloomH2Fallback else (fnv1a64Dual data).2)
      h.mBits_ne kHashes.toNat 0 h.le_bits
    refine ⟨{ f with bits := bits, itemsAdded := f.itemsAdded + 1 }, ?_, h.mBits_eq, h.kHashes_eq,
      h.mBits_ne, h.kHashes_ne, h.bytes_eq, hlen.trans h.length_eq, fun x hx => ?_⟩
    · rw [add, if_neg hguard, h.mBits_eq, h.kHashes_eq]
      dsimp only
      rw [hset]
      rfl
    · show _ ⊆ OvaLib.marked bits
      rw [hmarks]
      rcases List.mem_cons.mp hx with rfl | hx
      · exact Set.subset_union_right
      · exact (h.marked x hx).trans Set.subset_union_left

/-- **`might_contain`** says whether all bits of the element are set. -/
theorem mightContain_spec (h : Holds mBits kHashes f xs) (data : List UInt8) :
    ∃ b, f.mightContain (some data) = some b ∧
      (b = true ↔ marksOf mBits kHashes data ⊆ OvaLib.marked f.bits) := by
  have hguard : ¬(f.mBits = 0 ∨ f.kHashes = 0) := by
    rw [h.mBits_eq, h.kHashes_eq]
    exact not_or.mpr ⟨h.mBits_ne, h.kHashes_ne⟩
  rw [mightContain, if_neg hguard, h.mBits_eq, h.kHashes_eq]
  exact getBits_spec h.mBits_ne h.le_bits kHashes.toNat 0

/-- `clear` leaves no element. -/
theorem clear_spec (h : Holds mBits kHashes f xs) :
    ∃ f', f.clear = some f' ∧ Holds mBits kHashes f' [] := by
  have hbytes := h.bytes_eq
  have hlen := h.length_eq
  rw [clear, h.mBits_eq, if_neg h.mBits_ne]
  dsimp only
  rw [if_neg (by omega)]
  refine ⟨_, rfl, rfl, h.kHashes_eq, h.mBits_ne, h.kHashes_ne, hbytes, ?_,
    fun x hx => absurd hx List.not_mem_nil⟩
  rw [List.length_append, List.length_replicate, List.length_drop]
  omega

/-- A number of bytes that wraps around is 0, and refused. -/
theorem bytes_of_ne_zero (h : (mBits + 7) / 8 ≠ 0) :
    mBits ≠ 0 ∧ ((mBits + 7) / 8).toNat = (mBits.toNat + 7) / 8 := by
  have hbytes : ((mBits + 7) / 8).toNat = (mBits.toNat + 7) % 2 ^ 64 / 8 := by
    rw [UInt64.toNat_div, UInt64.toNat_add]
    rfl
  have hne : ((mBits + 7) / 8).toNat ≠ 0 := fun h0 => h (UInt64.toNat_inj.mp h0)
  have hlt := mBits.toNat_lt
  refine ⟨?_, by omega⟩
  rintro rfl
  exact h rfl

/-- A filter that was created has no elements. -/
theorem create_spec {a a' : Allocator} (h : create mBits kHashes a = (some f, a')) :
    Holds mBits (if kHashes = 0 then 1 else kHashes) f [] := by
  rw [create, checkParams] at h
  dsimp only at h
  by_cases hzero : (mBits + 7) / 8 = 0
  · rw [if_pos hzero] at h
    exact absurd (Prod.mk.inj h).1 (by simp)
  obtain ⟨hm, hbytes⟩ := bytes_of_ne_zero hzero
  rw [if_neg hzero] at h
  dsimp only at h
  split at h
  · exact absurd (Prod.mk.inj h).1 (by simp)
  split at h
  · exact absurd (Prod.mk.inj h).1 (by simp)
  split at h
  · exact absurd (Prod.mk.inj h).1 (by simp)
  obtain rfl := Option.some.inj (Prod.mk.inj h).1
  refine ⟨rfl, rfl, hm, ?_, hbytes, ?_, fun x hx => absurd hx List.not_mem_nil⟩
  · split
    · decide
    · assumption
  · rw [List.length_replicate, hbytes]

/-- **A run** goes through, and the elements of the filter are those it should have. -/
theorem run_spec : ∀ (calls : List BloomCall) {f : BloomFilter} {xs : List (List UInt8)},
    Holds mBits kHashes f xs →
    ∃ f', f.run calls = some f' ∧ Holds mBits kHashes f' (calls.foldl BloomCall.contents xs)
  | [], f, xs, h => ⟨f, rfl, h⟩
  | .add element :: calls, f, xs, h => by
    obtain ⟨f₁, hadd, h₁⟩ := add_spec h element
    obtain ⟨f', hrun, h'⟩ := run_spec calls h₁
    refine ⟨f', ?_, h'⟩
    rw [run, step, hadd, Option.bind_some, hrun]
  | .clear :: calls, f, xs, h => by
    obtain ⟨f₁, hclear, h₁⟩ := clear_spec h
    obtain ⟨f', hrun, h'⟩ := run_spec calls h₁
    refine ⟨f', ?_, h'⟩
    rw [run, step, hclear, Option.bind_some, hrun]

/-- **No false negatives.** In every run of a filter that was created, with any number of bits and
of hashes, every element added since the last `clear` is found; every index is one of a bit, and its
byte was allocated. -/
theorem bloomFilter_complete {a a' : Allocator} (h : create mBits kHashes a = (some f, a'))
    (calls : List BloomCall) : ∃ f', f.run calls = some f' ∧ f'.mBits = mBits ∧
      f'.kHashes = (if kHashes = 0 then 1 else kHashes) ∧ f'.bits.length = (mBits.toNat + 7) / 8 ∧
      (∀ x ∈ calls.foldl BloomCall.contents [], f'.mightContain (some x) = some true) ∧
      ∀ h1 h2 i, (bloomIndex h1 h2 i f'.mBits).toNat < mBits.toNat ∧
        (bloomIndex h1 h2 i f'.mBits >>> 3).toNat < f'.bits.length := by
  obtain ⟨f', hrun, h'⟩ := run_spec calls (create_spec h)
  refine ⟨f', hrun, h'.mBits_eq, h'.kHashes_eq, h'.length_eq, fun x hx => ?_, fun h1 h2 i => ?_⟩
  · obtain ⟨b, hget, hiff⟩ := mightContain_spec h' x
    rw [hget, hiff.mpr (h'.marked x hx)]
  · have hidx := bloomIndex_lt h'.mBits_ne h1 h2 i
    have hbits := h'.le_bits
    rw [h'.mBits_eq, shiftRight_three]
    exact ⟨hidx, by omega⟩

/-- An element added after a `clear`, in ten bits. -/
theorem bloomFilter_complete_ten : ∃ f, create 10 3 .always = (some f, .always) ∧
    ∃ f', f.run [.add (some [1, 2]), .clear, .add (some []), .add none] = some f' ∧
      f'.mBits = 10 ∧ f'.kHashes = (if (3 : UInt64) = 0 then 1 else 3) ∧
      f'.bits.length = ((10 : UInt64).toNat + 7) / 8 ∧
      (∀ x ∈ [BloomCall.add (some [1, 2]), .clear, .add (some []), .add none].foldl
        BloomCall.contents [], f'.mightContain (some x) = some true) ∧
      ∀ h1 h2 i, (bloomIndex h1 h2 i f'.mBits).toNat < (10 : UInt64).toNat ∧
        (bloomIndex h1 h2 i f'.mBits >>> 3).toNat < f'.bits.length :=
  ⟨⟨10, 3, [0, 0], 0⟩, rfl, bloomFilter_complete (a := .always) rfl _⟩

end BloomFilter

end OvaLib
