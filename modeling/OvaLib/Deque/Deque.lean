import OvaLib.Foundation.CircularBuffer
import OvaLib.Types

/-!
# The deque

`deque.c`. The elements lie in a circular buffer. All computations with indices are in `int`; the
buffer is a function of the index, and the slots in use hold the elements, which are pointers.

## The contract

The deque stores pointers that belong to the caller. A push at either end returns `OVA_SUCCESS` or a
negative code; `pop` and `peek` at either end return a pointer, or `NULL` when the deque is empty.
`NULL` can be pushed like any other pointer, and a caller cannot tell it from an empty deque except
by the size. `get` counts from the front and returns `NULL` outside of the deque. `clone_shallow`
returns a deque that shares the pointers, or `NULL` on failure.

## What is proved

The specification is a plain list: `Call.Allowed` says what each call may answer on a list and which
list it leaves. A push may fail only at the moment its allocation does, and then the list is what it
was; a clone may fail only when one of its three allocations does. `Holds` couples a deque to a
list, by way of the circular buffer of the library. Each method is one lemma about `Holds`, and a
run follows by induction on the calls.

## Scope

The statements are for capacities below `2 ^ 30`, which `Below` asks of the states of a run. From
there on the sum of a front slot and a size can leave the range of `int`, and what a call does is no
longer determined by the source. `IndexArithmetic` is about that bound. A deep clone is a new deque
with one push for every element, and needs no definition of its own here.

## Main results

* `Holds.pushFront`, `Holds.pushBack`, `Holds.popFront`, `Holds.popBack`, `Holds.cloneShallow` — the
  methods on a deque that holds a sequence
* `deque_refines_sequence` — every run is a run of a sequence
-/

namespace OvaLib

namespace Deque

open Foundation

/-! ## The model -/

/-- `DEFAULT_CAPACITY`. -/
def defaultCapacity : ℤ := 16

/-- `deque_impl`. -/
structure DequeImpl (α : Type*) where
  /-- The slots; those outside of the buffer are never touched. -/
  buffer : ℤ → Option α
  capacity : ℤ
  size : ℤ
  /-- The slot of the first element. -/
  front : ℤ

variable {α : Type*}

/-- `memcpy` of `n` slots, to the slot `dstIndex` of one buffer from the slot `srcIndex` of
another. -/
def memcpy (dst : ℤ → Option α) (dstIndex : ℤ) (src : ℤ → Option α) (srcIndex n : ℤ) :
    ℤ → Option α :=
  fun i => if dstIndex ≤ i ∧ i < dstIndex + n then src (srcIndex + (i - dstIndex)) else dst i

namespace DequeImpl

/-- `create_deque`: the object, its `impl` and the buffer, all zeroed. -/
def create (capacity : ℤ) (a : Allocator) : Option (DequeImpl α) × Allocator :=
  let capacity := if capacity ≤ 0 then defaultCapacity else capacity
  let (out, a) := a.alloc
  if !out then (none, a)
  else
    let (impl, a) := a.alloc
    if !impl then (none, a)
    else
      let (buffer, a) := a.alloc
      if !buffer then (none, a) else (some ⟨fun _ => none, capacity, 0, 0⟩, a)

/-- The elements in use, copied in order to the beginning of a buffer. -/
def unroll (d : DequeImpl α) (newBuffer : ℤ → Option α) : ℤ → Option α :=
  let headCount := int32 (d.capacity - d.front)
  if headCount ≥ d.size then memcpy newBuffer 0 d.buffer d.front d.size
  else
    memcpy (memcpy newBuffer 0 d.buffer d.front headCount) headCount d.buffer 0
      (int32 (d.size - headCount))

/-- `deque_resize_impl`: whether it returned 0, and the deque afterwards. -/
def resize (d : DequeImpl α) (a : Allocator) : Bool × DequeImpl α × Allocator :=
  let newCapacity := safeDoubleCapacity d.capacity.toNat
  if newCapacity = d.capacity then (false, d, a)
  else
    let (newBuffer, a) := a.alloc
    if !newBuffer then (false, d, a)
    else
      (true, { d with buffer := d.unroll fun _ => none, capacity := newCapacity, front := 0 }, a)

/-- The growth at the beginning of a push. -/
def ensureRoom (d : DequeImpl α) (a : Allocator) : Bool × DequeImpl α × Allocator :=
  if d.size = d.capacity then d.resize a else (true, d, a)

/-- `deque_push_front_method`. -/
def pushFront (d : DequeImpl α) (element : Option α) (a : Allocator) :
    ErrorCode × DequeImpl α × Allocator :=
  match d.ensureRoom a with
  | (false, d, a) => (.errorMemory, d, a)
  | (true, d, a) =>
    let front := (int32 (int32 (d.front - 1) + d.capacity)).tmod d.capacity
    (.success, { d with
      front := front
      buffer := Function.update d.buffer front element
      size := int32 (d.size + 1) }, a)

/-- `deque_push_back_method`. -/
def pushBack (d : DequeImpl α) (element : Option α) (a : Allocator) :
    ErrorCode × DequeImpl α × Allocator :=
  match d.ensureRoom a with
  | (false, d, a) => (.errorMemory, d, a)
  | (true, d, a) =>
    let back := (int32 (d.front + d.size)).tmod d.capacity
    (.success, { d with
      buffer := Function.update d.buffer back element
      size := int32 (d.size + 1) }, a)

/-- `deque_pop_front_method`. -/
def popFront (d : DequeImpl α) : Option α × DequeImpl α :=
  if d.size = 0 then (none, d)
  else
    (d.buffer d.front, { d with
      buffer := Function.update d.buffer d.front none
      front := (int32 (d.front + 1)).tmod d.capacity
      size := d.size - 1 })

/-- The slot of the last element. -/
def back (d : DequeImpl α) : ℤ := (int32 (int32 (d.front + d.size) - 1)).tmod d.capacity

/-- `deque_pop_back_method`. -/
def popBack (d : DequeImpl α) : Option α × DequeImpl α :=
  if d.size = 0 then (none, d)
  else
    (d.buffer d.back, { d with
      buffer := Function.update d.buffer d.back none
      size := d.size - 1 })

/-- `deque_peek_front_method`. -/
def peekFront (d : DequeImpl α) : Option α := if d.size = 0 then none else d.buffer d.front

/-- `deque_peek_back_method`. -/
def peekBack (d : DequeImpl α) : Option α := if d.size = 0 then none else d.buffer d.back

/-- `deque_get_method`. -/
def get (d : DequeImpl α) (index : ℤ) : Option α :=
  if index < 0 ∨ index ≥ d.size then none
  else d.buffer ((int32 (d.front + index)).tmod d.capacity)

/-- `deque_clone_shallow_method`. -/
def cloneShallow (d : DequeImpl α) (a : Allocator) : Option (DequeImpl α) × Allocator :=
  match create (if d.size > 0 then d.size else defaultCapacity) a with
  | (none, a) => (none, a)
  | (some copy, a) =>
    if d.size > 0 then (some { copy with buffer := d.unroll copy.buffer, size := d.size }, a)
    else (some copy, a)

end DequeImpl

/-! ## Deques that hold a sequence

The coupling invariant. It says nothing about the slots that are not in use. `pop` sets the one it
empties to `NULL`, but no later call depends on that. -/

open DequeImpl

/-- The deque holds a sequence of elements. -/
structure Holds (d : DequeImpl α) (s : List (Option α)) : Prop where
  /-- The slots in use, from the front on and around the end, hold the elements. -/
  circular : Circular d.capacity d.front d.buffer s
  size : d.size = s.length
  capacity_le : d.capacity ≤ intMax

variable {d : DequeImpl α} {s : List (Option α)}

theorem Holds.capacity_pos (h : Holds d s) : 0 < d.capacity :=
  h.circular.front_nonneg.trans_lt h.circular.front_lt

/-- The copy in one or two pieces. -/
theorem Holds.unroll (h : Holds d s) {newCapacity : ℤ} (hcap : 0 < newCapacity)
    (hroom : s.length ≤ newCapacity) (newBuffer : ℤ → Option α) :
    Circular newCapacity 0 (d.unroll newBuffer) s := by
  have hlow := h.circular.front_nonneg
  have hhigh := h.circular.front_lt
  have hlen := h.circular.length_le
  have hmax := h.capacity_le
  have hint : ((intMax : ℕ) : ℤ) = 2147483647 := rfl
  have hhead : int32 (d.capacity - d.front) = d.capacity - d.front := int32_eq (by omega) (by omega)
  unfold DequeImpl.unroll
  dsimp only
  rw [hhead, h.size]
  split
  · next hone =>
    refine h.circular.copy_once hcap hroom hone fun i hi hlt => ?_
    rw [memcpy, if_pos ⟨hi, by omega⟩, sub_zero]
  · next hone =>
    have htail : int32 ((s.length : ℤ) - (d.capacity - d.front)) =
        s.length - (d.capacity - d.front) := int32_eq (by omega) (by omega)
    rw [htail]
    refine h.circular.copy_twice hcap hroom (fun i hi hlt => ?_) fun i hi hlt => ?_
    · rw [memcpy, if_neg (by omega), memcpy, if_pos ⟨hi, by omega⟩, sub_zero]
    · rw [memcpy, if_pos ⟨hi, by omega⟩, zero_add]

/-- Growth keeps the sequence, and fails only when an allocation does. -/
theorem Holds.ensureRoom (h : Holds d s) (hbig : d.capacity < 2 ^ 30) (a : Allocator) :
    (∃ d' a', d.ensureRoom a = (true, d', a') ∧ Holds d' s ∧ s.length < d'.capacity ∧
        d'.front + d'.capacity ≤ intMax) ∨
      ∃ a', d.ensureRoom a = (false, d, a') ∧ a.outcome 0 = false := by
  have hlow := h.circular.front_nonneg
  have hhigh := h.circular.front_lt
  have hlen := h.circular.length_le
  have hsize := h.size
  have hint : ((intMax : ℕ) : ℤ) = 2147483647 := rfl
  rw [DequeImpl.ensureRoom]
  split
  · next hfull =>
    have hdouble : safeDoubleCapacity d.capacity.toNat = d.capacity.toNat * 2 := by
      have hhalf : intMax / 2 = 1073741823 := rfl
      rw [safeDoubleCapacity]
      rw [if_neg]
      omega
    rw [DequeImpl.resize]
    dsimp only
    rw [hdouble, if_neg (by omega)]
    by_cases halloc : a.outcome 0 = true
    · left
      simp only [Allocator.alloc, halloc, Bool.not_true, Bool.false_eq_true, if_false]
      have hnew : ((d.capacity.toNat * 2 : ℕ) : ℤ) = d.capacity * 2 := by omega
      simp only [hnew]
      have hcopied : Circular (d.capacity * 2) 0 (d.unroll fun _ => none) s :=
        h.unroll (by omega) (by omega) _
      exact ⟨_, _, rfl, ⟨hcopied, hsize, by dsimp only; omega⟩, by dsimp only; omega,
        by dsimp only; omega⟩
    · right
      have hfalse : a.outcome 0 = false := Bool.eq_false_iff.mpr halloc
      simp only [Allocator.alloc, hfalse, Bool.not_false, if_true]
      exact ⟨_, rfl, trivial⟩
  · next hroom => exact .inl ⟨d, a, rfl, h, by omega, by omega⟩

/-! ## The methods -/

theorem Holds.pushFront (h : Holds d s) (hbig : d.capacity < 2 ^ 30) (x : Option α)
    (a : Allocator) :
    (∃ d' a', d.pushFront x a = (.success, d', a') ∧ Holds d' (x :: s)) ∨
      ∃ a', d.pushFront x a = (.errorMemory, d, a') ∧ a.outcome 0 = false := by
  rw [DequeImpl.pushFront]
  rcases h.ensureRoom hbig a with ⟨d', a', hroom, h', hlt, hint⟩ | ⟨a', hroom, hfail⟩
  · left
    have hlow := h'.circular.front_nonneg
    have hmax : ((intMax : ℕ) : ℤ) = 2147483647 := rfl
    have hfront : (int32 (int32 (d'.front - 1) + d'.capacity)).tmod d'.capacity =
        slot d'.capacity d'.front (d'.capacity - 1) := by
      have hhigh := h'.circular.front_lt
      rw [int32_eq (n := d'.front - 1) (by omega) (by omega), int32_eq (by omega) (by omega),
        ← tmod_eq_slot (by omega) (by omega)]
      congr 1
      omega
    have hsize : int32 (d'.size + 1) = (x :: s).length := by
      rw [h'.size, int32_eq (by omega) (by omega), List.length_cons]
      push_cast
      rfl
    rw [hroom]
    dsimp only
    rw [hfront]
    exact ⟨_, _, rfl, h'.circular.pushFront hlt x, hsize, h'.capacity_le⟩
  · right
    rw [hroom]
    exact ⟨_, rfl, hfail⟩

theorem Holds.pushBack (h : Holds d s) (hbig : d.capacity < 2 ^ 30) (x : Option α)
    (a : Allocator) :
    (∃ d' a', d.pushBack x a = (.success, d', a') ∧ Holds d' (s ++ [x])) ∨
      ∃ a', d.pushBack x a = (.errorMemory, d, a') ∧ a.outcome 0 = false := by
  rw [DequeImpl.pushBack]
  rcases h.ensureRoom hbig a with ⟨d', a', hroom, h', hlt, hint⟩ | ⟨a', hroom, hfail⟩
  · left
    have hlow := h'.circular.front_nonneg
    have hhigh := h'.circular.front_lt
    have hmax : ((intMax : ℕ) : ℤ) = 2147483647 := rfl
    have hback : (int32 (d'.front + d'.size)).tmod d'.capacity =
        slot d'.capacity d'.front s.length := by
      rw [h'.size, int32_eq (by omega) (by omega), tmod_eq_slot (by omega) (by omega)]
    have hsize : int32 (d'.size + 1) = (s ++ [x]).length := by
      rw [h'.size, int32_eq (by omega) (by omega), List.length_append, List.length_singleton]
      push_cast
      rfl
    rw [hroom]
    dsimp only
    rw [hback]
    exact ⟨_, _, rfl, h'.circular.pushBack hlt x, hsize, h'.capacity_le⟩
  · right
    rw [hroom]
    exact ⟨_, rfl, hfail⟩

theorem exists_concat (l : List (Option α)) : l = [] ∨ ∃ s x, l = s ++ [x] := by
  rcases List.eq_nil_or_concat l with h | ⟨s, x, h⟩
  · exact .inl h
  · exact .inr ⟨s, x, by rw [h, List.concat_eq_append]⟩

theorem Holds.size_eq_zero_iff (h : Holds d s) : d.size = 0 ↔ s = [] := by
  rw [h.size, Int.natCast_eq_zero, List.length_eq_zero_iff]

theorem Holds.popFront (h : Holds d s) (hbig : d.capacity < 2 ^ 30) :
    d.popFront.1 = s.head?.join ∧ Holds d.popFront.2 s.tail := by
  rw [DequeImpl.popFront]
  cases s with
  | nil =>
    rw [if_pos (h.size_eq_zero_iff.mpr rfl)]
    exact ⟨rfl, h⟩
  | cons x s =>
    rw [if_neg (mt h.size_eq_zero_iff.mp (by simp))]
    have hlow := h.circular.front_nonneg
    have hhigh := h.circular.front_lt
    have hfront : (int32 (d.front + 1)).tmod d.capacity = slot d.capacity d.front 1 := by
      rw [int32_eq (by omega) (by omega), tmod_eq_slot (by omega) (by omega)]
    obtain ⟨hfirst, hrest⟩ := h.circular.popFront (y := none)
    rw [hfront]
    refine ⟨hfirst, hrest, ?_, h.capacity_le⟩
    have hsize := h.size
    rw [List.length_cons] at hsize
    push_cast at hsize
    show d.size - 1 = s.length
    omega

theorem Holds.back_eq {x : Option α} (h : Holds d (s ++ [x])) (hbig : d.capacity < 2 ^ 30) :
    d.back = slot d.capacity d.front s.length := by
  have hlow := h.circular.front_nonneg
  have hhigh := h.circular.front_lt
  have hlen := h.circular.length_le
  have hsize := h.size
  rw [List.length_append, List.length_singleton] at hlen hsize
  push_cast at hlen hsize
  rw [DequeImpl.back]
  rw [int32_eq (n := d.front + d.size) (by omega) (by omega), int32_eq (by omega) (by omega),
    ← tmod_eq_slot (by omega) (by omega)]
  congr 1
  omega

theorem Holds.popBack (h : Holds d s) (hbig : d.capacity < 2 ^ 30) :
    d.popBack.1 = s.getLast?.join ∧ Holds d.popBack.2 s.dropLast := by
  rw [DequeImpl.popBack]
  rcases exists_concat s with rfl | ⟨s, x, rfl⟩
  · rw [if_pos (h.size_eq_zero_iff.mpr rfl)]
    exact ⟨rfl, h⟩
  · rw [if_neg (mt h.size_eq_zero_iff.mp (by simp)), h.back_eq hbig, List.getLast?_concat,
      List.dropLast_concat]
    obtain ⟨hlast, hrest⟩ := h.circular.popBack (y := none)
    refine ⟨hlast, hrest, ?_, h.capacity_le⟩
    have hsize := h.size
    rw [List.length_append, List.length_singleton] at hsize
    push_cast at hsize
    show d.size - 1 = s.length
    omega

theorem Holds.peekFront (h : Holds d s) : d.peekFront = s.head?.join := by
  rw [DequeImpl.peekFront]
  cases s with
  | nil => rw [if_pos (h.size_eq_zero_iff.mpr rfl)]; rfl
  | cons x s =>
    rw [if_neg (mt h.size_eq_zero_iff.mp (by simp))]
    exact (h.circular.popFront (y := none)).1

theorem Holds.peekBack (h : Holds d s) (hbig : d.capacity < 2 ^ 30) :
    d.peekBack = s.getLast?.join := by
  rw [DequeImpl.peekBack]
  rcases exists_concat s with rfl | ⟨s, x, rfl⟩
  · rw [if_pos (h.size_eq_zero_iff.mpr rfl)]
    rfl
  · rw [if_neg (mt h.size_eq_zero_iff.mp (by simp)), h.back_eq hbig, List.getLast?_concat]
    exact (h.circular.popBack (y := none)).1

theorem Holds.get (h : Holds d s) (hbig : d.capacity < 2 ^ 30) (index : ℤ) :
    d.get index = if index < 0 then none else s[index.toNat]?.join := by
  have hlow := h.circular.front_nonneg
  have hhigh := h.circular.front_lt
  have hlen := h.circular.length_le
  rw [DequeImpl.get]
  rw [h.size]
  by_cases hneg : index < 0
  · rw [if_pos (.inl hneg), if_pos hneg]
  · rw [if_neg hneg]
    by_cases hout : index ≥ s.length
    · rw [if_pos (.inr hout), List.getElem?_eq_none (by omega)]
      rfl
    · have hlt : index.toNat < s.length := by omega
      have hcast : ((index.toNat : ℕ) : ℤ) = index := Int.toNat_of_nonneg (by omega)
      rw [if_neg (by omega), int32_eq (by omega) (by omega), tmod_eq_slot (by omega) (by omega),
        List.getElem?_eq_getElem hlt, ← h.circular.get _ hlt, hcast]
      rfl

theorem create_spec {capacity : ℤ} (hmax : capacity ≤ intMax) (a : Allocator) :
    (∃ (d : DequeImpl α) (a' : Allocator), create capacity a = (some d, a') ∧ Holds d [] ∧
        d.capacity = (if capacity ≤ 0 then defaultCapacity else capacity) ∧ d.front = 0) ∨
      ∃ a', create (α := α) capacity a = (none, a') ∧ ∃ i < 3, a.outcome i = false := by
  have hpos : 0 < if capacity ≤ 0 then defaultCapacity else capacity := by
    rw [defaultCapacity]
    split <;> omega
  have hle : (if capacity ≤ 0 then defaultCapacity else capacity) ≤ intMax := by
    have hint : ((intMax : ℕ) : ℤ) = 2147483647 := rfl
    rw [defaultCapacity]
    split <;> omega
  by_cases hall : ∀ i < 3, a.outcome i = true
  · have h₀ := hall 0 (by norm_num)
    have h₁ := hall 1 (by norm_num)
    have h₂ := hall 2 (by norm_num)
    refine .inl ⟨⟨fun _ => none, if capacity ≤ 0 then defaultCapacity else capacity, 0, 0⟩,
      ⟨fun n => a.outcome (n + 3)⟩, ?_,
      ⟨⟨le_refl _, hpos, hpos.le, fun i hi => absurd hi (Nat.not_lt_zero i)⟩, rfl, hle⟩, rfl, rfl⟩
    simp [DequeImpl.create, Allocator.alloc, h₀, h₁, h₂]
  · obtain ⟨i, hi, hfail⟩ := not_forall₂.mp hall
    refine .inr ⟨(create (α := α) capacity a).2, Prod.ext ?_ rfl, i, hi, by simpa using hfail⟩
    rw [Bool.not_eq_true] at hfail
    rcases (by omega : i = 0 ∨ i = 1 ∨ i = 2) with rfl | rfl | rfl
    · simp [DequeImpl.create, Allocator.alloc, hfail]
    · cases h₀ : a.outcome 0 <;> simp [DequeImpl.create, Allocator.alloc, h₀, hfail]
    · cases h₀ : a.outcome 0 <;> cases h₁ : a.outcome 1 <;>
        simp [DequeImpl.create, Allocator.alloc, h₀, h₁, hfail]

/-- A copy holds the same sequence, and fails only when an allocation does. -/
theorem Holds.cloneShallow (h : Holds d s) (a : Allocator) :
    (∃ copy a', d.cloneShallow a = (some copy, a') ∧ Holds copy s) ∨
      ∃ a', d.cloneShallow a = (none, a') ∧ ∃ i < 3, a.outcome i = false := by
  have hlen := h.circular.length_le
  have hmax := h.capacity_le
  have hsize := h.size
  have hint : ((intMax : ℕ) : ℤ) = 2147483647 := rfl
  have hcap : (if d.size > 0 then d.size else defaultCapacity) ≤ intMax := by
    rw [defaultCapacity]
    split <;> omega
  rw [DequeImpl.cloneShallow]
  rcases create_spec (α := α) hcap a with ⟨copy, a', hcreate, hcopy, hcopycap, hfront⟩ |
    ⟨a', hcreate, hfail⟩
  · left
    rw [hcreate]
    dsimp only
    split
    · next hpos =>
      rw [if_pos hpos, if_neg (by omega)] at hcopycap
      have hcopied : Circular copy.capacity 0 (d.unroll copy.buffer) s :=
        h.unroll (by omega) (by omega) _
      rw [← hfront] at hcopied
      exact ⟨_, _, rfl, hcopied, hsize, hcopy.capacity_le⟩
    · next hzero =>
      have hnil : s = [] := List.length_eq_zero_iff.mp (by omega)
      exact ⟨_, _, rfl, hnil ▸ hcopy⟩
  · right
    rw [hcreate]
    exact ⟨_, rfl, hfail⟩

/-! ## Runs

A run is a list of calls; the allocator passes from each call to the next. A clone is an answer of
the run and not its next state, so that the calls after it go to the original. -/

/-- The calls on a deque. -/
inductive Call (α : Type*)
  | pushFront (element : Option α)
  | pushBack (element : Option α)
  | popFront
  | popBack
  | peekFront
  | peekBack
  | get (index : ℤ)
  | cloneShallow

/-- What a call returns. -/
inductive Response (α : Type*)
  | code (e : ErrorCode)
  | element (x : Option α)
  | copy (d : Option (DequeImpl α))

/-- One call. -/
def Call.run (d : DequeImpl α) (a : Allocator) : Call α → Response α × DequeImpl α × Allocator
  | .pushFront x =>
    let (e, d, a) := d.pushFront x a
    (.code e, d, a)
  | .pushBack x =>
    let (e, d, a) := d.pushBack x a
    (.code e, d, a)
  | .popFront => (.element d.popFront.1, d.popFront.2, a)
  | .popBack => (.element d.popBack.1, d.popBack.2, a)
  | .peekFront => (.element d.peekFront, d, a)
  | .peekBack => (.element d.peekBack, d, a)
  | .get index => (.element (d.get index), d, a)
  | .cloneShallow => (.copy (d.cloneShallow a).1, d, (d.cloneShallow a).2)

/-- What a call on a deque that holds `s` may return, and the sequence `s'` it leaves, when `a`
tells which of its allocations fail. -/
def Call.Allowed (a : Allocator) (s : List (Option α)) :
    Call α → Response α → List (Option α) → Prop
  | .pushFront x, r, s' =>
    (r = .code .success ∧ s' = x :: s) ∨
      (r = .code .errorMemory ∧ s' = s ∧ a.outcome 0 = false)
  | .pushBack x, r, s' =>
    (r = .code .success ∧ s' = s ++ [x]) ∨
      (r = .code .errorMemory ∧ s' = s ∧ a.outcome 0 = false)
  | .popFront, r, s' => r = .element s.head?.join ∧ s' = s.tail
  | .popBack, r, s' => r = .element s.getLast?.join ∧ s' = s.dropLast
  | .peekFront, r, s' => r = .element s.head?.join ∧ s' = s
  | .peekBack, r, s' => r = .element s.getLast?.join ∧ s' = s
  | .get index, r, s' =>
    r = .element (if index < 0 then none else s[index.toNat]?.join) ∧ s' = s
  | .cloneShallow, r, s' =>
    s' = s ∧ ((∃ copy, r = .copy (some copy) ∧ Holds copy s) ∨
      (r = .copy none ∧ ∃ i < 3, a.outcome i = false))

/-- The capacity stays below `2 ^ 30` in all states of the run. -/
def Below (d : DequeImpl α) (a : Allocator) : List (Call α) → Prop
  | [] => d.capacity < 2 ^ 30
  | c :: calls => d.capacity < 2 ^ 30 ∧ Below (c.run d a).2.1 (c.run d a).2.2 calls

instance decidableBelow : ∀ (d : DequeImpl α) (a : Allocator) (calls : List (Call α)),
    Decidable (Below d a calls)
  | d, _, [] => inferInstanceAs (Decidable (d.capacity < 2 ^ 30))
  | d, a, c :: calls =>
    have := decidableBelow (c.run d a).2.1 (c.run d a).2.2 calls
    inferInstanceAs (Decidable (d.capacity < 2 ^ 30 ∧ _))

/-- The run is one of the sequence `s`: every call returns what it may on the sequence that the
calls before it left. -/
def Refines (d : DequeImpl α) (a : Allocator) (s : List (Option α)) : List (Call α) → Prop
  | [] => Holds d s
  | c :: calls =>
    Holds d s ∧ ∃ s', c.Allowed a s (c.run d a).1 s' ∧
      Refines (c.run d a).2.1 (c.run d a).2.2 s' calls

/-- One call. -/
theorem Holds.run (h : Holds d s) (hbig : d.capacity < 2 ^ 30) (a : Allocator) (c : Call α) :
    ∃ s', c.Allowed a s (c.run d a).1 s' ∧ Holds (c.run d a).2.1 s' := by
  cases c with
  | pushFront x =>
    rcases h.pushFront hbig x a with ⟨d', a', hpush, h'⟩ | ⟨a', hpush, hfail⟩ <;>
      rw [Call.run, hpush]
    · exact ⟨_, .inl ⟨rfl, rfl⟩, h'⟩
    · exact ⟨_, .inr ⟨rfl, rfl, hfail⟩, h⟩
  | pushBack x =>
    rcases h.pushBack hbig x a with ⟨d', a', hpush, h'⟩ | ⟨a', hpush, hfail⟩ <;>
      rw [Call.run, hpush]
    · exact ⟨_, .inl ⟨rfl, rfl⟩, h'⟩
    · exact ⟨_, .inr ⟨rfl, rfl, hfail⟩, h⟩
  | popFront =>
    obtain ⟨hitem, h'⟩ := h.popFront hbig
    exact ⟨_, ⟨congrArg Response.element hitem, rfl⟩, h'⟩
  | popBack =>
    obtain ⟨hitem, h'⟩ := h.popBack hbig
    exact ⟨_, ⟨congrArg Response.element hitem, rfl⟩, h'⟩
  | peekFront => exact ⟨_, ⟨congrArg Response.element h.peekFront, rfl⟩, h⟩
  | peekBack => exact ⟨_, ⟨congrArg Response.element (h.peekBack hbig), rfl⟩, h⟩
  | get index => exact ⟨_, ⟨congrArg Response.element (h.get hbig index), rfl⟩, h⟩
  | cloneShallow =>
    refine ⟨_, ⟨rfl, ?_⟩, h⟩
    rcases h.cloneShallow a with ⟨copy, a', hclone, hcopy⟩ | ⟨a', hclone, hfail⟩ <;>
      rw [Call.run, hclone]
    · exact .inl ⟨copy, rfl, hcopy⟩
    · exact .inr ⟨rfl, hfail⟩

/-- Every run from a deque that holds a sequence, by induction on the calls. -/
theorem Holds.refines (h : Holds d s) {a : Allocator} {calls : List (Call α)}
    (hbelow : Below d a calls) : Refines d a s calls := by
  induction calls generalizing d a s with
  | nil => exact h
  | cons c calls ih =>
    obtain ⟨s', hallowed, h'⟩ := h.run hbelow.1 a c
    exact ⟨h, s', hallowed, ih h' hbelow.2⟩

/-- **A deque is a sequence.** From a new deque on, whatever its initial capacity and whichever
allocations fail, every call of a run returns what it returns on the mathematical sequence that
the calls before it left. -/
theorem deque_refines_sequence (capacity : ℤ) (hint : capacity ≤ intMax) {a a' : Allocator}
    (hcreate : create capacity a = (some d, a')) {calls : List (Call α)}
    (hbelow : Below d a' calls) : Refines d a' [] calls := by
  rcases create_spec (α := α) hint a with ⟨d₁, a₁, hspec, hholds, -⟩ | ⟨a₁, hspec, -⟩
  · obtain ⟨rfl, rfl⟩ : d₁ = d ∧ a₁ = a' := by
      rw [hcreate] at hspec
      obtain ⟨hd, ha⟩ := Prod.mk.inj hspec
      exact ⟨(Option.some.inj hd).symm, ha.symm⟩
    exact hholds.refines hbelow
  · rw [hcreate] at hspec
    exact absurd (Prod.mk.inj hspec).1 (by simp)

theorem deque_refines_sequence_growth :
    Refines (⟨fun _ => none, 2, 0, 0⟩ : DequeImpl ℕ) Allocator.always []
      [.pushBack (some 1), .pushFront (some 2), .popFront, .pushBack (some 3), .pushBack (some 4),
        .get 2, .cloneShallow] :=
  deque_refines_sequence 2 (by decide) (a := Allocator.always) rfl (by decide +kernel)

end Deque

end OvaLib
