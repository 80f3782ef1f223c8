import OvaLib.Deque.Deque

/-!
# The index arithmetic of the deque

The methods of `deque.c` compute their slots from the front slot, the size and the capacity, all of
them `int`. Two of these added up are almost twice the capacity, so a deque of more than `2 ^ 30`
slots, which `create_deque` and `safe_double_capacity` allow, computes beyond `INT_MAX`.

## Why the capacity decides

The expressions are `front - 1 + capacity`, `front + size`, `front + size - 1`, `front + 1` and
`front + index`. Each of them is below twice the capacity, so up to `2 ^ 30` slots none of them
leaves the range. Beyond, two pushes at the front are enough: the first one brings the front slot to
the end of the buffer, and the second adds the capacity to it. Signed overflow is undefined in C, so
nothing can be said about what the call does then; the theorem is about the first expression that is
out of range and not about its consequences.

The capacity is the one at the time of the call. A deque that was created below the bound can grow
across it.

## Implementation notes

`Safe` lists the `int` expressions of each operation together with the slots that it uses; it is a
statement about one operation on one deque. `Reachable` closes the new deques under the calls and
under cloning. What is known of all of them without a bound on the capacity is less than what is
known up to the bound: the front slot is one of the buffer only as long as it was computed in range.

## Main results

* `Reachable.inv` — size and capacity of every deque, and its front slot up to `2 ^ 30` slots
* `Inv.safe` — up to `2 ^ 30` slots, every call computes in range
* `indices_safe_iff` — and beyond, some call does not
-/

namespace OvaLib

namespace Deque

open DequeImpl

variable {α : Type*}

/-! ## What the methods compute

The expressions as they stand in the source, without the conversion that the model of the methods
applies to them. -/

/-- The slot is one of the buffer. -/
def InBuffer (d : DequeImpl α) (i : ℤ) : Prop := 0 ≤ i ∧ i < d.capacity

/-- The one or two pieces that are copied when the buffer is unrolled. -/
def UnrollSafe (d : DequeImpl α) : Prop :=
  InInt (d.capacity - d.front) ∧
    if d.capacity - d.front ≥ d.size then ∀ i, 0 ≤ i → i < d.size → InBuffer d (d.front + i)
    else
      InInt (d.size - (d.capacity - d.front)) ∧
        (∀ i, 0 ≤ i → i < d.capacity - d.front → InBuffer d (d.front + i)) ∧
        ∀ i, 0 ≤ i → i < d.size - (d.capacity - d.front) → InBuffer d i

/-- The calls, and the deep clone, which reads the elements of its source in order. -/
inductive Op (α : Type*)
  | call (c : Call α)
  | cloneDeep

/-- The `int` expressions that an operation evaluates have values of an `int`, and the slots that it
uses are in the buffer. A push computes after the growth, if there is one. -/
def Safe (d : DequeImpl α) (a : Allocator) : Op α → Prop
  | .call (.pushFront _) =>
    (d.size = d.capacity → UnrollSafe d) ∧ ∀ d' a', d.ensureRoom a = (true, d', a') →
      InInt (d'.front - 1) ∧ InInt (d'.front - 1 + d'.capacity) ∧
        InBuffer d' ((int32 (int32 (d'.front - 1) + d'.capacity)).tmod d'.capacity)
  | .call (.pushBack _) =>
    (d.size = d.capacity → UnrollSafe d) ∧ ∀ d' a', d.ensureRoom a = (true, d', a') →
      InInt (d'.front + d'.size) ∧ InBuffer d' ((int32 (d'.front + d'.size)).tmod d'.capacity)
  | .call .popFront => d.size ≠ 0 → InBuffer d d.front ∧ InInt (d.front + 1)
  | .call .popBack | .call .peekBack =>
    d.size ≠ 0 → InInt (d.front + d.size) ∧ InInt (d.front + d.size - 1) ∧ InBuffer d d.back
  | .call .peekFront => d.size ≠ 0 → InBuffer d d.front
  | .call (.get index) =>
    0 ≤ index → index < d.size →
      InInt (d.front + index) ∧ InBuffer d ((int32 (d.front + index)).tmod d.capacity)
  | .call .cloneShallow => UnrollSafe d
  | .cloneDeep =>
    ∀ i, 0 ≤ i → i < d.size →
      InInt (d.front + i) ∧ InBuffer d ((int32 (d.front + i)).tmod d.capacity)

/-- The deques a program can have: new ones, those that calls leave behind, and shallow clones. A
deep clone is built by pushes. -/
inductive Reachable : DequeImpl α → Prop
  | create {capacity : ℤ} {a a' : Allocator} {d : DequeImpl α} : capacity ≤ intMax →
      create capacity a = (some d, a') → Reachable d
  | call {d : DequeImpl α} (a : Allocator) (c : Call α) : Reachable d → Reachable (c.run d a).2.1
  | copy {d copy : DequeImpl α} (a : Allocator) : Reachable d →
      (d.cloneShallow a).1 = some copy → Reachable copy

/-! ## The invariant -/

/-- What holds of every deque. Its front slot is only known up to `2 ^ 30` slots. -/
structure Inv (d : DequeImpl α) : Prop where
  capacity_pos : 0 < d.capacity
  capacity_le : d.capacity ≤ intMax
  size_nonneg : 0 ≤ d.size
  size_le : d.size ≤ d.capacity
  /-- The front slot is one of the buffer, as long as all sums were in range. -/
  front : d.capacity ≤ 2 ^ 30 → 0 ≤ d.front ∧ d.front < d.capacity

variable {d : DequeImpl α}

theorem inv_create {capacity : ℤ} (hmax : capacity ≤ intMax) {a a' : Allocator}
    (hcreate : create capacity a = (some d, a')) : Inv d ∧ d.size = 0 ∧ d.front = 0 ∧
      d.capacity = if capacity ≤ 0 then defaultCapacity else capacity := by
  rcases create_spec (α := α) hmax a with ⟨d₁, a₁, hspec, hholds, hcap, hfront⟩ | ⟨a₁, hspec, -⟩
  · obtain rfl : d₁ = d := by
      rw [hcreate] at hspec
      exact (Option.some.inj (Prod.mk.inj hspec).1).symm
    have hsize : d₁.size = 0 := hholds.size
    have hpos := hholds.capacity_pos
    exact ⟨⟨hpos, hholds.capacity_le, hsize.ge, hsize ▸ hpos.le,
      fun _ => ⟨hfront.ge, hfront ▸ hpos⟩⟩, hsize, hfront, hcap⟩
  · rw [hcreate] at hspec
    exact absurd (Prod.mk.inj hspec).1 (by simp)

theorem lt_safeDoubleCapacity {n : ℤ} (hpos : 0 < n) (hmax : n ≤ 2147483647)
    (hne : (safeDoubleCapacity n.toNat : ℤ) ≠ n) :
    n < safeDoubleCapacity n.toNat ∧ safeDoubleCapacity n.toNat ≤ intMax := by
  have hint : intMax = 2147483647 := rfl
  by_cases hbig : n.toNat > intMax / 2
  · have hval : safeDoubleCapacity n.toNat = intMax := by rw [safeDoubleCapacity, if_pos hbig]
    rw [hval] at hne ⊢
    omega
  · have hval : safeDoubleCapacity n.toNat = n.toNat * 2 := by
      rw [safeDoubleCapacity, if_neg hbig]
    rw [hval]
    omega

/-- The growth at the beginning of a push. A new buffer begins at its first slot. -/
theorem Inv.ensureRoom (h : Inv d) (a : Allocator) :
    (∃ d' a', d.ensureRoom a = (true, d', a') ∧ Inv d' ∧ d'.size < d'.capacity ∧
        d'.size = d.size ∧ ((d' = d ∧ d.size < d.capacity) ∨ d'.front = 0)) ∨
      ∃ a', d.ensureRoom a = (false, d, a') := by
  obtain ⟨hpos, hmax, hsize, hle, hfront⟩ := h
  rw [intMax_cast] at hmax
  rw [DequeImpl.ensureRoom]
  split
  · next hfull =>
    rw [resize]
    dsimp only
    split
    · exact .inr ⟨a, rfl⟩
    · next hgrows =>
      have hlarger := lt_safeDoubleCapacity hpos hmax hgrows
      have hlarger' := Int.ofNat_le.mpr hlarger.2
      split
      · exact .inr ⟨_, rfl⟩
      · exact .inl ⟨_, _, rfl, ⟨by dsimp only; omega, hlarger', hsize, by dsimp only; omega,
          fun _ => ⟨le_refl 0, by dsimp only; omega⟩⟩, by dsimp only; omega, rfl, .inr rfl⟩
  · next hroom =>
    exact .inl ⟨d, a, rfl, ⟨hpos, hmax, hsize, hle, hfront⟩, by omega, rfl,
      .inl ⟨rfl, by omega⟩⟩

theorem inBuffer_tmod (hpos : 0 < d.capacity) {x : ℤ} (hlow : 0 ≤ x) (hhigh : x ≤ intMax) :
    InBuffer d ((int32 x).tmod d.capacity) := by
  rw [intMax_cast] at hhigh
  rw [int32_eq (by omega) (by omega)]
  exact ⟨Int.tmod_nonneg _ hlow, Int.tmod_lt_of_pos _ hpos⟩

/-- The slot before the front one, which a push fills. -/
theorem Inv.before_front (h : Inv d) (hroom : d.capacity ≤ 2 ^ 30 ∨ d.front = 0) :
    InInt (d.front - 1) ∧ InInt (d.front - 1 + d.capacity) ∧
      InBuffer d ((int32 (int32 (d.front - 1) + d.capacity)).tmod d.capacity) := by
  obtain ⟨hpos, hmax, -, -, hfront⟩ := h
  have hrange : 0 ≤ d.front ∧ d.front - 1 + d.capacity ≤ intMax ∧ d.front ≤ intMax := by
    rw [intMax_cast] at hmax ⊢
    rcases hroom with hcap | hzero
    · have := hfront hcap
      omega
    · omega
  have hint := intMax_cast
  refine ⟨inInt_of_nonneg (by omega) (by omega), inInt_of_nonneg (by omega) hrange.2.1, ?_⟩
  rw [int32_eq (n := d.front - 1) (by omega) (by omega)]
  exact inBuffer_tmod hpos (by omega) hrange.2.1

/-- The slot at a distance from the front one. -/
theorem Inv.after_front (h : Inv d) (hroom : d.capacity ≤ 2 ^ 30 ∨ d.front = 0) {i : ℤ}
    (hlow : 0 ≤ i) (hhigh : i < d.capacity) :
    InInt (d.front + i) ∧ InBuffer d ((int32 (d.front + i)).tmod d.capacity) := by
  obtain ⟨hpos, hmax, -, -, hfront⟩ := h
  have hrange : 0 ≤ d.front ∧ d.front + i ≤ intMax := by
    rw [intMax_cast] at hmax ⊢
    rcases hroom with hcap | hzero
    · have := hfront hcap
      omega
    · omega
  exact ⟨inInt_of_nonneg (by omega) hrange.2, inBuffer_tmod hpos (by omega) hrange.2⟩

/-- The slot of the last element. -/
theorem Inv.back (h : Inv d) (hcap : d.capacity ≤ 2 ^ 30) (hne : d.size ≠ 0) :
    InInt (d.front + d.size) ∧ InInt (d.front + d.size - 1) ∧ InBuffer d d.back := by
  obtain ⟨hpos, -, hsize, hle, hfront⟩ := h
  have hrange := hfront hcap
  have hint := intMax_cast
  refine ⟨inInt_of_nonneg (by omega) (by omega), inInt_of_nonneg (by omega) (by omega), ?_⟩
  rw [DequeImpl.back, int32_eq (n := d.front + d.size) (by omega) (by omega)]
  exact inBuffer_tmod hpos (by omega) (by omega)

theorem Inv.unroll (h : Inv d) (hcap : d.capacity ≤ 2 ^ 30) : UnrollSafe d := by
  obtain ⟨hpos, -, hsize, hle, hfront⟩ := h
  have hrange := hfront hcap
  have hint := intMax_cast
  refine ⟨inInt_of_nonneg (by omega) (by omega), ?_⟩
  split
  · exact fun i hi hlt => ⟨by omega, by omega⟩
  · exact ⟨inInt_of_nonneg (by omega) (by omega), fun i hi hlt => ⟨by omega, by omega⟩,
      fun i hi hlt => ⟨hi, by omega⟩⟩

/-! ## Every run -/

/-- There is room for one item more. -/
theorem Inv.size_succ (h : Inv d) (hlt : d.size < d.capacity) :
    0 ≤ int32 (d.size + 1) ∧ int32 (d.size + 1) ≤ d.capacity := by
  have hmax := h.capacity_le
  have hsize := h.size_nonneg
  rw [intMax_cast] at hmax
  rw [int32_eq (by omega) (by omega)]
  omega

theorem Inv.pushFront (h : Inv d) (x : Option α) (a : Allocator) :
    Inv (d.pushFront x a).2.1 := by
  rw [DequeImpl.pushFront]
  rcases h.ensureRoom a with ⟨d', a', hroom, h', hlt, -, -⟩ | ⟨a', hroom⟩
  · rw [hroom]
    obtain ⟨hnonneg, hle⟩ := h'.size_succ hlt
    exact ⟨h'.capacity_pos, h'.capacity_le, hnonneg, hle,
      fun hcap => (h'.before_front (.inl hcap)).2.2⟩
  · rw [hroom]
    exact h

theorem Inv.pushBack (h : Inv d) (x : Option α) (a : Allocator) :
    Inv (d.pushBack x a).2.1 := by
  rw [DequeImpl.pushBack]
  rcases h.ensureRoom a with ⟨d', a', hroom, h', hlt, -, -⟩ | ⟨a', hroom⟩
  · rw [hroom]
    obtain ⟨hnonneg, hle⟩ := h'.size_succ hlt
    exact ⟨h'.capacity_pos, h'.capacity_le, hnonneg, hle, h'.front⟩
  · rw [hroom]
    exact h

theorem Inv.popFront (h : Inv d) : Inv d.popFront.2 := by
  rw [DequeImpl.popFront]
  have hsize := h.size_nonneg
  have hle := h.size_le
  split
  · exact h
  · next hne =>
    refine ⟨h.capacity_pos, h.capacity_le, ?_, ?_, fun hcap => ?_⟩
    · show 0 ≤ d.size - 1
      omega
    · show d.size - 1 ≤ d.capacity
      omega
    · have hrange := h.front hcap
      have hint := intMax_cast
      have hcap' : d.capacity ≤ 2 ^ 30 := hcap
      exact inBuffer_tmod h.capacity_pos (by omega) (by omega)

theorem Inv.popBack (h : Inv d) : Inv d.popBack.2 := by
  rw [DequeImpl.popBack]
  have hsize := h.size_nonneg
  have hle := h.size_le
  split
  · exact h
  · refine ⟨h.capacity_pos, h.capacity_le, ?_, ?_, h.front⟩
    · show 0 ≤ d.size - 1
      omega
    · show d.size - 1 ≤ d.capacity
      omega

theorem Inv.cloneShallow (h : Inv d) {a : Allocator} {copy : DequeImpl α}
    (hclone : (d.cloneShallow a).1 = some copy) : Inv copy := by
  have hsize := h.size_nonneg
  have hle := h.size_le
  have hmax := h.capacity_le
  rw [DequeImpl.cloneShallow] at hclone
  have hasked : (if d.size > 0 then d.size else defaultCapacity) ≤ intMax := by
    rw [intMax_cast, defaultCapacity] at *
    split <;> omega
  cases hcreate : create (α := α) (if d.size > 0 then d.size else defaultCapacity) a with
  | mk result a' =>
    rw [hcreate] at hclone
    cases result with
    | none => exact absurd hclone (by simp)
    | some new =>
      obtain ⟨hnew, -, hfront, hcap⟩ := inv_create hasked hcreate
      dsimp only at hclone
      split at hclone
      · next hpos =>
        rw [if_pos hpos, if_neg (by omega)] at hcap
        obtain rfl := Option.some.inj hclone
        refine ⟨hnew.capacity_pos, hnew.capacity_le, hsize, ?_, hnew.front⟩
        show d.size ≤ new.capacity
        omega
      · obtain rfl := Option.some.inj hclone
        exact hnew

/-- One call keeps the invariant. -/
theorem Inv.run (h : Inv d) (a : Allocator) (c : Call α) : Inv (c.run d a).2.1 := by
  cases c with
  | pushFront x => exact h.pushFront x a
  | pushBack x => exact h.pushBack x a
  | popFront => exact h.popFront
  | popBack => exact h.popBack
  | peekFront | peekBack | get | cloneShallow => exact h

/-- Every run, by induction on the run. -/
theorem Reachable.inv (h : Reachable d) : Inv d := by
  induction h with
  | create hmax hcreate => exact (inv_create hmax hcreate).1
  | call a c _ ih => exact ih.run a c
  | copy a _ hclone ih => exact ih.cloneShallow hclone

/-- Up to `2 ^ 30` slots all operations compute in range, also a push for which the deque grows. -/
theorem Inv.safe (h : Inv d) (hcap : d.capacity ≤ 2 ^ 30) (a : Allocator) (op : Op α) :
    Safe d a op := by
  have hle := h.size_le
  have hrange := h.front hcap
  have hroom : ∀ d' a', d.ensureRoom a = (true, d', a') →
      Inv d' ∧ d'.size < d'.capacity ∧ (d'.capacity ≤ 2 ^ 30 ∨ d'.front = 0) := by
    intro d' a' hensure
    rcases h.ensureRoom a with ⟨d₁, a₁, hspec, h', hlt, -, hsame⟩ | ⟨a₁, hspec⟩
    · obtain rfl : d' = d₁ := by
        rw [hensure] at hspec
        exact (Prod.mk.inj (Prod.mk.inj hspec).2).1
      refine ⟨h', hlt, hsame.imp_left ?_⟩
      rintro ⟨rfl, -⟩
      exact hcap
    · rw [hensure] at hspec
      exact absurd (Prod.mk.inj hspec).1 (by simp)
  match op with
  | .call (.pushFront _) =>
    refine ⟨fun _ => h.unroll hcap, fun d' a' hensure => ?_⟩
    obtain ⟨h', -, hfront⟩ := hroom d' a' hensure
    exact h'.before_front hfront
  | .call (.pushBack _) =>
    refine ⟨fun _ => h.unroll hcap, fun d' a' hensure => ?_⟩
    obtain ⟨h', hlt, hfront⟩ := hroom d' a' hensure
    exact h'.after_front hfront h'.size_nonneg hlt
  | .call .popFront =>
    have hint := intMax_cast
    exact fun _ => ⟨hrange, inInt_of_nonneg (by omega) (by omega)⟩
  | .call .popBack | .call .peekBack => exact fun hne => h.back hcap hne
  | .call .peekFront => exact fun _ => hrange
  | .call (.get _) =>
    exact fun hlow hhigh => h.after_front (.inl hcap) hlow (hhigh.trans_le hle)
  | .call .cloneShallow => exact h.unroll hcap
  | .cloneDeep => exact fun i hlow hhigh => h.after_front (.inl hcap) hlow (hhigh.trans_le hle)

/-! ## The threshold

For every capacity beyond the bound, a deque of that capacity that can be reached and an operation
that computes out of range on it. -/

/-- A new deque of more than `2 ^ 30` slots after one push at its front. The front slot is then the
last one. -/
theorem reachable_large {capacity : ℤ} (hbig : 2 ^ 30 < capacity) (hmax : capacity ≤ intMax) :
    ∃ d : DequeImpl α, Reachable d ∧ d.capacity = capacity ∧ d.front = capacity - 1 ∧
      d.size = 1 := by
  rw [intMax_cast] at hmax
  have hpos : ¬capacity ≤ 0 := by omega
  have hcreate : create (α := α) capacity Allocator.always =
      (some ⟨fun _ => none, capacity, 0, 0⟩, Allocator.always) := by
    simp [create, hpos]
  have hpush : ((⟨fun _ => none, capacity, 0, 0⟩ : DequeImpl α).pushFront none
      Allocator.always).2.1 =
        ⟨Function.update (fun _ => none) (capacity - 1) none, capacity, 1, capacity - 1⟩ := by
    have hne : ¬(0 : ℤ) = capacity := by omega
    have hslot : (int32 (int32 (0 - 1) + capacity)).tmod capacity = capacity - 1 := by
      rw [int32_eq (n := 0 - 1) (by omega) (by omega), int32_eq (by omega) (by omega),
        Int.tmod_eq_of_lt (by omega) (by omega)]
      omega
    have hsize : int32 (0 + 1) = 1 := int32_eq (by omega) (by omega)
    rw [pushFront, ensureRoom, if_neg hne]
    dsimp only
    rw [hslot, hsize]
  refine ⟨_, .call Allocator.always (.pushFront none) (.create (intMax_cast ▸ hmax) hcreate), ?_⟩
  show (pushFront _ _ _).2.1.capacity = _ ∧ (pushFront _ _ _).2.1.front = _ ∧
    (pushFront _ _ _).2.1.size = _
  rw [hpush]
  exact ⟨rfl, rfl, rfl⟩

/-- **The index arithmetic is in range exactly up to `2 ^ 30` slots.** Up to this capacity every
operation on every reachable deque computes with values of an `int` and uses slots of its buffer.
For every capacity above, some reachable deque has an operation that does not. -/
theorem indices_safe_iff {capacity : ℤ} (hlow : 1 ≤ capacity) (hmax : capacity ≤ intMax) :
    (∀ d : DequeImpl α, Reachable d → d.capacity = capacity → ∀ a op, Safe d a op) ↔
      capacity ≤ 2 ^ 30 := by
  constructor
  · intro hsafe
    by_contra hbig
    obtain ⟨d, hreach, hcap, hfront, hsize⟩ := reachable_large (α := α) (not_le.mp hbig) hmax
    have hensure : d.ensureRoom Allocator.always = (true, d, Allocator.always) := by
      rw [ensureRoom, if_neg (by omega)]
    obtain ⟨-, hpush⟩ := hsafe d hreach hcap Allocator.always (.call (.pushFront none))
    obtain ⟨-, ⟨-, hint⟩, -⟩ := hpush _ _ hensure
    rw [intMax_cast] at hint
    omega
  · rintro hcap d hreach rfl a op
    exact hreach.inv.safe hcap a op

theorem indices_safe_iff_largest :
    (∀ d : DequeImpl ℕ, Reachable d → d.capacity = 2 ^ 30 → ∀ a op, Safe d a op) ↔
      (2 : ℤ) ^ 30 ≤ 2 ^ 30 :=
  indices_safe_iff (by norm_num) (by rw [intMax_cast]; norm_num)

/-- The second push at the front of a new deque of `2 ^ 30 + 1` slots adds up `2 ^ 31`. The slot it
writes to is negative. -/
theorem pushFront_overflows :
    let d := ((Call.pushFront (some 1)).run (⟨fun _ => none, 2 ^ 30 + 1, 0, 0⟩ : DequeImpl ℕ)
      Allocator.always).2.1
    create (2 ^ 30 + 1) Allocator.always =
        (some (⟨fun _ => none, 2 ^ 30 + 1, 0, 0⟩ : DequeImpl ℕ), Allocator.always) ∧
      Reachable d ∧ ¬InInt (d.front - 1 + d.capacity) ∧
        ¬Safe d Allocator.always (.call (.pushFront (some 2))) ∧
          (d.pushFront (some 2) Allocator.always).2.1.front = -1073741823 := by
  have hcreate : create (2 ^ 30 + 1) Allocator.always =
      (some (⟨fun _ => none, 2 ^ 30 + 1, 0, 0⟩ : DequeImpl ℕ), Allocator.always) := by
    simp [create]
  have hover : ¬InInt ((2 : ℤ) ^ 30 - 1 + (2 ^ 30 + 1)) := by
    rintro ⟨-, h⟩
    rw [intMax_cast] at h
    omega
  refine ⟨hcreate, .call _ _ (.create (by rw [intMax_cast]; norm_num) hcreate), hover, ?_, ?_⟩
  · intro hsafe
    obtain ⟨-, hpush⟩ := hsafe
    exact hover (hpush _ _ rfl).2.1
  · decide +kernel

end Deque

end OvaLib
