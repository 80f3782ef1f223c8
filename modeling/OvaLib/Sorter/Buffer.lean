import Mathlib.Algebra.Order.Ring.Int
import Mathlib.Data.List.Perm.Basic
import Mathlib.Tactic.Common
import OvaLib.Foundation.MergeSort
import OvaLib.Foundation.Ranges
import OvaLib.Foundation.Ties

/-!
# Sorting a buffer

The parts of `sort.c` that work on a buffer of payload pointers. An index outside of the buffer is
an error, `none`, and so is a stack that grows beyond what was asked for it; a loop takes fuel and
returns `none` when that runs out. So a buffer that comes back says that no index was wrong, that
the stack was large enough and that the loops ended.

## Two kinds of statements

What happens to the items does not depend on the comparison. Every function here swaps, or copies
from a buffer that holds the same items, so the buffer is permuted by whatever function stands for
the comparator, a function that is no order at all included. That the result is in order is a second
part of the same statements, for a comparator that is a total preorder. The callers use both: a list
never loses an item to a comparator that contradicts itself.

## How the loops are followed

Quicksort keeps ranges on a stack and takes the last one. The invariant of its loop is about the
stack as a list of ranges: they are apart, and outside of them the buffer is in order already.
`weight` counts the positions of the ranges; a round splits one range without its pivot, so the
weight goes down. It bounds the rounds, and the stack too, since a range on it has at least two
positions. That is why `2 * size` cells are enough for it.

Merge sort recurs on the halves of a range, and the fuel is the length of the range. The three loops
of a merge are a merge of two lists, which the library of sorted lists is about.

## Main results

* `bufferPartition_spec`, `quickLoop_spec` — quicksort, for any comparison function
* `merge_spec`, `mergeSortRecursive_spec` — merge sort
* `shuffleLoop_spec`, `reverseLoop_spec` — the other two
-/

namespace OvaLib

namespace Sorter

open Foundation

variable {β : Type*}

/-! ## The buffer

A buffer is the list of its cells, so that its length is what was allocated. -/

/-- `arr[i]`. -/
def readAt (arr : List β) (i : ℤ) : Option β := if i < 0 then none else arr[i.toNat]?

/-- `arr[i] = x`. -/
def writeAt (arr : List β) (i : ℤ) (x : β) : Option (List β) :=
  if 0 ≤ i ∧ i < arr.length then some (arr.set i.toNat x) else none

/-- `buffer_swap`. -/
def bufferSwap (arr : List β) (i j : ℤ) : Option (List β) := do
  let t ← readAt arr i
  let u ← readAt arr j
  let arr ← writeAt arr i u
  writeAt arr j t

/-! ## Quicksort -/

section

variable (cmp : β → β → ℤ)

/-- The loop of `buffer_partition`, for the `n` positions from `j` on. -/
def partitionLoop (pivot : β) : ℕ → List β → ℤ → ℤ → Option (List β × ℤ)
  | 0, arr, i, _ => some (arr, i)
  | n + 1, arr, i, j => do
    let x ← readAt arr j
    if cmp x pivot ≤ 0 then
      let arr ← bufferSwap arr (i + 1) j
      partitionLoop pivot n arr (i + 1) (j + 1)
    else partitionLoop pivot n arr i (j + 1)

/-- `buffer_partition`. -/
def bufferPartition (arr : List β) (low high : ℤ) : Option (List β × ℤ) := do
  let pivot ← readAt arr high
  let (arr, i) ← partitionLoop cmp pivot (high - low).toNat arr (low - 1) low
  let arr ← bufferSwap arr (i + 1) high
  return (arr, i + 1)

/-- `stack[top++] = v`, in a stack of the given size. -/
def push (bound : ℕ) (stack : List ℤ) (v : ℤ) : Option (List ℤ) :=
  if stack.length < bound then some (v :: stack) else none

/-- A range goes on the stack, if it is not trivial. -/
def pushRange (bound : ℕ) (stack : List ℤ) (low high : ℤ) : Option (List ℤ) :=
  if low < high then do
    let stack ← push bound stack low
    push bound stack high
  else some stack

/-- The loop of `sorter_quick`. -/
def quickLoop (bound : ℕ) : ℕ → List β → List ℤ → Option (List β)
  | 0, _, _ => none
  | _ + 1, arr, [] => some arr
  | _ + 1, _, [_] => none
  | fuel + 1, arr, high :: low :: stack =>
    (bufferPartition cmp arr low high).bind fun (arr, pi) =>
      (pushRange bound stack low (pi - 1)).bind fun stack =>
        (pushRange bound stack (pi + 1) high).bind fun stack => quickLoop bound fuel arr stack

/-! ## Merge sort -/

/-- The first loop of `merge`: while both halves have items. -/
def mergeBoth (tmp : List β) (mid high : ℤ) :
    ℕ → List β → ℤ → ℤ → ℤ → Option (List β × ℤ × ℤ × ℤ)
  | 0, _, _, _, _ => none
  | fuel + 1, arr, i, j, k =>
    if i < mid ∧ j < high then do
      let x ← readAt tmp i
      let y ← readAt tmp j
      if cmp x y ≤ 0 then
        let arr ← writeAt arr k x
        mergeBoth tmp mid high fuel arr (i + 1) j (k + 1)
      else
        let arr ← writeAt arr k y
        mergeBoth tmp mid high fuel arr i (j + 1) (k + 1)
    else some (arr, i, j, k)

/-- The other two loops of `merge`: what is left of a half. -/
def copyRest (tmp : List β) (stop : ℤ) : ℕ → List β → ℤ → ℤ → Option (List β × ℤ)
  | 0, _, _, _ => none
  | fuel + 1, arr, i, k =>
    if i < stop then do
      let x ← readAt tmp i
      let arr ← writeAt arr k x
      copyRest tmp stop fuel arr (i + 1) (k + 1)
    else some (arr, k)

/-- `memcpy(tmp + low, arr + low, (high - low) * sizeof(void *))`. -/
def copyRange (tmp arr : List β) (low high : ℤ) : Option (List β) :=
  if 0 ≤ low ∧ low ≤ high ∧ high ≤ arr.length ∧ high ≤ tmp.length then
    some (tmp.take low.toNat ++ (arr.drop low.toNat).take (high - low).toNat ++
      tmp.drop high.toNat)
  else none

/-- `merge`. -/
def merge (arr tmp : List β) (low mid high : ℤ) : Option (List β × List β) := do
  let fuel := (high - low).toNat + 1
  let tmp ← copyRange tmp arr low high
  let (arr, i, j, k) ← mergeBoth cmp tmp mid high fuel arr low mid low
  let (arr, k) ← copyRest tmp mid fuel arr i k
  let (arr, _) ← copyRest tmp high fuel arr j k
  return (arr, tmp)

/-- `merge_sort_recursive`. -/
def mergeSortRecursive : ℕ → List β → List β → ℤ → ℤ → Option (List β × List β)
  | 0, _, _, _, _ => none
  | fuel + 1, arr, tmp, low, high =>
    if high - low < 2 then some (arr, tmp)
    else do
      let mid := low + (high - low) / 2
      let (arr, tmp) ← mergeSortRecursive fuel arr tmp low mid
      let (arr, tmp) ← mergeSortRecursive fuel arr tmp mid high
      merge cmp arr tmp low mid high

end

/-! ## Shuffling and reversing -/

/-- The loop of `collections_shuffle`, from `i` down; `rand` is what `rand()` returns next. -/
def shuffleLoop (rand : ℕ → ℕ) : ℕ → List β → Option (List β)
  | 0, arr => some arr
  | i + 1, arr => do
    let j := rand 0 % (i + 2)
    let arr ← bufferSwap arr (i + 1 : ℕ) (j : ℕ)
    shuffleLoop (fun n => rand (n + 1)) i arr

/-- The loop of `collections_reverse`. -/
def reverseLoop : ℕ → List β → ℤ → ℤ → Option (List β)
  | 0, _, _, _ => none
  | fuel + 1, arr, i, j =>
    if i < j then do
      let arr ← bufferSwap arr i j
      reverseLoop fuel arr (i + 1) (j - 1)
    else some arr

/-! ## Reading and writing -/

theorem readAt_eq (arr : List β) {i : ℤ} (hlow : 0 ≤ i) (hhigh : i < arr.length) :
    ∃ h : i.toNat < arr.length, readAt arr i = some arr[i.toNat] := by
  have h : i.toNat < arr.length := by omega
  exact ⟨h, by rw [readAt, if_neg (by omega), List.getElem?_eq_getElem h]⟩

/-- **A swap within the buffer** permutes it. -/
theorem bufferSwap_spec (arr : List β) {i j : ℤ} (hi : 0 ≤ i) (hi' : i < arr.length) (hj : 0 ≤ j)
    (hj' : j < arr.length) : ∃ arr', bufferSwap arr i j = some arr' ∧ arr'.Perm arr ∧
      ∀ k, arr'[k]? = arr[Equiv.swap i.toNat j.toNat k]? := by
  obtain ⟨hin, hri⟩ := readAt_eq arr hi hi'
  obtain ⟨hjn, hrj⟩ := readAt_eq arr hj hj'
  refine ⟨(arr.set i.toNat arr[j.toNat]).set j.toNat arr[i.toNat], ?_, List.set_set_perm hin hjn,
    fun k => ?_⟩
  · have hset : 0 ≤ j ∧ j < (arr.set i.toNat arr[j.toNat]).length := by
      rw [List.length_set]
      exact ⟨hj, hj'⟩
    simp only [bufferSwap, hri, hrj, writeAt, Option.bind_eq_bind, Option.bind_some]
    rw [if_pos ⟨hi, hi'⟩, Option.bind_some, if_pos hset]
  · rw [Equiv.swap_apply_def, List.getElem?_set, List.length_set, List.getElem?_set]
    split_ifs with h₁ h₂ h₃ h₄ <;> grind

/-! ## Quicksort permutes

From one partition to a round of the loop, and from a round to all of them. -/

section

variable (cmp : β → β → ℤ)

/-- The zones of `buffer_partition`: the items up to `i` compare as at most the pivot, the items
between `i` and `j` as greater. -/
structure Zones (pivot : β) (arr : List β) (low i j : ℤ) : Prop where
  below : ∀ ⦃k : ℕ⦄ ⦃x : β⦄, low ≤ k → (k : ℤ) ≤ i → arr[k]? = some x → cmp x pivot ≤ 0
  above : ∀ ⦃k : ℕ⦄ ⦃x : β⦄, i < k → (k : ℤ) < j → arr[k]? = some x → 0 < cmp x pivot

variable {cmp} in
/-- The item at `j` is greater. -/
theorem Zones.stay {pivot x : β} {arr : List β} {low i j : ℤ} (h : Zones cmp pivot arr low i j)
    (hx : arr[j.toNat]? = some x) (hgreater : ¬cmp x pivot ≤ 0) :
    Zones cmp pivot arr low i (j + 1) where
  below := h.below
  above k y hik hkj hy := by
    by_cases hk : (k : ℤ) = j
    · rw [← hk, Int.toNat_natCast] at hx
      rw [Option.some.inj (hy.symm.trans hx)]
      omega
    · exact h.above hik (by omega) hy

variable {cmp} in
/-- The item at `j` is not, and changes places with the first greater one. -/
theorem Zones.swap {pivot x : β} {arr arr' : List β} {low i j : ℤ}
    (h : Zones cmp pivot arr low i j) (hlow : 0 ≤ low) (hi : low - 1 ≤ i) (hij : i < j)
    (hx : arr[j.toNat]? = some x) (hle : cmp x pivot ≤ 0)
    (hswap : ∀ k, arr'[k]? = arr[Equiv.swap (i + 1).toNat j.toNat k]?) :
    Zones cmp pivot arr' low (i + 1) (j + 1) where
  below k y hk hki hy := by
    rw [hswap, Equiv.swap_apply_def] at hy
    split_ifs at hy with h₁ h₂
    · rwa [Option.some.inj (hy.symm.trans hx)]
    · exact h.below (k := (i + 1).toNat) (by omega) (by omega) hy
    · exact h.below hk (by omega) hy
  above k y hik hkj hy := by
    rw [hswap, Equiv.swap_apply_def] at hy
    split_ifs at hy with h₁ h₂
    · omega
    · exact h.above (k := (i + 1).toNat) (by omega) (by omega) hy
    · exact h.above (by omega) (by omega) hy

/-- The loop of `buffer_partition` stays within the buffer, whatever the comparison says. -/
theorem partitionLoop_spec (pivot : β) {low stop : ℤ} (hlow : 0 ≤ low) (n : ℕ) :
    ∀ (arr : List β) {i j : ℤ}, low - 1 ≤ i → i < j → j + n = stop → stop ≤ arr.length →
      Zones cmp pivot arr low i j →
      ∃ arr' i', partitionLoop cmp pivot n arr i j = some (arr', i') ∧ arr'.Perm arr ∧
        Within low (stop - 1) arr arr' ∧ Zones cmp pivot arr' low i' stop ∧
        low - 1 ≤ i' ∧ i' < stop := by
  induction n with
  | zero =>
    intro arr i j hi hij hstop _ hzones
    obtain rfl : j = stop := by omega
    exact ⟨arr, i, rfl, .refl _, .refl _ _ _, hzones, hi, hij⟩
  | succ n ih =>
    intro arr i j hi hij hstop hlen hzones
    obtain ⟨hjn, hread⟩ := readAt_eq arr (i := j) (by omega) (by omega)
    have hx := List.getElem?_eq_getElem hjn
    rw [partitionLoop, hread, Option.bind_eq_bind, Option.bind_some]
    split
    · next hle =>
      obtain ⟨arr₁, hswap, hperm, hreads⟩ :=
        bufferSwap_spec arr (i := i + 1) (j := j) (by omega) (by omega) (by omega) (by omega)
      have hlen₁ := hperm.length_eq
      obtain ⟨arr', i', hrest, hperm', hmove, hzones', hi', hlt⟩ := ih arr₁ (i := i + 1)
        (j := j + 1) (by omega) (by omega) (by omega) (by omega)
        (hzones.swap hlow hi hij hx hle hreads)
      have hmove₁ : Within low (stop - 1) arr arr₁ :=
        within_swap (i := (i + 1).toNat) (j := j.toNat) (by omega) (by omega) hreads
      rw [hswap, Option.bind_eq_bind, Option.bind_some]
      exact ⟨arr', i', hrest, hperm'.trans hperm, hmove₁.trans hmove, hzones', hi', hlt⟩
    · next hgreater =>
      exact ih arr hi (by omega) (by omega) hlen (hzones.stay hx hgreater)

/-- **A partition** puts the pivot somewhere into the range, the items that compare as greater
behind it and the others before it. -/
theorem bufferPartition_spec (arr : List β) {low high : ℤ} (hlow : 0 ≤ low) (hle : low ≤ high)
    (hhigh : high < arr.length) : ∃ arr' pi pivot,
      bufferPartition cmp arr low high = some (arr', pi) ∧ arr'.Perm arr ∧
      Within low high arr arr' ∧ low ≤ pi ∧ pi ≤ high ∧ arr'[pi.toNat]? = some pivot ∧
      (∀ ⦃k : ℕ⦄ ⦃x : β⦄, low ≤ k → (k : ℤ) < pi → arr'[k]? = some x → cmp x pivot ≤ 0) ∧
      ∀ ⦃k : ℕ⦄ ⦃x : β⦄, pi < k → (k : ℤ) ≤ high → arr'[k]? = some x → 0 < cmp x pivot := by
  obtain ⟨hhn, hread⟩ := readAt_eq arr (i := high) (by omega) hhigh
  have hpivot := List.getElem?_eq_getElem hhn
  obtain ⟨arr₁, i, hloop, hperm, hmove, hzones, hi, hi'⟩ := partitionLoop_spec cmp arr[high.toNat]
    hlow (high - low).toNat arr (i := low - 1) (j := low) (by omega) (by omega)
    (show low + (high - low).toNat = high by omega) (by omega)
    ⟨fun k x _ _ => by omega, fun k x _ _ => by omega⟩
  have hlen := hperm.length_eq
  obtain ⟨arr₂, hswap, hperm', hreads⟩ :=
    bufferSwap_spec arr₁ (i := i + 1) (j := high) (by omega) (by omega) (by omega) (by omega)
  have hmove' : Within low high arr₁ arr₂ :=
    within_swap (i := (i + 1).toNat) (j := high.toNat) (by omega) (by omega) hreads
  refine ⟨arr₂, i + 1, arr[high.toNat], ?_, hperm'.trans hperm,
    (hmove.mono (le_refl _) (by omega)).trans hmove', by omega, by omega, ?_, ?_, ?_⟩
  · rw [bufferPartition, hread, Option.bind_eq_bind, Option.bind_some, hloop, Option.bind_eq_bind,
      Option.bind_some]
    dsimp only
    rw [hswap]
    rfl
  · rw [hreads, Equiv.swap_apply_left, hmove.outside (by omega), hpivot]
  · intro k x hk hki hx
    rw [hreads, Equiv.swap_apply_of_ne_of_ne (by omega) (by omega)] at hx
    exact hzones.below hk (by omega) hx
  · intro k x hik hki hx
    rw [hreads, Equiv.swap_apply_def] at hx
    split_ifs at hx with h₁ h₂
    · omega
    · exact hzones.above (k := (i + 1).toNat) (by omega) (by omega) hx
    · exact hzones.above (by omega) (by omega) hx

/-- The stack that holds the ranges. -/
def stackOf (ranges : List (ℤ × ℤ)) : List ℤ := ranges.flatMap fun r => [r.2, r.1]

/-- How many positions the ranges have. -/
def weight (ranges : List (ℤ × ℤ)) : ℕ := (ranges.map fun r => (r.2 - r.1 + 1).toNat).sum

/-- Ranges of two positions or more take no more room on the stack than in the buffer. -/
theorem length_stackOf_le {ranges : List (ℤ × ℤ)} (h : ∀ r ∈ ranges, r.1 < r.2) :
    (stackOf ranges).length ≤ weight ranges := by
  induction ranges with
  | nil => exact Nat.le_refl _
  | cons r ranges ih =>
    have hr := h r List.mem_cons_self
    have hrest := ih fun q hq => h q (List.mem_cons_of_mem _ hq)
    rw [stackOf, List.flatMap_cons, List.length_append, ← stackOf, weight, List.map_cons,
      List.sum_cons, ← weight, List.length_cons, List.length_cons, List.length_nil]
    omega

/-- The ranges after `pushRange`. -/
def addRange (ranges : List (ℤ × ℤ)) (low high : ℤ) : List (ℤ × ℤ) :=
  if low < high then (low, high) :: ranges else ranges

theorem mem_addRange {ranges : List (ℤ × ℤ)} {low high : ℤ} {r : ℤ × ℤ} :
    r ∈ addRange ranges low high ↔ r ∈ ranges ∨ r = (low, high) ∧ low < high := by
  rw [addRange]
  split
  · next hlt => rw [List.mem_cons, and_iff_left hlt, or_comm]
  · next hge => exact (or_iff_left fun h => hge h.2).symm

theorem weight_addRange_le (ranges : List (ℤ × ℤ)) (low high : ℤ) :
    weight (addRange ranges low high) ≤ weight ranges + (high - low + 1).toNat := by
  rw [addRange]
  split
  · rw [weight, List.map_cons, List.sum_cons, ← weight, Nat.add_comm]
  · exact Nat.le_add_right _ _

theorem descending_addRange {ranges : List (ℤ × ℤ)} {low high : ℤ} (h : Descending ranges)
    (hlow : ∀ r ∈ ranges, r.2 < low) : Descending (addRange ranges low high) := by
  rw [addRange]
  split
  · exact List.pairwise_cons.mpr ⟨hlow, h⟩
  · exact h

/-- There is room on the stack for a range of positions that are on no other range. -/
theorem pushRange_spec (bound : ℕ) (ranges : List (ℤ × ℤ)) (h : ∀ r ∈ ranges, r.1 < r.2)
    (low high : ℤ) (hbound : weight ranges + (high - low + 1).toNat ≤ bound) :
    pushRange bound (stackOf ranges) low high = some (stackOf (addRange ranges low high)) := by
  have hlen := length_stackOf_le h
  rw [pushRange, addRange]
  split
  · rw [push, if_pos (by omega), Option.bind_eq_bind, Option.bind_some, push,
      if_pos (by rw [List.length_cons]; omega)]
    rfl
  · rfl

/-- The ranges after a round of `sorter_quick` that split the range at `pi`. -/
def splitRange (ranges : List (ℤ × ℤ)) (low pi high : ℤ) : List (ℤ × ℤ) :=
  addRange (addRange ranges low (pi - 1)) (pi + 1) high

theorem mem_splitRange {ranges : List (ℤ × ℤ)} {low pi high : ℤ} {r : ℤ × ℤ} :
    r ∈ splitRange ranges low pi high ↔ r ∈ ranges ∨ r = (low, pi - 1) ∧ low < pi - 1 ∨
      r = (pi + 1, high) ∧ pi + 1 < high := by
  rw [splitRange, mem_addRange, mem_addRange, or_assoc]

theorem descending_splitRange {ranges : List (ℤ × ℤ)} {low pi high : ℤ}
    (h : Descending ((low, high) :: ranges)) (hlow : low ≤ pi) :
    Descending (splitRange ranges low pi high) := by
  obtain ⟨hafter, hrest⟩ := List.pairwise_cons.mp h
  refine descending_addRange (descending_addRange hrest hafter) fun r hr => ?_
  rcases mem_addRange.mp hr with hr | ⟨rfl, -⟩
  · have hlt : r.2 < low := hafter r hr
    omega
  · show pi - 1 < pi + 1
    omega

/-- **A round of quicksort**: the order within the parts is what is left. -/
theorem orderedOutside_splitRange {cmp : β → β → ℤ} (hcmp : IsTotalComparator cmp)
    {arr arr' : List β} {ranges : List (ℤ × ℤ)} {low pi high : ℤ} {pivot : β}
    (h : OrderedOutside (fun x y => cmp x y ≤ 0) ((low, high) :: ranges) arr)
    (hdisjoint : Descending ((low, high) :: ranges)) (hmove : Within low high arr arr')
    (hpivot : arr'[pi.toNat]? = some pivot)
    (hbelow : ∀ ⦃k : ℕ⦄ ⦃x : β⦄, low ≤ k → (k : ℤ) < pi → arr'[k]? = some x → cmp x pivot ≤ 0)
    (habove : ∀ ⦃k : ℕ⦄ ⦃x : β⦄, pi < k → (k : ℤ) ≤ high → arr'[k]? = some x → 0 < cmp x pivot) :
    OrderedOutside (fun x y => cmp x y ≤ 0) (splitRange ranges low pi high) arr' := by
  have hself : ∀ {k : ℕ} {x : β}, (k : ℤ) = pi → arr'[k]? = some x → x = pivot := by
    rintro k x rfl hx
    exact Option.some.inj (hx.symm.trans hpivot)
  refine h.split (p := pi) (v := pivot) hcmp.le_trans hdisjoint hmove ?_ ?_
    (fun r hr => mem_splitRange.mpr (.inl hr))
    (fun hlt => mem_splitRange.mpr (.inr (.inl ⟨rfl, hlt⟩)))
    fun hlt => mem_splitRange.mpr (.inr (.inr ⟨rfl, hlt⟩))
  · intro k x hlow hk hx
    rcases hk.lt_or_eq with hlt | heq
    · exact hbelow hlow hlt hx
    · rw [hself heq hx]
      exact or_self_iff.mp (hcmp.total pivot pivot)
  · intro k x hk hhigh hx
    rcases hk.lt_or_eq with hlt | heq
    · exact hcmp.le_of_pos (habove hlt hhigh hx)
    · rw [hself heq.symm hx]
      exact or_self_iff.mp (hcmp.total pivot pivot)

/-- **Quicksort permutes the buffer**, and sorts it if the comparison is a total preorder: no index
is wrong, the stack is large enough and the loop ends, since each round takes a position off the
ranges. -/
theorem quickLoop_spec (bound : ℕ) : ∀ (fuel : ℕ) (arr : List β) (ranges : List (ℤ × ℤ)),
    (∀ r ∈ ranges, 0 ≤ r.1 ∧ r.1 < r.2 ∧ r.2 < arr.length) → weight ranges ≤ bound →
    weight ranges < fuel →
    ∃ arr', quickLoop cmp bound fuel arr (stackOf ranges) = some arr' ∧ arr'.Perm arr ∧
      (IsTotalComparator cmp → Descending ranges →
        OrderedOutside (fun x y => cmp x y ≤ 0) ranges arr → Ascends cmp arr') := by
  intro fuel
  induction fuel with
  | zero => exact fun _ _ _ _ hfuel => absurd hfuel (Nat.not_lt_zero _)
  | succ fuel ih =>
    intro arr ranges hranges hbound hfuel
    cases ranges with
    | nil => exact ⟨arr, rfl, .refl _, fun _ _ hordered => hordered.pairwise⟩
    | cons r ranges =>
      obtain ⟨low, high⟩ := r
      obtain ⟨hlow, hlt, hhigh⟩ := hranges _ List.mem_cons_self
      dsimp only at hlow hlt hhigh
      obtain ⟨arr₁, pi, pivot, hpart, hperm, hmove, hle, hle', hpivot, hbelow, habove⟩ :=
        bufferPartition_spec cmp arr hlow hlt.le hhigh
      rw [weight, List.map_cons, List.sum_cons, ← weight] at hbound hfuel
      dsimp only at hbound hfuel
      have hweight := weight_addRange_le ranges low (pi - 1)
      have hweight' := weight_addRange_le (addRange ranges low (pi - 1)) (pi + 1) high
      have hrest : ∀ r ∈ ranges, r.1 < r.2 :=
        fun r hr => (hranges r (List.mem_cons_of_mem _ hr)).2.1
      have hpush := pushRange_spec bound ranges hrest low (pi - 1) (by omega)
      have hpush' := pushRange_spec bound (addRange ranges low (pi - 1)) (fun r hr => by
        rcases mem_addRange.mp hr with hr | ⟨rfl, hlt'⟩
        exacts [hrest r hr, hlt']) (pi + 1) high (by omega)
      have hlen := hperm.length_eq
      obtain ⟨arr', hloop, hperm', hsort⟩ := ih arr₁ (splitRange ranges low pi high) (by
        intro r hr
        rw [hlen]
        rcases mem_splitRange.mp hr with hr | ⟨rfl, hlt'⟩ | ⟨rfl, hlt'⟩
        · exact hranges r (List.mem_cons_of_mem _ hr)
        · exact ⟨hlow, hlt', by dsimp only; omega⟩
        · exact ⟨by dsimp only; omega, hlt', hhigh⟩) (by rw [splitRange]; omega)
        (by rw [splitRange]; omega)
      refine ⟨arr', ?_, hperm'.trans hperm, fun hcmp hdisjoint hordered => ?_⟩
      · rw [stackOf, List.flatMap_cons, ← stackOf, List.cons_append, List.cons_append,
          List.nil_append, quickLoop, hpart, Option.bind_some]
        dsimp only
        rw [hpush, Option.bind_some, hpush', Option.bind_some, ← splitRange, hloop]
      · exact hsort hcmp (descending_splitRange hdisjoint hle)
          (orderedOutside_splitRange hcmp hordered hdisjoint hmove hpivot hbelow habove)

end

/-! ## Merge sort sorts by halving

The source never says `take` or `drop`, and its buffer is one for all calls. Each statement here is
about a range of the buffer and says that the rest of it is as it was. -/

/-- The comparison of `merge`: the left item goes first. -/
def goesFirst (cmp : β → β → ℤ) (x y : β) : Bool := cmp x y ≤ 0

theorem readAt_append (l : List β) (x : β) (r : List β) :
    readAt (l ++ x :: r) (l.length : ℕ) = some x := by
  rw [readAt, if_neg (by omega), Int.toNat_natCast, List.getElem?_append_right (Nat.le_refl _),
    Nat.sub_self, List.getElem?_cons_zero]

theorem writeAt_append (l : List β) (x y : β) (r : List β) :
    writeAt (l ++ x :: r) (l.length : ℕ) y = some (l ++ y :: r) := by
  rw [writeAt, if_pos (by rw [List.length_append, List.length_cons]; omega), Int.toNat_natCast,
    List.set_append_right _ _ (Nat.le_refl _), Nat.sub_self, List.set_cons_zero]

/-- What is left of a half goes behind what is merged. -/
theorem copyRest_spec (tmp : List β) : ∀ (xs t t' pre rest : List β) (fuel : ℕ),
    tmp = t ++ (xs ++ t') → xs.length ≤ rest.length → xs.length < fuel →
    copyRest tmp (t.length + xs.length : ℕ) fuel (pre ++ rest) (t.length : ℕ) (pre.length : ℕ) =
      some (pre ++ (xs ++ rest.drop xs.length), ((pre.length + xs.length : ℕ) : ℤ)) := by
  intro xs
  induction xs with
  | nil =>
    intro t t' pre rest fuel _ _ hfuel
    obtain ⟨fuel, rfl⟩ : ∃ k, fuel = k + 1 := ⟨fuel - 1, by rw [List.length_nil] at hfuel; omega⟩
    rw [copyRest, if_neg (by simp)]
    rfl
  | cons x xs ih =>
    intro t t' pre rest fuel htmp hrest hfuel
    rw [List.length_cons] at hrest hfuel
    obtain ⟨fuel, rfl⟩ : ∃ k, fuel = k + 1 := ⟨fuel - 1, by omega⟩
    obtain ⟨r, rest, rfl⟩ := List.exists_cons_of_length_pos (show 0 < rest.length by omega)
    rw [List.length_cons] at hrest
    have hstep := ih (t ++ [x]) t' (pre ++ [x]) rest fuel (by rw [htmp]; simp) (by omega)
      (by omega)
    rw [copyRest, if_pos (by rw [List.length_cons]; omega), htmp, List.cons_append, readAt_append,
      Option.bind_eq_bind, Option.bind_some, writeAt_append, Option.bind_eq_bind, Option.bind_some,
      ← List.cons_append, ← htmp]
    simp only [List.length_append, List.length_cons, List.length_nil, List.append_assoc,
      List.cons_append, List.nil_append, Nat.zero_add] at hstep ⊢
    rw [show t.length + (xs.length + 1) = t.length + 1 + xs.length by omega,
      show pre.length + (xs.length + 1) = pre.length + 1 + xs.length by omega]
    exact hstep

/-- Once one half is used up, the two last loops of `merge` copy the rest of the other. -/
theorem mergeLoops_done (cmp : β → β → ℤ) (tmp : List β) {mid high fuel fuel' : ℕ}
    {xs ys : List β} (t u t' pre rest : List β) (htmp : tmp = t ++ (xs ++ (u ++ (ys ++ t'))))
    (hmid : mid = t.length + xs.length) (hhigh : high = t.length + xs.length + u.length + ys.length)
    (hrest : xs.length + ys.length ≤ rest.length) (hfuel' : xs.length + ys.length < fuel')
    (hdone : xs = [] ∨ ys = []) :
    ((mergeBoth cmp tmp mid high (fuel + 1) (pre ++ rest) (t.length : ℕ)
      (t.length + xs.length + u.length : ℕ) (pre.length : ℕ)).bind fun (arr, i, j, k) =>
        (copyRest tmp mid fuel' arr i k).bind fun (arr, k) => copyRest tmp high fuel' arr j k) =
    some (pre ++ (List.merge xs ys (goesFirst cmp) ++ rest.drop (xs.length + ys.length)),
      ((pre.length + (xs.length + ys.length) : ℕ) : ℤ)) := by
  have hmerge : List.merge xs ys (goesFirst cmp) = xs ++ ys := by
    rcases hdone with rfl | rfl <;> simp
  have hstop : ¬(((t.length : ℕ) : ℤ) < mid ∧
      ((t.length + xs.length + u.length : ℕ) : ℤ) < high) := by
    rcases hdone with rfl | rfl <;> simp [hmid, hhigh]
  have hleft := copyRest_spec tmp xs t (u ++ (ys ++ t')) pre rest fuel' htmp (by omega)
    (by omega)
  have hright := copyRest_spec tmp ys (t ++ (xs ++ u)) t' (pre ++ xs) (rest.drop xs.length)
    fuel' (by rw [htmp]; simp) (by rw [List.length_drop]; omega) (by omega)
  simp only [List.length_append, List.append_assoc, List.drop_drop, ← Nat.add_assoc,
    ← hhigh] at hright
  rw [mergeBoth, if_neg hstop, Option.bind_some]
  dsimp only
  rw [hmid, hleft, Option.bind_some]
  dsimp only
  rw [hright, hmerge, List.append_assoc, Nat.add_assoc]

/-- **The three loops of `merge`** put the merge of the halves into the buffer. -/
theorem mergeLoops_spec (cmp : β → β → ℤ) (tmp : List β) (mid high fuel' : ℕ) :
    ∀ (fuel : ℕ) (xs ys t u t' pre rest : List β),
      tmp = t ++ (xs ++ (u ++ (ys ++ t'))) → mid = t.length + xs.length →
      high = t.length + xs.length + u.length + ys.length →
      xs.length + ys.length ≤ rest.length → xs.length + ys.length < fuel →
      xs.length + ys.length < fuel' →
      ((mergeBoth cmp tmp mid high fuel (pre ++ rest) (t.length : ℕ)
        (t.length + xs.length + u.length : ℕ) (pre.length : ℕ)).bind fun (arr, i, j, k) =>
          (copyRest tmp mid fuel' arr i k).bind fun (arr, k) => copyRest tmp high fuel' arr j k) =
      some (pre ++ (List.merge xs ys (goesFirst cmp) ++ rest.drop (xs.length + ys.length)),
        ((pre.length + (xs.length + ys.length) : ℕ) : ℤ)) := by
  intro fuel
  induction fuel with
  | zero => exact fun _ _ _ _ _ _ _ _ _ _ _ hfuel => absurd hfuel (Nat.not_lt_zero _)
  | succ fuel ih =>
    intro xs ys t u t' pre rest htmp hmid hhigh hrest hfuel hfuel'
    by_cases hdone : xs = [] ∨ ys = []
    · exact mergeLoops_done cmp tmp t u t' pre rest htmp hmid hhigh hrest hfuel' hdone
    · obtain ⟨hx, hy⟩ := not_or.mp hdone
      obtain ⟨x, xs, rfl⟩ := List.exists_cons_of_ne_nil hx
      obtain ⟨y, ys, rfl⟩ := List.exists_cons_of_ne_nil hy
      simp only [List.length_cons] at hmid hhigh hrest hfuel hfuel' ⊢
      obtain ⟨r, rest, rfl⟩ := List.exists_cons_of_length_pos (show 0 < rest.length by omega)
      rw [List.length_cons] at hrest
      have hreadx : readAt tmp (t.length : ℕ) = some x := by
        rw [htmp, List.cons_append, readAt_append]
      have hready : readAt tmp (t.length + (xs.length + 1) + u.length : ℕ) = some y := by
        have hread := readAt_append (t ++ (x :: xs ++ u)) y (ys ++ t')
        simp only [List.length_append, List.length_cons] at hread
        rw [htmp]
        simpa [Nat.add_assoc] using hread
      rw [mergeBoth, if_pos (by omega), hreadx, hready]
      simp only [Option.bind_eq_bind, Option.bind_some, writeAt_append]
      by_cases hle : cmp x y ≤ 0
      · have hstep := ih xs (y :: ys) (t ++ [x]) u t' (pre ++ [x]) rest (by rw [htmp]; simp)
          (by simp; omega) (by simp; omega) (by simp; omega) (by simp; omega) (by simp; omega)
        rw [if_pos hle, List.cons_merge_cons_pos _ _ _ (by simpa [goesFirst] using hle)]
        simp only [List.length_append, List.length_cons, List.length_nil, List.append_assoc,
          List.cons_append, List.nil_append, Nat.zero_add] at hstep ⊢
        rw [show t.length + (xs.length + 1) + u.length =
            t.length + 1 + xs.length + u.length by omega,
          show pre.length + (xs.length + 1 + (ys.length + 1)) =
            pre.length + 1 + (xs.length + (ys.length + 1)) by omega,
          show xs.length + 1 + (ys.length + 1) = xs.length + (ys.length + 1) + 1 by omega,
          List.drop_succ_cons, ← Nat.cast_succ, ← Nat.cast_succ]
        exact hstep
      · have hstep := ih (x :: xs) ys t (u ++ [y]) t' (pre ++ [y]) rest (by rw [htmp]; simp)
          (by simp; omega) (by simp; omega) (by simp; omega) (by simp; omega) (by simp; omega)
        rw [if_neg hle, List.cons_merge_cons_neg _ _ _ (by simpa [goesFirst] using hle)]
        simp only [List.length_append, List.length_cons, List.length_nil, List.append_assoc,
          List.cons_append, List.nil_append, Nat.zero_add] at hstep ⊢
        rw [show pre.length + (xs.length + 1 + (ys.length + 1)) =
            pre.length + 1 + (xs.length + 1 + ys.length) by omega,
          show xs.length + 1 + (ys.length + 1) = xs.length + 1 + ys.length + 1 by omega,
          List.drop_succ_cons, ← Nat.cast_succ, ← Nat.cast_succ]
        exact hstep

/-- **`merge`** merges neighbouring ranges of the buffer. -/
theorem merge_spec (cmp : β → β → ℤ) (pre xs ys post tmp : List β)
    (htmp : tmp.length = pre.length + (xs.length + (ys.length + post.length))) :
    ∃ tmp', merge cmp (pre ++ (xs ++ (ys ++ post))) tmp (pre.length : ℕ)
        (pre.length + xs.length : ℕ) (pre.length + xs.length + ys.length : ℕ) =
      some (pre ++ (List.merge xs ys (goesFirst cmp) ++ post), tmp') ∧
      tmp'.length = tmp.length := by
  have hsum : ((pre.length + xs.length + ys.length : ℕ) : ℤ) - (pre.length : ℕ) =
      (xs.length + ys.length : ℕ) := by omega
  have hrange : ((pre ++ (xs ++ (ys ++ post))).drop pre.length).take (xs.length + ys.length) =
      xs ++ ys := by
    rw [List.drop_left, ← List.append_assoc xs, ← List.length_append, List.take_left]
  have hcopy : copyRange tmp (pre ++ (xs ++ (ys ++ post))) (pre.length : ℕ)
      (pre.length + xs.length + ys.length : ℕ) =
        some (tmp.take pre.length ++ (xs ++ (ys ++ tmp.drop (pre.length + xs.length + ys.length))))
      := by
    rw [copyRange, if_pos (by simp only [List.length_append]; omega), hsum, Int.toNat_natCast,
      Int.toNat_natCast, Int.toNat_natCast, hrange]
    simp
  have htake : (tmp.take pre.length).length = pre.length := by
    rw [List.length_take]
    omega
  have hdrop : (xs ++ (ys ++ post)).drop (xs.length + ys.length) = post := by
    rw [← List.append_assoc, ← List.length_append, List.drop_left]
  have hloops := mergeLoops_spec cmp _ (pre.length + xs.length)
    (pre.length + xs.length + ys.length) (xs.length + ys.length + 1) (xs.length + ys.length + 1) xs
    ys (tmp.take pre.length) [] (tmp.drop (pre.length + xs.length + ys.length)) pre
    (xs ++ (ys ++ post)) rfl (by rw [htake]) (by rw [htake, List.length_nil, Nat.add_zero])
    (by simp only [List.length_append]; omega) (Nat.lt_succ_self _) (Nat.lt_succ_self _)
  simp only [htake, List.length_nil, Nat.add_zero, hdrop, List.nil_append] at hloops
  obtain ⟨⟨arr₁, i, j, k⟩, hboth, hrest⟩ := Option.bind_eq_some_iff.mp hloops
  obtain ⟨⟨arr₂, k₂⟩, hleft, hright⟩ := Option.bind_eq_some_iff.mp hrest
  dsimp only at hleft hright
  refine ⟨tmp.take pre.length ++ (xs ++ (ys ++ tmp.drop (pre.length + xs.length + ys.length))),
    ?_, ?_⟩
  · simp only [merge, hsum, Int.toNat_natCast, hcopy, Option.bind_eq_bind, Option.bind_some, hboth,
      hleft, hright]
    rfl
  · simp only [List.length_append, List.length_take, List.length_drop]
    omega

/-- **`merge_sort_recursive`** sorts a range of the buffer by halving. -/
theorem mergeSortRecursive_spec (cmp : β → β → ℤ) : ∀ (fuel : ℕ) (pre seg post tmp : List β),
    tmp.length = pre.length + (seg.length + post.length) → seg.length < fuel →
    ∃ tmp', mergeSortRecursive cmp fuel (pre ++ (seg ++ post)) tmp (pre.length : ℕ)
        (pre.length + seg.length : ℕ) =
      some (pre ++ (sortHalves (goesFirst cmp) seg ++ post), tmp') ∧
      tmp'.length = tmp.length := by
  intro fuel
  induction fuel with
  | zero => exact fun _ _ _ _ _ hfuel => absurd hfuel (Nat.not_lt_zero _)
  | succ fuel ih =>
    intro pre seg post tmp htmp hfuel
    rw [mergeSortRecursive]
    by_cases hshort : seg.length < 2
    · rw [if_pos (by omega), sortHalves_short _ hshort]
      exact ⟨tmp, rfl, rfl⟩
    · have hmid : ((pre.length : ℕ) : ℤ) +
          (((pre.length + seg.length : ℕ) : ℤ) - (pre.length : ℕ)) / 2 =
            (pre.length + (seg.take (seg.length / 2)).length : ℕ) := by
        rw [List.length_take]
        omega
      have hleft : (seg.take (seg.length / 2)).length = seg.length / 2 := by
        rw [List.length_take]
        omega
      have hright : (seg.drop (seg.length / 2)).length = seg.length - seg.length / 2 :=
        List.length_drop
      obtain ⟨tmp₁, hsort₁, hlen₁⟩ := ih pre (seg.take (seg.length / 2))
        (seg.drop (seg.length / 2) ++ post) tmp (by rw [List.length_append]; omega) (by omega)
      rw [← List.append_assoc _ _ post, List.take_append_drop] at hsort₁
      obtain ⟨tmp₂, hsort₂, hlen₂⟩ := ih
        (pre ++ sortHalves (goesFirst cmp) (seg.take (seg.length / 2)))
        (seg.drop (seg.length / 2)) post tmp₁
        (by rw [List.length_append, length_sortHalves]; omega) (by omega)
      obtain ⟨tmp₃, hmerge, hlen₃⟩ := merge_spec cmp pre
        (sortHalves (goesFirst cmp) (seg.take (seg.length / 2)))
        (sortHalves (goesFirst cmp) (seg.drop (seg.length / 2))) post tmp₂
        (by rw [length_sortHalves, length_sortHalves]; omega)
      have hhigh : pre.length + (seg.take (seg.length / 2)).length +
          (seg.drop (seg.length / 2)).length = pre.length + seg.length := by omega
      rw [length_sortHalves, length_sortHalves, hhigh] at hmerge
      rw [List.length_append, length_sortHalves, hhigh, List.append_assoc, List.append_assoc]
        at hsort₂
      refine ⟨tmp₃, ?_, hlen₃.trans (hlen₂.trans hlen₁)⟩
      rw [if_neg (by omega)]
      dsimp only
      rw [hmid, hsort₁, sortHalves_long (goesFirst cmp) (show 2 ≤ seg.length by omega)]
      simp only [Option.bind_eq_bind, Option.bind_some, hsort₂, hmerge]

/-! ## Shuffling and reversing permute -/

theorem shuffleLoop_spec : ∀ (rand : ℕ → ℕ) {i : ℕ} (arr : List β), i < arr.length →
    ∃ arr', shuffleLoop rand i arr = some arr' ∧ arr'.Perm arr
  | _, 0, arr, _ => ⟨arr, rfl, .refl _⟩
  | rand, i + 1, arr, hi => by
    have hj : rand 0 % (i + 2) < i + 2 := Nat.mod_lt _ (by omega)
    obtain ⟨arr₁, hswap, hperm, -⟩ :=
      bufferSwap_spec arr (i := (i + 1 : ℕ)) (j := (rand 0 % (i + 2) : ℕ)) (by omega) (by omega)
        (by omega) (by omega)
    have hlen := hperm.length_eq
    obtain ⟨arr', hloop, hperm'⟩ :=
      shuffleLoop_spec (fun n => rand (n + 1)) (i := i) arr₁ (by omega)
    refine ⟨arr', ?_, hperm'.trans hperm⟩
    rw [shuffleLoop, hswap, Option.bind_eq_bind, Option.bind_some, hloop]

theorem reverseLoop_spec : ∀ (fuel : ℕ) (arr : List β) {i j : ℤ}, 0 ≤ i → j < arr.length →
    (j - i).toNat < fuel → ∃ arr', reverseLoop fuel arr i j = some arr' ∧ arr'.Perm arr := by
  intro fuel
  induction fuel with
  | zero => exact fun _ _ _ _ _ hfuel => absurd hfuel (Nat.not_lt_zero _)
  | succ fuel ih =>
    intro arr i j hi hj hfuel
    rw [reverseLoop]
    split
    · next hlt =>
      obtain ⟨arr₁, hswap, hperm, -⟩ :=
        bufferSwap_spec arr (i := i) (j := j) hi (by omega) (by omega) hj
      have hlen := hperm.length_eq
      obtain ⟨arr', hloop, hperm'⟩ := ih arr₁ (i := i + 1) (j := j - 1) (by omega) (by omega)
        (by omega)
      rw [hswap, Option.bind_eq_bind, Option.bind_some]
      exact ⟨arr', hloop, hperm'.trans hperm⟩
    · exact ⟨arr, rfl, .refl _⟩

end Sorter

end OvaLib
