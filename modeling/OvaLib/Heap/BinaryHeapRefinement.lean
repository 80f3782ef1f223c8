import Mathlib.Data.Multiset.AddSub
import OvaLib.Foundation.HeapOrder
import OvaLib.Heap.BinaryHeap

/-!
# The binary heap is a bag with a greatest item

`binary_heap.c` against a multiset. Both sifts end in heap order, so the first slot holds an item
that no stored item compares above. A growth may fail; the call then says so and the contents are as
before.

## How the proof goes

Heap order relates every slot to its parent. While a sift is under way it is broken in one place, at
the hole, and what holds there instead differs for the two directions. Going up, everything below
the hole is in order with the parent of the hole, and only the item that is carried may be too great
for it. Going down, the parent of the hole is in order with the children of the hole. Either is kept
by one step, and when the item is put down the order is whole.

The item at the root is greatest since every path upwards does not descend. A pop takes it, moves
the last item to the root and sifts it down.

## Scope

The comparator may report ties, and which of two equal items comes out first is not stated: the heap
is not stable, and a bag does not remember the order of insertion.

## Main results

* `BinaryHeap.siftUp_ordered`, `BinaryHeap.siftDown_ordered` — heap order after a sift
* `BinaryHeap.Represents.put`, `BinaryHeap.Represents.pop` — the operations on the bag
-/

namespace OvaLib

namespace BinaryHeap

open Foundation

variable {α : Type*} {cmp : α → α → ℤ}

/-- `binary_heap_peek`. -/
def peek (h : BinaryHeap α) : Option α := h.data[0]?

/-- `binary_heap_clear`. -/
def clear (h : BinaryHeap α) : BinaryHeap α := ⟨[], h.capacity, Nat.zero_le _, h.capacity_le⟩

/-! ## Sifting -/

/-- Sifting up ends in heap order. -/
theorem siftUp_ordered (hcmp : IsComparator cmp) (data : List α) (index : ℕ) (item : α)
    (h : UpOrder cmp data index item) : HeapOrdered cmp (siftUp cmp data index item) := by
  fun_induction siftUp cmp data index item with
  | case1 data index hpos parentIdx hnone =>
    refine h.finish fun _ p hp => absurd hp ?_
    show data[parentIdx]? ≠ some p
    rw [hnone]
    simp
  | case2 data index hpos parentIdx parent hparent hstop =>
    refine h.finish fun _ p hp => ?_
    obtain rfl := Option.some.inj (hp.symm.trans hparent)
    exact hcmp.le_of_nonneg hstop
  | case3 data index hpos parentIdx parent hparent hless ih =>
    exact ih (h.move hcmp hpos hparent (not_le.mp hless).le)
  | case4 data index hzero => exact h.finish fun hpos => absurd hpos hzero

/-- The slots below a slot. -/
theorem child_cases {i index : ℕ} (hpos : 0 < i) (h : parentSlot i = index) :
    i = 2 * index + 1 ∨ i = 2 * index + 1 + 1 := by
  rw [parentSlot] at h
  omega

theorem parentSlot_left (index : ℕ) : parentSlot (2 * index + 1) = index := by
  rw [parentSlot]
  omega

theorem parentSlot_right (index : ℕ) : parentSlot (2 * index + 1 + 1) = index := by
  rw [parentSlot]
  omega

/-- The child that sifting down goes on with is one that no child compares above. -/
theorem greaterChild_spec (hcmp : IsComparator cmp) {data : List α} {index : ℕ} {left : α}
    (hleft : data[2 * index + 1]? = some left) :
    parentSlot (greaterChild cmp data (2 * index + 1) left).1 = index ∧
      ∀ i, 0 < i → parentSlot i = index → ∀ x, data[i]? = some x →
        cmp x (greaterChild cmp data (2 * index + 1) left).2 ≤ 0 := by
  rw [greaterChild]
  split
  · next hnone =>
    refine ⟨parentSlot_left index, fun i hpos hpar x hx => ?_⟩
    rcases child_cases hpos hpar with rfl | rfl
    · obtain rfl := Option.some.inj (hx.symm.trans hleft)
      exact (hcmp.self x).le
    · rw [hnone] at hx
      cases hx
  · next right hright =>
    split
    · next hgreater =>
      refine ⟨parentSlot_right index, fun i hpos hpar x hx => ?_⟩
      rcases child_cases hpos hpar with rfl | rfl
      · obtain rfl := Option.some.inj (hx.symm.trans hleft)
        exact ((hcmp.neg_iff _ _).mpr hgreater).le
      · obtain rfl := Option.some.inj (hx.symm.trans hright)
        exact (hcmp.self x).le
    · next hgreater =>
      refine ⟨parentSlot_left index, fun i hpos hpar x hx => ?_⟩
      rcases child_cases hpos hpar with rfl | rfl
      · obtain rfl := Option.some.inj (hx.symm.trans hleft)
        exact (hcmp.self x).le
      · obtain rfl := Option.some.inj (hx.symm.trans hright)
        exact not_lt.mp hgreater

/-- Sifting down ends in heap order. -/
theorem siftDown_ordered (hcmp : IsComparator cmp) (data : List α) (index : ℕ) (item : α)
    (h : DownOrder cmp data index item) : HeapOrdered cmp (siftDown cmp data index item) := by
  fun_induction siftDown cmp data index item with
  | case1 data index hhalf hnone =>
    have hlen := List.getElem?_eq_none_iff.mp hnone
    omega
  | case2 data index hhalf left hleft child hstop =>
    obtain ⟨-, hgreatest⟩ := greaterChild_spec hcmp hleft
    exact h.finish fun i hpos hpar x hx => hcmp.le_trans (hgreatest i hpos hpar x hx) hstop
  | case3 data index hhalf left hleft child hgreater ih =>
    obtain ⟨hchild, hgreatest⟩ := greaterChild_spec hcmp hleft
    have hle : 2 * index + 1 ≤ child.1 := le_greaterChild cmp data (2 * index + 1) left
    refine ih (h.move (by omega) hchild (greaterChild_get cmp hleft) hgreatest ?_)
    exact hcmp.le_of_nonneg (not_le.mp hgreater).le
  | case4 data index hhalf =>
    refine h.finish fun i hpos hpar x hx => ?_
    have hlen := (List.getElem?_eq_some_iff.mp hx).1
    have hcases := child_cases hpos hpar
    omega

/-! ## The bag -/

/-- The heap holds the items of a bag in heap order. -/
structure Represents (cmp : α → α → ℤ) (h : BinaryHeap α) (B : Multiset α) : Prop where
  /-- No slot compares above its parent. -/
  ordered : HeapOrdered cmp h.data
  /-- The slots, as a bag. -/
  items : (h.data : Multiset α) = B

/-- No item of the bag compares above `x`. -/
def Greatest (cmp : α → α → ℤ) (B : Multiset α) (x : α) : Prop := x ∈ B ∧ ∀ y ∈ B, cmp y x ≤ 0

variable {h : BinaryHeap α} {B : Multiset α}

theorem Represents.size (hB : Represents cmp h B) : h.size = B.card := by
  rw [← hB.items]
  rfl

theorem Represents.nil_iff (hB : Represents cmp h B) : h.data = [] ↔ B = 0 := by
  rw [← hB.items, Multiset.coe_eq_zero]

theorem heapOrdered_nil (cmp : α → α → ℤ) : HeapOrdered cmp ([] : List α) :=
  fun i _ x p hx => absurd hx (by simp)

theorem Represents.clear (cmp : α → α → ℤ) (h : BinaryHeap α) : Represents cmp h.clear 0 :=
  ⟨heapOrdered_nil cmp, rfl⟩

/-- The first slot holds a greatest item. -/
theorem Represents.top (hcmp : IsComparator cmp) (hB : Represents cmp h B) {top : α}
    (htop : h.data[0]? = some top) : Greatest cmp B top := by
  rw [← hB.items]
  refine ⟨List.mem_of_getElem? htop, fun y hy => ?_⟩
  obtain ⟨i, hi⟩ := List.getElem?_of_mem (Multiset.mem_coe.mp hy)
  exact hB.ordered.top hcmp htop hi

theorem Represents.peek (hcmp : IsComparator cmp) (hB : Represents cmp h B) :
    (h.peek = none ∧ B = 0) ∨ ∃ top, h.peek = some top ∧ Greatest cmp B top := by
  rw [BinaryHeap.peek]
  cases htop : h.data[0]? with
  | none =>
    refine .inl ⟨rfl, hB.nil_iff.mp ?_⟩
    rw [← List.length_eq_zero_iff]
    have hlen := List.getElem?_eq_none_iff.mp htop
    omega
  | some top => exact .inr ⟨top, rfl, hB.top hcmp htop⟩

/-- The growth at the beginning of a put fails for one of two reasons. -/
theorem ensureRoom_spec (h : BinaryHeap α) (hpos : 0 < h.capacity) (a : Allocator) :
    (∃ room a', h.ensureRoom a = (.inr room, a')) ∨
      (∃ a', h.ensureRoom a = (.inl .errorFull, a') ∧ h.data.length = intMax) ∨
      ∃ a', h.ensureRoom a = (.inl .errorMemory, a') ∧ a.outcome 0 = false := by
  rw [ensureRoom]
  split
  · next hfull =>
    split
    · next hmax =>
      refine .inr (.inl ⟨a, rfl, ?_⟩)
      have hle := h.capacity_le
      rw [safeDoubleCapacity] at hmax
      split at hmax <;> omega
    · next hmax =>
      cases halloc : a.alloc with
      | mk ok a' =>
        cases ok with
        | true => exact .inl ⟨_, a', rfl⟩
        | false => exact .inr (.inr ⟨a', rfl, congrArg Prod.fst halloc⟩)
  · exact .inl ⟨_, a, rfl⟩

/-- Sifting up an item from the end of the array ends in heap order. -/
theorem ordered_append (hcmp : IsComparator cmp) {data : List α} (h : HeapOrdered cmp data)
    (item : α) : HeapOrdered cmp (siftUp cmp (data ++ [item]) data.length item) := by
  have hnone : ∀ i, 0 < i → parentSlot i = data.length → ∀ x,
      (data ++ [item])[i]? = some x → False := fun i hi hpar x hx => by
    have hlen := (List.getElem?_eq_some_iff.mp hx).1
    have hcases := child_cases hi hpar
    rw [List.length_append, List.length_singleton] at hlen
    omega
  have hold : ∀ {i : ℕ} {x : α}, i ≠ data.length → (data ++ [item])[i]? = some x →
      data[i]? = some x := fun {i x} hne hx => by
    have hlen := (List.getElem?_eq_some_iff.mp hx).1
    rw [List.length_append, List.length_singleton] at hlen
    rwa [List.getElem?_append_left (by omega)] at hx
  refine siftUp_ordered hcmp _ _ _ ⟨⟨fun i hi hne hpar x p hx hp => ?_,
    fun _ i hi hpar x p hx _ => ?_⟩, fun i hi hpar x hx => (hnone i hi hpar x hx).elim⟩
  · exact h i hi x p (hold hne hx) (hold hpar hp)
  · exact (hnone i hi hpar x hx).elim

/-- Heap order is kept by a put, whatever it returns. -/
theorem ordered_put (hcmp : IsComparator cmp) (h : BinaryHeap α) (hordered : HeapOrdered cmp h.data)
    (item : α) (a : Allocator) : HeapOrdered cmp (h.put cmp item a).2.1.data := by
  rw [BinaryHeap.put]
  split
  · exact hordered
  · exact ordered_append hcmp hordered item

/-- **A put** adds the item, or reports why it could not and changes nothing. -/
theorem Represents.put (hcmp : IsComparator cmp) (hB : Represents cmp h B) (hpos : 0 < h.capacity)
    (item : α) (a : Allocator) :
    (∃ h' a', h.put cmp item a = (.success, h', a') ∧ Represents cmp h' (item ::ₘ B) ∧
        0 < h'.capacity) ∨
      (∃ a', h.put cmp item a = (.errorFull, h, a') ∧ B.card = intMax) ∨
      ∃ a', h.put cmp item a = (.errorMemory, h, a') ∧ a.outcome 0 = false := by
  rw [BinaryHeap.put]
  rcases h.ensureRoom_spec hpos a with ⟨room, a', hroom⟩ | ⟨a', hroom, hfull⟩ | ⟨a', hroom, hfail⟩
  · left
    rw [hroom]
    refine ⟨_, a', rfl, ⟨ordered_append hcmp hB.ordered item, ?_⟩, Nat.zero_lt_of_lt room.size_lt⟩
    rw [← hB.items, Multiset.cons_coe, Multiset.coe_eq_coe]
    exact siftUp_append_perm cmp _ _
  · right
    left
    rw [hroom]
    exact ⟨a', rfl, by rw [← hB.size]; exact hfull⟩
  · right
    right
    rw [hroom]
    exact ⟨a', rfl, hfail⟩

/-- What is left after a pop is in heap order. -/
theorem ordered_pop (hcmp : IsComparator cmp) (h : BinaryHeap α)
    (hordered : HeapOrdered cmp h.data) :
    HeapOrdered cmp (h.pop cmp).2.data := by
  rw [BinaryHeap.pop]
  split
  · next top last htop hlast =>
    refine siftDown_ordered hcmp _ _ _ ⟨⟨fun i hpos _ hpar x p hx hp => ?_, fun hpos => ?_⟩,
      fun hpos => ?_⟩
    · have hold : ∀ {i : ℕ} {x : α}, i ≠ 0 → (h.data.set 0 last).dropLast[i]? = some x →
          h.data[i]? = some x := fun {i x} hne hx => by
        rw [List.getElem?_dropLast] at hx
        split at hx
        · rwa [List.getElem?_set_ne (Ne.symm hne)] at hx
        · exact absurd hx (by simp)
      exact hordered i hpos x p (hold (by omega) hx) (hold hpar hp)
    · exact absurd hpos (lt_irrefl 0)
    · exact absurd hpos (lt_irrefl 0)
  · exact hordered

/-- **A pop** takes out a greatest item. -/
theorem Represents.pop (hcmp : IsComparator cmp) (hB : Represents cmp h B) :
    (h.pop cmp = (none, h) ∧ B = 0) ∨
      ∃ top h' B', h.pop cmp = (some top, h') ∧ B = top ::ₘ B' ∧ Greatest cmp B top ∧
        Represents cmp h' B' ∧ h'.capacity = h.capacity := by
  by_cases hnil : h.data = []
  · exact .inl ⟨pop_nil cmp hnil, hB.nil_iff.mp hnil⟩
  · right
    obtain ⟨top, h', hpop, hperm, hcap⟩ := pop_spec cmp hnil
    have htop : h.data[0]? = some top := by
      have hfst := congrArg Prod.fst hpop
      rw [BinaryHeap.pop] at hfst
      split at hfst
      · next top' last htop' hlast =>
        rw [htop']
        exact hfst
      · exact absurd hfst (by simp)
    have hordered := ordered_pop hcmp h hB.ordered
    rw [hpop] at hordered
    refine ⟨top, h', h'.data, hpop, ?_, hB.top hcmp htop, ⟨hordered, rfl⟩, hcap⟩
    rw [← hB.items, Multiset.cons_coe, Multiset.coe_eq_coe]
    exact hperm.symm

/-! ## Draining

Popping until nothing is left, which is what a caller does who wants the items sorted. -/

/-- Pops until the heap is empty, `n` at most. -/
def drain (cmp : α → α → ℤ) : ℕ → BinaryHeap α → List α
  | 0, _ => []
  | n + 1, h =>
    match h.pop cmp with
    | (none, _) => []
    | (some top, h) => top :: drain cmp n h

/-- **Draining a heap** gives all its items, in non-increasing order. -/
theorem Represents.drain (hcmp : IsComparator cmp) : ∀ {n : ℕ} {h : BinaryHeap α} {B : Multiset α},
    Represents cmp h B → B.card ≤ n →
      (BinaryHeap.drain cmp n h : Multiset α) = B ∧
        (BinaryHeap.drain cmp n h).Pairwise fun x y => cmp y x ≤ 0 := by
  intro n
  induction n with
  | zero =>
    intro h B hB hcard
    exact ⟨(Multiset.card_eq_zero.mp (Nat.le_zero.mp hcard)).symm, .nil⟩
  | succ n ih =>
    intro h B hB hcard
    rw [BinaryHeap.drain]
    rcases hB.pop hcmp with ⟨hpop, rfl⟩ | ⟨top, h', B', hpop, rfl, hgreatest, hB', -⟩
    · rw [hpop]
      exact ⟨rfl, .nil⟩
    · rw [hpop]
      rw [Multiset.card_cons] at hcard
      obtain ⟨hitems, hsorted⟩ := ih hB' (by omega)
      refine ⟨?_, List.pairwise_cons.mpr ⟨fun y hy => ?_, hsorted⟩⟩
      · rw [← hitems]
        rfl
      · refine hgreatest.2 y (Multiset.mem_cons_of_mem ?_)
        rw [← hitems]
        exact hy

end BinaryHeap

end OvaLib
