import OvaLib.Sorter.QuickSort

/-!
# Merge sort on a list

`sorter_merge` copies the items into a buffer, sorts a range of it by sorting its halves and merging
them, and fills the list again. A merge takes the left item unless the right one is smaller, so ties
keep their order.

Stability is stated by its definition: for every item, the items that are tied with it come out in
the order in which they went in. For a buffer of pointers this is a real statement, as tied items
need not be equal. `StableSort` has it as a field next to the order and the permutation, and the
proof that sorting by halving does this is in the library.

The size of a list is an `int`. A linked list does not refuse an item at `INT_MAX`, so its size may
be negative, and then the sorter returns at once: the list stays as it is, and the last theorem
shows one that is not in order.

## Main results

* `sortHalves_stable` — the buffer after `merge_sort_recursive`
* `sorterMerge_sorts` — the list after `sorter_merge`
-/

namespace OvaLib

namespace Sorter

open Foundation

variable {α : Type*} {cmp : Option α → Option α → ℤ}

/-- The list `t` has the items of `s` in order, and ties as they were in `s`. -/
structure StableSort (cmp : Option α → Option α → ℤ) (s t : List (Option α)) : Prop where
  perm : t.Perm s
  ascends : Ascends cmp t
  /-- The items that are tied with any one item keep their order. -/
  tiesWith_eq : ∀ x, tiesWith cmp x t = tiesWith cmp x s

/-- There is nothing to sort. -/
theorem stableSort_of_short {s : List (Option α)} (h : s.length < 2) : StableSort cmp s s where
  perm := .refl s
  ascends := List.pairwise_iff_getElem.mpr fun i j hi hj hij => by omega
  tiesWith_eq _ := rfl

/-- **The buffer after `merge_sort_recursive`.** -/
theorem sortHalves_stable (hcmp : IsComparator cmp) (s : List (Option α)) :
    StableSort cmp s (sortHalves (goesFirst cmp) s) := by
  have htrans : ∀ x y z, goesFirst cmp x y → goesFirst cmp y z → goesFirst cmp x z := by
    intro x y z hxy hyz
    rw [goesFirst, decide_eq_true_eq] at hxy hyz ⊢
    exact hcmp.le_trans hxy hyz
  have htotal : ∀ x y, goesFirst cmp x y || goesFirst cmp y x := by
    intro x y
    rw [goesFirst, goesFirst, Bool.or_eq_true, decide_eq_true_eq, decide_eq_true_eq]
    exact hcmp.isTotalComparator.total x y
  constructor
  · exact sortHalves_perm (goesFirst cmp) s
  · refine (sortHalves_pairwise htrans htotal s).imp fun hxy => ?_
    rwa [goesFirst, decide_eq_true_eq] at hxy
  · intro x
    refine filter_sortHalves htrans htotal (fun y z hy hz => ?_) s
    rw [decide_eq_true_eq] at hy hz
    rw [goesFirst, decide_eq_true_eq]
    exact hcmp.le_trans (hcmp.eq_symm hy).le hz.le

variable (cmpList : Option α → Option α → ℤ) {l : ListObject α} {s : List (Option α)}

/-- The list after `sorter_merge`. -/
theorem sorterMerge_holds (hcmp : IsComparator cmp) (h : l.Holds ListObject.allEqual s)
    (htype : l.type ≠ .sortedList) (hmax : s.length ≤ intMax) :
    ∃ l' a' s', sorterMerge (listMethods cmpList) cmp l .always = some (l', a') ∧
      l'.Holds ListObject.allEqual s' ∧ StableSort cmp s s' := by
  have hM := list_reads cmpList l.type
  by_cases hlen : s.length < 2
  · obtain ⟨l', a', hrun, hl', -⟩ :=
      (SorterCall.merge cmp).run_early hM ⟨h, rfl⟩ (a := .always) (.inl hlen)
    exact ⟨l', a', s, hrun, hl', stableSort_of_short hlen⟩
  · obtain ⟨l₁, ⟨h₁, htype₁⟩, hrun⟩ :=
      sorterMerge_spec hM cmp ⟨h, rfl⟩ (not_lt.mp hlen) (a := .always) fun _ _ => rfl
    obtain ⟨hclear, hroom, htype₂⟩ := h₁.clear hmax
    rw [← length_sortHalves (goesFirst cmp) s] at hroom
    obtain ⟨l', s', hwrite, hl', -, happend⟩ := insertAll_spec cmpList _ hclear hroom
    have hs' : s' = sortHalves (goesFirst cmp) s := by
      rw [happend (by rwa [htype₂, htype₁]), List.nil_append]
    exact ⟨l', .always, s', hrun.trans hwrite, hl', hs' ▸ sortHalves_stable hcmp s⟩

variable {cmpList} in
/-- **Merge sort**, on every array or linked list of at most `INT_MAX` items that calls build, with
allocations succeeding: the list has its items in order, and those that compare as equal as they
were. -/
theorem sorterMerge_sorts (hcmp : IsComparator cmp) (h : l.Built cmpList)
    (htype : l.type ≠ .sortedList) (hsize : 0 ≤ l.size) :
    ∃ s, Shows l s ∧ ∃ l' a' s',
      sorterMerge (listMethods cmpList) cmp l .always = some (l', a') ∧
      Shows l' s' ∧ s'.Perm s ∧ Ascends cmp s' ∧ ∀ x, tiesWith cmp x s' = tiesWith cmp x s := by
  rcases h.holds with ⟨s, hs, hmax⟩ | hwrap
  · obtain ⟨l', a', s', hrun, hl', hsort⟩ := sorterMerge_holds cmpList hcmp hs htype hmax
    exact ⟨s, shows_of_holds hs, l', a', s', hrun, shows_of_holds hl', hsort.perm, hsort.ascends,
      hsort.tiesWith_eq⟩
  · rw [hwrap.size_eq] at hsize
    exact absurd hsize (by decide)

/-- An array list with two items. -/
theorem sorterMerge_sorts_two : ∃ l : ListObject ℤ, (l.get 0).1 = some 2 ∧ l.size = 2 ∧
    ∃ s, Shows l s ∧ ∃ l' a' s',
      sorterMerge (listMethods byValue) byValue l .always = some (l', a') ∧
      Shows l' s' ∧ s'.Perm s ∧ Ascends byValue s' ∧
      ∀ x, tiesWith byValue x s' = tiesWith byValue x s := by
  obtain ⟨l, hbuilt, htype, hitem, hsize⟩ := exists_array_two
  refine ⟨l, hitem, hsize, sorterMerge_sorts byValue_isComparator hbuilt ?_ ?_⟩
  · rw [htype]
    decide
  · rw [hsize]
    decide

/-- **Past `INT_MAX` items** a linked list is left as it is, sorted or not. -/
theorem sorterMerge_beyond_intMax : ∃ (l : ListObject ℤ) (s : List (Option ℤ)),
    l.Built byValue ∧ l.type = .linkedList ∧ l.Contents s ∧ s.length = intMax + 1 ∧
      ¬∃ l' a' s', sorterMerge (listMethods byValue) byValue l .always = some (l', a') ∧
        l'.Contents s' ∧ Ascends byValue s' := by
  obtain ⟨l, s, hbuilt, htype, hsize, hs, hlen, hnot⟩ := exists_wrapped_descending
  refine ⟨l, s, hbuilt, htype, hs, hlen, ?_⟩
  rintro ⟨l', a', s', hrun, hs', hsorted⟩
  have hcount : (listMethods byValue).size l = -2147483648 := hsize
  rw [sorterMerge, hcount] at hrun
  obtain rfl := (Prod.mk.inj (Option.some.inj hrun)).1
  rw [hs.unique hs'] at hnot
  exact hnot hsorted

end Sorter

end OvaLib
