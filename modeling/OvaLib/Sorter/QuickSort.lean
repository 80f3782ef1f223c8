import OvaLib.Lists.ListClone
import OvaLib.Sorter.Sorter

/-!
# Quicksort on a list of any type

`sorter_quick` reaches a list through its methods, so it takes a sorted list as well, which puts
each item it is handed back where its own comparator wants it. Neither that comparator nor the one
of the sorter needs to be an order.

## What holds of what

With any comparator, no index is wrong, the stack is large enough, the loop ends, and the list has
the items it had. If the comparator is a total preorder and the list takes an index, the list is in
the order of the comparator. A sorted list ignores the index. It is in its own order afterwards,
which the sorter has nothing to do with.

The lists are those that the calls of `list.h` build, with allocations succeeding and at most
`INT_MAX` items, and `Shows` is what a caller reads of one. Since the comparator of a sorted list
may be no order, what calls build is described here with the comparator for which all items are
equal: the order of a list then says nothing, and what is left is that it shows a sequence.

## Main results

* `ListObject.Built.holds` — what calls build, whatever the comparator of the list
* `ListObject.insertAll_spec` — writing a buffer back to a list of any type
* `sorterQuick_sorts` — the list after `sorter_quick`
-/

namespace OvaLib

open Foundation

variable {α : Type*}

namespace ListObject

/-! ## Lists without an order -/

/-- The comparator that takes all items for equal. -/
def allEqual : Option α → Option α → ℤ := fun _ _ => 0

theorem allEqual_isComparator : IsComparator (allEqual (α := α)) where
  neg_iff _ _ := Iff.rfl
  le_trans _ _ := le_refl 0

theorem ascends_allEqual (s : List (Option α)) : Ascends allEqual s :=
  List.pairwise_of_forall fun _ _ => le_refl 0

variable {cmp : Option α → Option α → ℤ} {l l' : ListObject α} {s : List (Option α)}

/-- A call of a list that shows a sequence, whatever the comparator. -/
theorem Valid.step_any {a a' : Allocator} {c : ListCall α} {r : ListResult α}
    (h : l.Valid allEqual) (hstep : l.step cmp a c = some (r, l', a')) : l'.Valid allEqual := by
  cases l with
  | array impl => exact valid_step_array hstep
  | linked impl => exact h.step_linked hstep
  | sorted impl =>
    obtain ⟨impl', rfl⟩ : ∃ impl', sorted impl' = l' := by
      cases c <;> exact ⟨_, (Prod.mk.inj (Prod.mk.inj (Option.some.inj hstep)).2).1⟩
    exact valid_sorted (ascends_allEqual _)

/-- **What calls build** shows a sequence, whatever the comparator, or is a linked list that
counted past `INT_MAX`. -/
theorem Built.holds (h : l.Built cmp) : l.Valid allEqual := by
  induction h with
  | @create type initialCapacity a a' l hcreate =>
    exact (Built.create hcreate).valid allEqual_isComparator
  | step _ hstep ih => exact ih.step_any hstep

/-! ## Writing back

For an array list and a linked list an insertion at the size appends. For a sorted list it goes
wherever the walk leads. -/

/-- An empty list takes as many items as were in it. -/
theorem Holds.clear (h : l.Holds cmp s) (hmax : s.length ≤ intMax) :
    l.clear.Holds cmp [] ∧ l.clear.HasRoom s.length ∧ l.clear.type = l.type := by
  cases l with
  | array impl =>
    obtain rfl : impl.items = s := h
    refine ⟨rfl, ?_, rfl⟩
    show 0 + impl.items.length ≤ impl.capacity
    rw [Nat.zero_add]
    exact impl.size_le
  | linked impl =>
    refine ⟨⟨[], LinkedList.describes_clear impl⟩, ?_, rfl⟩
    show impl.clear.size + s.length ≤ intMax
    rw [(LinkedList.describes_clear impl).size_eq, List.length_nil]
    omega
  | sorted impl =>
    obtain ⟨rfl, -⟩ : impl.items = s ∧ Ascends cmp s := h
    refine ⟨⟨rfl, .nil⟩, ?_, rfl⟩
    show 0 + impl.items.length ≤ impl.capacity
    rw [Nat.zero_add]
    exact impl.size_le

variable (cmp) in
/-- An insertion into a list with room adds the item; the two types that take an index put it
there. -/
theorem Holds.insert_any (h : l.Holds allEqual s) {k : ℕ} (hroom : l.HasRoom (k + 1))
    (item : Option α) : ∃ l' s', l.insert cmp item s.length .always = some (.success, l', .always) ∧
      l'.Holds allEqual s' ∧ l'.HasRoom k ∧ l'.type = l.type ∧ s'.Perm (item :: s) ∧
      (l.type ≠ .sortedList → s' = s ++ [item]) := by
  have hsize := h.size_eq
  obtain ⟨l', hinsert, hl', hroom', htype⟩ := h.insert allEqual_isComparator hroom item
  rw [hsize] at hinsert
  cases l with
  | array impl =>
    exact ⟨l', _, hinsert, hl', hroom', htype, List.perm_append_singleton item s, fun _ => rfl⟩
  | linked impl =>
    exact ⟨l', _, hinsert, hl', hroom', htype, List.perm_append_singleton item s, fun _ => rfl⟩
  | sorted impl =>
    obtain ⟨rfl, -⟩ : impl.items = s ∧ Ascends allEqual s := h
    have hle : impl.items.length + (k + 1) ≤ impl.capacity := hroom
    obtain ⟨impl', hinsert', hcap, hperm⟩ :=
      SortedList.insert_perm cmp (show impl.items.length < impl.capacity by omega) item .always
    have hlen := hperm.length_eq
    rw [List.length_cons] at hlen
    refine ⟨sorted impl', impl'.items, ?_, ⟨rfl, ascends_allEqual _⟩, ?_, rfl, hperm,
      fun hne => absurd rfl hne⟩
    · rw [ListObject.insert, hinsert']
    · show impl'.items.length + k ≤ impl'.capacity
      omega

end ListObject

namespace Sorter

open ListObject

/-- The methods that `create_list` installs, for a list with this comparator. -/
def listMethods (cmp : Option α → Option α → ℤ) : ListMethods (ListObject α) α where
  size := ListObject.size
  get := ListObject.get
  insert := ListObject.insert cmp
  clear := ListObject.clear

variable (cmpList : Option α → Option α → ℤ) {l : ListObject α} {s : List (Option α)}

theorem list_reads (type : ListType) : ReadsSequence (listMethods cmpList)
    fun l s => l.Holds ListObject.allEqual s ∧ l.type = type where
  size_eq := fun h => h.1.size_eq
  get_eq := by
    rintro l s i ⟨h, rfl⟩ hi
    obtain ⟨hitem, hget, htype⟩ := h.get hi
    exact ⟨hitem, hget, htype⟩

/-- **Writing a buffer back** to a list of any type. -/
theorem insertAll_spec : ∀ (arr : List (Option α)) {l : ListObject α} {s : List (Option α)},
    l.Holds ListObject.allEqual s → l.HasRoom arr.length →
    ∃ l' s', insertAll (listMethods cmpList) arr s.length l .always = some (l', .always) ∧
      l'.Holds ListObject.allEqual s' ∧ s'.Perm (arr ++ s) ∧ (l.type ≠ .sortedList → s' = s ++ arr)
  | [], l, s, h, _ => ⟨l, s, rfl, h, .refl _, fun _ => (List.append_nil s).symm⟩
  | x :: arr, l, s, h, hroom => by
    obtain ⟨l₁, s₁, hinsert, h₁, hroom₁, htype, hperm, happend⟩ :=
      h.insert_any cmpList hroom x
    have hlen := hperm.length_eq
    rw [List.length_cons] at hlen
    obtain ⟨l', s', hrest, h', hperm', happend'⟩ := insertAll_spec arr h₁ hroom₁
    refine ⟨l', s', ?_, h', ?_, fun hne => ?_⟩
    · rw [insertAll, show (listMethods cmpList).insert l x s.length .always = _ from hinsert,
        Option.bind_some, ← hlen]
      exact hrest
    · exact hperm'.trans ((hperm.append_left arr).trans List.perm_middle)
    · rw [happend' (htype ▸ hne), happend hne, List.append_assoc, List.singleton_append]

/-- What a caller reads: `size` counts the items, and `get` returns each of them. A linked list that
counted past `INT_MAX` shows nothing: its `size` is negative. -/
def Shows (l : ListObject α) (s : List (Option α)) : Prop :=
  l.size = s.length ∧ ∀ i < s.length, (l.get i).1 = s[i]?.join

theorem shows_of_holds (h : l.Holds ListObject.allEqual s) : Shows l s :=
  ⟨h.size_eq, fun _ hi => (h.get hi).1⟩

/-- The list after `sorter_quick`. -/
theorem sorterQuick_holds (cmp : Option α → Option α → ℤ) (h : l.Holds ListObject.allEqual s)
    (hmax : s.length ≤ intMax) :
    ∃ l' a' s', sorterQuick (listMethods cmpList) cmp l .always = some (l', a') ∧
      l'.Holds ListObject.allEqual s' ∧ s'.Perm s ∧
      (IsTotalComparator cmp → l.type ≠ .sortedList → Ascends cmp s') := by
  have hM := list_reads cmpList l.type
  by_cases hlen : s.length < 2
  · obtain ⟨l', a', hrun, hl', -⟩ :=
      (SorterCall.quick cmp).run_early hM ⟨h, rfl⟩ (a := .always) (.inl hlen)
    refine ⟨l', a', s, hrun, hl', .refl _, fun _ _ => List.pairwise_iff_getElem.mpr ?_⟩
    intro i j hi hj hij
    omega
  · obtain ⟨l₁, arr, ⟨h₁, htype⟩, hperm, hsort, hrun⟩ :=
      sorterQuick_spec hM cmp ⟨h, rfl⟩ (not_lt.mp hlen) (a := .always) fun _ _ => rfl
    obtain ⟨hclear, hroom, htype'⟩ := h₁.clear hmax
    rw [← hperm.length_eq] at hroom
    obtain ⟨l', s', hwrite, hl', hperm', happend⟩ :=
      insertAll_spec cmpList arr hclear hroom
    rw [List.append_nil] at hperm'
    refine ⟨l', .always, s', hrun.trans hwrite, hl', hperm'.trans hperm, fun hcmp hne => ?_⟩
    rw [happend (by rwa [htype', htype])]
    exact hsort hcmp

variable {cmpList} in
/-- **Quicksort**, on every list of at most `INT_MAX` items that calls build, with any comparators
and allocations succeeding. The call returns, so every index of the buffer was within it and the
stack stayed within `2 * size` entries; the list is a permutation of what it was, and in order if it
is not a sorted list and the comparator of the sorter is a total preorder. -/
theorem sorterQuick_sorts (cmp : Option α → Option α → ℤ) (h : l.Built cmpList)
    (hsize : 0 ≤ l.size) :
    ∃ s, Shows l s ∧ ∃ l' a' s',
      sorterQuick (listMethods cmpList) cmp l .always = some (l', a') ∧
      Shows l' s' ∧ s'.Perm s ∧
      (IsTotalComparator cmp → l.type ≠ .sortedList → Ascends cmp s') := by
  rcases h.holds with ⟨s, hs, hmax⟩ | hwrap
  · obtain ⟨l', a', s', hrun, hl', hperm, hsort⟩ :=
      sorterQuick_holds cmpList cmp hs hmax
    exact ⟨s, shows_of_holds hs, l', a', s', hrun, shows_of_holds hl', hperm, hsort⟩
  · rw [hwrap.size_eq] at hsize
    exact absurd hsize (by decide)

/-- Integers in their order; `NULL` counts as zero. -/
def byValue (x y : Option ℤ) : ℤ := x.getD 0 - y.getD 0

theorem byValue_isComparator : IsComparator byValue :=
  isComparator_of_key (fun x => x.getD 0) (fun _ _ => sub_neg) fun _ _ => sub_pos

/-- Two insertions into a new array list. -/
theorem exists_array_two : ∃ l : ListObject ℤ, l.Built byValue ∧ l.type = .arrayList ∧
    (l.get 0).1 = some 2 ∧ l.size = 2 := by
  obtain ⟨l₀, hcreate, hrun⟩ := Option.bind_eq_some_iff.mp
    (show ((createList .arrayList 4 .always).1.bind fun l =>
      (l.step byValue .always (.insert (some 1) 0)).bind fun r =>
        (r.2.1.step byValue .always (.insert (some 2) 0)).map fun r =>
          ((r.2.1.get 0).1, r.2.1.size, r.2.1.type)) = some (some 2, 2, .arrayList) by
      decide +kernel)
  obtain ⟨⟨r₁, l₁, a₁⟩, hstep₁, hrun⟩ := Option.bind_eq_some_iff.mp hrun
  obtain ⟨⟨r₂, l₂, a₂⟩, hstep₂, hitems⟩ := Option.map_eq_some_iff.mp hrun
  obtain ⟨hitem, hpair⟩ := Prod.mk.inj hitems
  obtain ⟨hsize, htype⟩ := Prod.mk.inj hpair
  exact ⟨l₂, .step (.step (.create (Prod.ext hcreate rfl)) hstep₁) hstep₂, htype, hitem, hsize⟩

/-- An array list with two items. -/
theorem sorterQuick_sorts_two : ∃ l : ListObject ℤ, (l.get 0).1 = some 2 ∧ l.size = 2 ∧
    ∃ s, Shows l s ∧ ∃ l' a' s',
      sorterQuick (listMethods byValue) byValue l .always = some (l', a') ∧
      Shows l' s' ∧ s'.Perm s ∧ Ascends byValue s' := by
  obtain ⟨l, hbuilt, htype, hitem, hsize⟩ := exists_array_two
  obtain ⟨s, hs, l', a', s', hsort, hs', hperm, hascends⟩ :=
    sorterQuick_sorts byValue hbuilt (by rw [hsize]; decide)
  refine ⟨l, hitem, hsize, s, hs, l', a', s', hsort, hs', hperm,
    hascends byValue_isComparator.isTotalComparator ?_⟩
  rw [htype]
  decide

/-! ## Past `INT_MAX` -/

/-- As many insertions as there is room for. -/
theorem exists_built_of_hasRoom : ∀ (n : ℕ) {l : ListObject α} {s : List (Option α)},
    l.Built cmpList → l.Holds ListObject.allEqual s → l.HasRoom n →
    ∃ (l' : ListObject α) (s' : List (Option α)), l'.Built cmpList ∧ l'.type = l.type ∧
      l'.Holds ListObject.allEqual s' ∧ s'.length = s.length + n
  | 0, l, s, hbuilt, h, _ => ⟨l, s, hbuilt, rfl, h, rfl⟩
  | n + 1, l, s, hbuilt, h, hroom => by
    obtain ⟨l₁, s₁, hinsert, h₁, hroom₁, htype₁, hperm, -⟩ := h.insert_any cmpList hroom none
    have hstep : l.step cmpList .always (.insert none s.length) =
        some (.code .success, l₁, .always) := by
      rw [ListObject.step, hinsert]
      rfl
    have hbuilt₁ : l₁.Built cmpList := .step hbuilt hstep
    obtain ⟨l', s', hbuilt', htype, h', hlen⟩ := exists_built_of_hasRoom n hbuilt₁ h₁ hroom₁
    refine ⟨l', s', hbuilt', htype.trans htype₁, h', ?_⟩
    rw [hlen, hperm.length_eq, List.length_cons]
    omega

/-- A linked list of `INT_MAX + 1` items, the first of which is greater than the second. -/
theorem exists_wrapped_descending : ∃ (l : ListObject ℤ) (s : List (Option ℤ)),
    l.Built byValue ∧ l.type = .linkedList ∧ l.size = -2147483648 ∧ l.Contents s ∧
      s.length = intMax + 1 ∧ ¬Ascends byValue s := by
  obtain ⟨l₀, hcreate, hempty, hroom, htype₀⟩ :=
    createList_always (α := ℤ) ListObject.allEqual .linkedList (Nat.le_refl intMax)
  obtain ⟨l, s, hbuilt, htype, hholds, hlen⟩ :=
    exists_built_of_hasRoom byValue intMax (.create hcreate) hempty hroom
  rw [List.length_nil, Nat.zero_add] at hlen
  have hlinked : l.type = .linkedList := htype.trans htype₀
  obtain ⟨impl, rfl⟩ : ∃ impl, l = linked impl := by
    cases l with
    | linked impl => exact ⟨impl, rfl⟩
    | array impl => cases hlinked
    | sorted impl => cases hlinked
  obtain ⟨nodes, hdesc⟩ := hholds
  cases s with
  | nil => exact absurd hlen (by decide)
  | cons x s =>
    -- one more item, greater than the first, at the front
    obtain ⟨nodes', impl', hinsert, hcount, hchains⟩ :=
      hdesc.insert_chains (some (x.getD 0 + 1)) (Int.le_refl 0) (Int.natCast_nonneg _)
        (a := .always) rfl
    have hstep : (linked impl).step byValue .always (.insert (some (x.getD 0 + 1)) 0) =
        some (.code .success, linked impl', .always) := by
      rw [ListObject.step, ListObject.insert, hinsert]
      rfl
    refine ⟨linked impl', _, .step hbuilt hstep, rfl, ?_, contents_of_chains hchains, ?_, ?_⟩
    · rw [hlen] at hcount
      exact hcount
    · show (x :: s).length + 1 = _
      rw [hlen]
    · intro hsorted
      have hle := List.rel_of_pairwise_cons hsorted List.mem_cons_self
      have hdiff : byValue (some (x.getD 0 + 1)) x = 1 := by
        rw [byValue, Option.getD_some]
        omega
      rw [hdiff] at hle
      exact absurd hle (by decide)

/-- **Past `INT_MAX` items** a linked list is not sorted: its `size` is negative, so the sorter has
nothing to do. -/
theorem sorterQuick_beyond_intMax : ∃ (l : ListObject ℤ) (s : List (Option ℤ)),
    l.Built byValue ∧ l.type = .linkedList ∧ l.Contents s ∧ s.length = intMax + 1 ∧
      ¬∃ l' a' s', sorterQuick (listMethods byValue) byValue l .always = some (l', a') ∧
        l'.Contents s' ∧ Ascends byValue s' := by
  obtain ⟨l, s, hbuilt, htype, hsize, hs, hlen, hnot⟩ := exists_wrapped_descending
  refine ⟨l, s, hbuilt, htype, hs, hlen, ?_⟩
  rintro ⟨l', a', s', hrun, hs', hsorted⟩
  have hcount : (listMethods byValue).size l = -2147483648 := hsize
  rw [sorterQuick, listSnapshot, hcount] at hrun
  obtain rfl := (Prod.mk.inj (Option.some.inj hrun)).1
  rw [hs.unique hs'] at hnot
  exact hnot hsorted

end Sorter

end OvaLib
