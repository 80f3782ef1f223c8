import OvaLib.Foundation.Ties
import OvaLib.Types

/-!
# The sorted list

`sorted_list.c`. An insertion ignores the index it is given, and finds its place by binary search:
before the first item that is not below.

The growth doubles an `int` and does not stop at `INT_MAX`. A product that overflows is negative,
and asks for more bytes than an object can have.

## The contract

The items are in the order of the comparator at all times. A new item goes before the items that it
ties with, so among equal items the one inserted last comes first. `get`, `remove` and `clear` are
those of an array list. The comparator is fixed when the list is created.

## Implementation notes

The binary search keeps two bounds, of which the code moves one in each turn. Everything before the
lower bound is below the item, everything from the upper bound on is not; this is the invariant, and
with equal bounds it says where the item goes. The proof needs of the comparator only what makes the
list sorted: that it is total and transitive. The middle is computed in a way that does not
overflow.

An initial capacity of zero or less is replaced, so unlike an array list a sorted list always grows.

## Main results

* `SortedList.findInsertPosition_spec` — the binary search
* `SortedList.insert_items` — an insertion keeps the order, and places an item before its ties
-/

namespace OvaLib

open Foundation

/-- `sorted_list_impl`, but for the comparator, which never changes. -/
structure SortedList (α : Type*) where
  items : List α
  capacity : ℕ
  size_le : items.length ≤ capacity
  capacity_pos : 0 < capacity
  capacity_le : capacity ≤ intMax

namespace SortedList

variable {α : Type*} (cmp : α → α → ℤ)

/-- `clamp_initial_capacity`. -/
def clampInitialCapacity (initialCapacity : ℤ) : ℤ :=
  if initialCapacity > 0 then initialCapacity else 4

theorem length_nil_le_clamp (α : Type*) (initialCapacity : ℤ) :
    ([] : List α).length ≤ (clampInitialCapacity initialCapacity).toNat :=
  Nat.zero_le _

theorem clampInitialCapacity_pos (initialCapacity : ℤ) :
    0 < (clampInitialCapacity initialCapacity).toNat := by
  rw [clampInitialCapacity]
  split <;> omega

theorem clampInitialCapacity_le (allocated : Bool) (initialCapacity : ℤ)
    (h : allocated ∧ initialCapacity ≤ intMax) :
    (clampInitialCapacity initialCapacity).toNat ≤ intMax := by
  have hfour : 4 ≤ intMax := by decide
  rw [clampInitialCapacity]
  split <;> omega

/-- `create_sorted_list`. The list object and its `impl` are both asked for. -/
def create (initialCapacity : ℤ) (a : Allocator) : Option (SortedList α) × Allocator :=
  let (lst, a) := a.alloc
  let (impl, a) := a.alloc
  if lst && impl then
    let (items, a) := a.alloc
    if h : items ∧ initialCapacity ≤ intMax then
      (some ⟨[], (clampInitialCapacity initialCapacity).toNat,
        length_nil_le_clamp α initialCapacity, clampInitialCapacity_pos initialCapacity,
        clampInitialCapacity_le items initialCapacity h⟩, a)
    else (none, a)
  else (none, a)

/-- `sorted_list_size`. -/
def size (l : SortedList α) : ℕ := l.items.length

/-- The slots after `ensure_capacity`: one more than the items, at least. -/
structure Room (l : SortedList α) where
  capacity : ℕ
  size_lt : l.items.length < capacity
  capacity_le : capacity ≤ intMax

/-- The doubled capacity is not smaller when it has not wrapped. -/
theorem double_eq (l : SortedList α) (h : 0 ≤ int32 (l.capacity * 2)) :
    int32 (l.capacity * 2) = l.capacity * 2 := by
  have hle := l.capacity_le
  simp only [int32, Int.bmod_def, intMax] at hle h ⊢
  omega

theorem lt_double (l : SortedList α) (allocated : Bool)
    (h : allocated ∧ 0 ≤ int32 (l.capacity * 2)) :
    l.items.length < (int32 (l.capacity * 2)).toNat := by
  have hdouble := l.double_eq h.2
  have hsize := l.size_le
  have hpos := l.capacity_pos
  omega

theorem double_le (l : SortedList α) : (int32 (l.capacity * 2)).toNat ≤ intMax := by
  have hle := int32_le (l.capacity * 2)
  omega

/-- `ensure_capacity`. -/
def ensureCapacity (l : SortedList α) (a : Allocator) : Option l.Room × Allocator :=
  if hlt : l.items.length < l.capacity then (some ⟨l.capacity, hlt, l.capacity_le⟩, a)
  else
    let newCapacity := int32 (l.capacity * 2)
    let (newItems, a) := a.alloc
    if h : newItems ∧ 0 ≤ newCapacity then
      (some ⟨newCapacity.toNat, lt_double l newItems h, double_le l⟩, a)
    else (none, a)

/-- The loop of `find_insert_position`. -/
def findInsertPosition (items : List α) (item : α) (left right : ℕ) : ℕ :=
  if left < right then
    let mid := left + (right - left) / 2
    match items[mid]? with
    | none => left
    | some x =>
      if cmp item x > 0 then findInsertPosition items item (mid + 1) right
      else findInsertPosition items item left mid
  else left
termination_by right - left

/-- `sorted_list_insert`. -/
def insert (l : SortedList α) (item : α) (a : Allocator) : ErrorCode × SortedList α × Allocator :=
  match l.ensureCapacity a with
  | (none, a) => (.errorMemory, l, a)
  | (some room, a) =>
    let insertPos := findInsertPosition cmp l.items item 0 l.items.length
    (.success, ⟨l.items.insertIdx insertPos item, room.capacity,
      Nat.le_trans List.length_insertIdx_le_succ room.size_lt, Nat.zero_lt_of_lt room.size_lt,
      room.capacity_le⟩, a)

/-- `sorted_list_get`. -/
def get (l : SortedList α) (index : ℤ) : Option α :=
  if index < 0 ∨ index ≥ l.items.length then none else l.items[index.toNat]?

/-- `sorted_list_remove`. -/
def remove (l : SortedList α) (index : ℤ) : ErrorCode × SortedList α :=
  if index < 0 ∨ index ≥ l.items.length then (.errorIndexOutOfBounds, l)
  else (.success, { l with
    items := l.items.eraseIdx index.toNat
    size_le := Nat.le_trans (List.length_eraseIdx_le _ _) l.size_le })

/-- `sorted_list_clear`. -/
def clear (l : SortedList α) : SortedList α := { l with items := [], size_le := Nat.zero_le _ }

/-! ## The binary search -/

variable {cmp}

/-- **The binary search** ends between the items below and the others. -/
theorem findInsertPosition_spec (hcmp : IsComparator cmp) {items : List α}
    (hsorted : Ascends cmp items) (item : α) {left right : ℕ} (hle : left ≤ right)
    (hright : right ≤ items.length)
    (hbelow : ∀ i < left, ∀ x, items[i]? = some x → 0 < cmp item x)
    (habove : ∀ i ≥ right, ∀ x, items[i]? = some x → cmp item x ≤ 0) :
    findInsertPosition cmp items item left right ≤ items.length ∧
      (∀ i < findInsertPosition cmp items item left right, ∀ x, items[i]? = some x →
        0 < cmp item x) ∧
      ∀ i ≥ findInsertPosition cmp items item left right, ∀ x, items[i]? = some x →
        cmp item x ≤ 0 := by
  fun_induction findInsertPosition cmp items item left right with
  | case1 left right hlt mid hnone =>
    have hlen := List.getElem?_eq_none_iff.mp hnone
    omega
  | case2 left right hlt mid x hx hpos ih =>
    refine ih (by omega) hright (fun i hi y hy => ?_) habove
    by_cases him : i = mid
    · subst him
      rwa [Option.some.inj (hy.symm.trans hx)]
    · have hyx := hsorted.le_of_getElem? (by omega) hy hx
      have hlow := hcmp.lt_of_le_of_lt hyx ((hcmp.neg_iff x item).mpr hpos)
      exact (hcmp.neg_iff y item).mp hlow
  | case3 left right hlt mid x hx hneg ih =>
    refine ih (by omega) (by omega) hbelow fun i hi y hy => ?_
    by_cases him : i = mid
    · subst him
      rw [Option.some.inj (hy.symm.trans hx)]
      exact not_lt.mp hneg
    · exact hcmp.le_trans (not_lt.mp hneg) (hsorted.le_of_getElem? (by omega) hx hy)
  | case4 left right hge =>
    have heq : left = right := by omega
    exact ⟨heq ▸ hright, hbelow, heq ▸ habove⟩

/-! ## Insertion -/

/-- **An insertion** that finds room places the item before its ties. -/
theorem insert_items (hcmp : IsComparator cmp) {l : SortedList α} (hsorted : Ascends cmp l.items)
    (item : α) (a : Allocator) {l' : SortedList α} {a' : Allocator}
    (hinsert : l.insert cmp item a = (.success, l', a')) :
    l'.items = insertBefore cmp item l.items := by
  obtain ⟨hpos, hbelow, habove⟩ := findInsertPosition_spec hcmp hsorted item
    (Nat.zero_le l.items.length) (Nat.le_refl _) (fun i hi => absurd hi (Nat.not_lt_zero i))
    fun i hi x hx => absurd (List.getElem?_eq_some_iff.mp hx).1 (not_lt.mpr hi)
  rw [insert] at hinsert
  split at hinsert
  · exact absurd (Prod.mk.inj hinsert).1 (by simp)
  · rw [← (Prod.mk.inj (Prod.mk.inj hinsert).2).1]
    show l.items.insertIdx (findInsertPosition cmp l.items item 0 l.items.length) item = _
    generalize findInsertPosition cmp l.items item 0 l.items.length = p at hpos hbelow habove
    obtain ⟨before, after, hsplit, hlen, hplace⟩ :=
      List.exists_of_modifyTailIdx (List.cons item) hpos
    rw [List.insertIdx, hplace, hsplit, insertBefore_append]
    · intro y hy
      obtain ⟨i, hi, rfl⟩ := List.getElem_of_mem hy
      refine hbelow i (hlen ▸ hi) _ ?_
      rw [hsplit, List.getElem?_append_left hi, List.getElem?_eq_getElem hi]
    · intro y hy
      obtain ⟨i, hi, rfl⟩ := List.getElem_of_mem hy
      refine habove (before.length + i) (by omega) _ ?_
      rw [hsplit, List.getElem?_append_right (Nat.le_add_right _ _), Nat.add_sub_cancel_left,
        List.getElem?_eq_getElem hi]

/-- The binary search ends within the items, whatever the comparator says. -/
theorem findInsertPosition_le (items : List α) (item : α) {left right : ℕ} (hle : left ≤ right)
    (hright : right ≤ items.length) :
    findInsertPosition cmp items item left right ≤ items.length := by
  fun_induction findInsertPosition cmp items item left right with
  | case1 left right hlt mid hnone => omega
  | case2 left right hlt mid x hx hpos ih => exact ih (by omega) hright
  | case3 left right hlt mid x hx hneg ih => exact ih (by omega) (by omega)
  | case4 left right hge => omega

variable (cmp) in
/-- An insertion with a slot free does not allocate, and adds the item. -/
theorem insert_perm {l : SortedList α} (hlt : l.items.length < l.capacity) (item : α)
    (a : Allocator) :
    ∃ l', l.insert cmp item a = (.success, l', a) ∧ l'.capacity = l.capacity ∧
      l'.items.Perm (item :: l.items) := by
  rw [insert, ensureCapacity, dif_pos hlt]
  exact ⟨_, rfl, rfl, List.perm_insertIdx _ _
    (findInsertPosition_le l.items item (Nat.zero_le _) (Nat.le_refl _))⟩

theorem insert_of_lt {l : SortedList α} (hlt : l.items.length < l.capacity) (item : α)
    (a : Allocator) :
    ∃ l', l.insert cmp item a = (.success, l', a) ∧ l'.capacity = l.capacity := by
  obtain ⟨l', hinsert, hcap, -⟩ := insert_perm cmp hlt item a
  exact ⟨l', hinsert, hcap⟩

variable (cmp) in
/-- An insertion that fails changes nothing. -/
theorem insert_cases (l : SortedList α) (item : α) (a : Allocator) :
    (∃ l' a', l.insert cmp item a = (.success, l', a')) ∨
      ∃ a', l.insert cmp item a = (.errorMemory, l, a') := by
  rw [insert]
  split
  · exact .inr ⟨_, rfl⟩
  · exact .inl ⟨_, _, rfl⟩

theorem ascends_remove {l : SortedList α} (hsorted : Ascends cmp l.items) (index : ℤ) :
    Ascends cmp (l.remove index).2.items := by
  rw [remove]
  split
  · exact hsorted
  · exact hsorted.sublist (List.eraseIdx_sublist _ _)

theorem items_of_create {n : ℤ} {a a' : Allocator} {l : SortedList α}
    (h : create n a = (some l, a')) : l.items = [] := by
  rw [create] at h
  dsimp only at h
  split at h
  · split at h
    · obtain rfl := Option.some.inj (Prod.mk.inj h).1
      rfl
    · exact absurd (Prod.mk.inj h).1 (by simp)
  · exact absurd (Prod.mk.inj h).1 (by simp)

theorem create_always {n : ℤ} (hpos : 0 < n) (hmax : n ≤ intMax) :
    ∃ l : SortedList α, create n Allocator.always = (some l, Allocator.always) ∧ l.items = [] ∧
      (l.capacity : ℤ) = n := by
  rw [create]
  refine ⟨_, (if_pos rfl).trans (dif_pos ⟨rfl, hmax⟩), rfl, ?_⟩
  dsimp only
  rw [clampInitialCapacity, if_pos hpos, Int.toNat_of_nonneg hpos.le]

end SortedList

end OvaLib
