import Mathlib.Data.Int.Notation
import Mathlib.Data.List.Basic
import Mathlib.Data.List.Perm.Basic
import OvaLib.Lists.ArrayList

/-!
# The binary heap

`binary_heap.c`. The data array is the list of the slots in use. Both sifts carry the item that is
moved and write it once, where it ends up; until then its slot is a hole.

## The contract

`heap.h` says that `put` returns a negative code on failure, that `pop` takes out the top element,
and that `size` is the number of elements. The top element is one that no other compares above, so
this is a maximum heap for its comparator; callers that want the minimum reverse the comparator. The
methods that take a handle are `NULL` in a binary heap.

A put into a full heap doubles the capacity first, up to `INT_MAX`. Where doubling would not change
it, at `INT_MAX` and at 0, the put is refused whatever memory there is.

## Implementation notes

The bounds on the capacity are fields of the structure. So every heap in this development has room
for its items, and no lemma has to assume it; the price is that the functions have to show it, which
`Room` makes easy for the only one that changes the capacity.

`sift_up` recurses on the index, which is halved. `sift_down` moves the hole away from the root, and
its measure is the number of slots below.

## Main results

* `BinaryHeap.siftUp_perm`, `BinaryHeap.siftDown_perm` — sifting moves the items around
* `BinaryHeap.put_always` — with allocations succeeding, an item is added below `INT_MAX` items
* `BinaryHeap.pop_spec` — a pop takes one item out
-/

namespace OvaLib

/-- `binary_heap`, but for the comparator, which never changes. -/
structure BinaryHeap (α : Type*) where
  /-- The slots in use, the root first. -/
  data : List α
  capacity : ℕ
  /-- There is a slot for every item. -/
  size_le : data.length ≤ capacity
  /-- The capacity is an `int`. -/
  capacity_le : capacity ≤ intMax

namespace BinaryHeap

variable {α : Type*} (cmp : α → α → ℤ)

/-- `sift_up`: the item goes into the hole at the index, or further up. -/
def siftUp (data : List α) (index : ℕ) (item : α) : List α :=
  if 0 < index then
    let parentIdx := (index - 1) / 2
    match data[parentIdx]? with
    | none => data.set index item
    | some parent =>
      if cmp parent item ≥ 0 then data.set index item
      else siftUp (data.set index parent) parentIdx item
  else data.set index item
termination_by index

/-- The child that `sift_down` goes on with: the right one if it is there and greater. -/
def greaterChild (data : List α) (child : ℕ) (item : α) : ℕ × α :=
  match data[child + 1]? with
  | none => (child, item)
  | some right => if cmp right item > 0 then (child + 1, right) else (child, item)

theorem le_greaterChild (data : List α) (child : ℕ) (item : α) :
    child ≤ (greaterChild cmp data child item).1 := by
  rw [greaterChild]
  split
  · exact Nat.le_refl _
  · split
    · exact Nat.le_succ _
    · exact Nat.le_refl _

/-- `sift_down`: the item goes into the hole at the index, or further down. -/
def siftDown (data : List α) (index : ℕ) (item : α) : List α :=
  if index < data.length / 2 then
    match data[2 * index + 1]? with
    | none => data.set index item
    | some left =>
      let child := greaterChild cmp data (2 * index + 1) left
      if cmp child.2 item ≤ 0 then data.set index item
      else siftDown (data.set index child.2) child.1 item
  else data.set index item
termination_by data.length - index
decreasing_by
  have hle := le_greaterChild cmp data (2 * index + 1) left
  rw [List.length_set]
  omega

/-- `create_binary_heap`. -/
def create (initialCapacity : ℤ) (a : Allocator) : Option (BinaryHeap α) × Allocator :=
  let (h, a) := a.alloc
  if !h then (none, a)
  else
    let (data, a) := a.alloc
    if hcap : data ∧ 0 ≤ initialCapacity ∧ initialCapacity ≤ intMax then
      let (self, a) := a.alloc
      if !self then (none, a)
      else
        (some ⟨[], initialCapacity.toNat, ArrayList.length_nil_le α initialCapacity,
          ArrayList.toNat_le_intMax data initialCapacity hcap⟩, a)
    else (none, a)

/-- `binary_heap_size`. -/
def size (h : BinaryHeap α) : ℕ := h.data.length

/-- A heap with the same items and a slot free for one more. -/
structure Room (h : BinaryHeap α) where
  capacity : ℕ
  size_lt : h.data.length < capacity
  capacity_le : capacity ≤ intMax

/-- The growth at the beginning of `binary_heap_put`. -/
def ensureRoom (h : BinaryHeap α) (a : Allocator) : (ErrorCode ⊕ h.Room) × Allocator :=
  if hfull : h.data.length = h.capacity then
    if hmax : safeDoubleCapacity h.capacity = h.capacity then (.inl .errorFull, a)
    else
      let (newData, a) := a.alloc
      if newData then
        have hlt : h.data.length < safeDoubleCapacity h.capacity := by
          have hle := le_safeDoubleCapacity h.capacity_le
          omega
        (.inr ⟨safeDoubleCapacity h.capacity, hlt, safeDoubleCapacity_le _⟩, a)
      else (.inl .errorMemory, a)
  else (.inr ⟨h.capacity, Nat.lt_of_le_of_ne h.size_le hfull, h.capacity_le⟩, a)

theorem length_siftUp (data : List α) (index : ℕ) (item : α) :
    (siftUp cmp data index item).length = data.length := by
  fun_induction siftUp cmp data index item <;> simp_all

theorem length_siftDown (data : List α) (index : ℕ) (item : α) :
    (siftDown cmp data index item).length = data.length := by
  fun_induction siftDown cmp data index item <;> simp_all

/-- `binary_heap_put`. -/
def put (h : BinaryHeap α) (item : α) (a : Allocator) : ErrorCode × BinaryHeap α × Allocator :=
  match h.ensureRoom a with
  | (.inl e, a) => (e, h, a)
  | (.inr room, a) =>
    (.success, ⟨siftUp cmp (h.data ++ [item]) h.data.length item, room.capacity, by
      rw [length_siftUp, List.length_append]
      exact room.size_lt, room.capacity_le⟩, a)

/-- `binary_heap_pop`: the top, and the last item sifted down from there. -/
def pop (h : BinaryHeap α) : Option α × BinaryHeap α :=
  match h.data[0]?, h.data.getLast? with
  | some top, some last =>
    (some top, ⟨siftDown cmp (h.data.set 0 last).dropLast 0 last, h.capacity, by
      rw [length_siftDown, List.length_dropLast, List.length_set]
      exact Nat.le_trans (Nat.sub_le _ _) h.size_le, h.capacity_le⟩)
  | _, _ => (none, h)

/-! ## Sifting

A sift is about a list with a hole and an item that goes into it. As bags, the list with the item in
the hole is the same before and after. -/

/-- Moving the hole: what was in the slot `j` goes to the hole at `i`. -/
theorem set_set_perm_set {data : List α} {i j : ℕ} {moved : α} (hi : i < data.length)
    (hij : i ≠ j) (hj : data[j]? = some moved) (item : α) :
    ((data.set i moved).set j item).Perm (data.set i item) := by
  obtain ⟨hjlt, rfl⟩ := List.getElem?_eq_some_iff.mp hj
  have hperm := @List.set_set_perm _ (data.set i item) i j
    (by rwa [List.length_set]) (by rwa [List.length_set])
  simpa [List.set_set, List.getElem_set, hij] using hperm

/-- Sifting up moves the items around. -/
theorem siftUp_perm (data : List α) (index : ℕ) (item : α) (hindex : index < data.length) :
    (siftUp cmp data index item).Perm (data.set index item) := by
  fun_induction siftUp cmp data index item with
  | case1 => exact .refl _
  | case2 => exact .refl _
  | case3 data index hpos parentIdx parent hparent hless ih =>
    have hlt : parentIdx < index := by omega
    refine (ih (by rw [List.length_set]; omega)).trans ?_
    exact set_set_perm_set hindex (by omega) hparent item
  | case4 => exact .refl _

theorem greaterChild_get {data : List α} {child : ℕ} {item : α} (h : data[child]? = some item) :
    data[(greaterChild cmp data child item).1]? = some (greaterChild cmp data child item).2 := by
  rw [greaterChild]
  split
  · exact h
  · next right hright =>
    split
    · exact hright
    · exact h

/-- Sifting down moves the items around. -/
theorem siftDown_perm (data : List α) (index : ℕ) (item : α) (hindex : index < data.length) :
    (siftDown cmp data index item).Perm (data.set index item) := by
  fun_induction siftDown cmp data index item with
  | case1 => exact .refl _
  | case2 => exact .refl _
  | case3 data index hhalf left hleft child hgreater ih =>
    have hget : data[child.1]? = some child.2 := greaterChild_get cmp hleft
    have hle : 2 * index + 1 ≤ child.1 := le_greaterChild cmp data (2 * index + 1) left
    have hlt : child.1 < data.length := (List.getElem?_eq_some_iff.mp hget).1
    refine (ih (by rwa [List.length_set])).trans ?_
    exact set_set_perm_set hindex (by omega) hget item
  | case4 => exact .refl _

/-! ## Put and pop -/

/-- A heap that was created took three allocations, and is the one there always is. -/
theorem create_passed {n : ℤ} {a a' : Allocator} {h : BinaryHeap α}
    (hcreate : create n a = (some h, a')) :
    a.Passed 3 a' ∧ create n .always = (some h, .always) ∧ h.data = [] ∧ (h.capacity : ℤ) = n := by
  rw [create] at hcreate ⊢
  dsimp only at hcreate
  split at hcreate
  · exact absurd (Prod.mk.inj hcreate).1 (by simp)
  · next hfirst =>
    split at hcreate
    · next hdata =>
      split at hcreate
      · exact absurd (Prod.mk.inj hcreate).1 (by simp)
      · next hself =>
        obtain ⟨hh, rfl⟩ := Prod.mk.inj hcreate
        obtain rfl := Option.some.inj hh
        rw [Bool.not_eq_true', Bool.not_eq_false] at hfirst hself
        exact ⟨((Allocator.passed_alloc hfirst).trans (Allocator.passed_alloc hdata.1)).trans
          (Allocator.passed_alloc hself), by simp [hdata.2], rfl, Int.toNat_of_nonneg hdata.2.1⟩
    · exact absurd (Prod.mk.inj hcreate).1 (by simp)

theorem create_always {n : ℤ} (hn : 0 ≤ n) (hmax : n ≤ intMax) :
    ∃ h : BinaryHeap α, create n Allocator.always = (some h, Allocator.always) ∧ h.data = [] ∧
      (0 < n → 0 < h.capacity) := by
  refine ⟨⟨[], n.toNat, Nat.zero_le _, by omega⟩, ?_, rfl, fun hpos => ?_⟩
  · simp [create, hn, hmax]
  · show 0 < n.toNat
    omega

theorem ensureRoom_always {h : BinaryHeap α} (hpos : 0 < h.capacity)
    (hsize : h.data.length < intMax) :
    ∃ room, h.ensureRoom Allocator.always = (.inr room, Allocator.always) := by
  rw [ensureRoom]
  split
  · next hfull =>
    have hne : safeDoubleCapacity h.capacity ≠ h.capacity := by
      rw [safeDoubleCapacity]
      split <;> omega
    rw [dif_neg hne, Allocator.alloc_always]
    exact ⟨_, rfl⟩
  · exact ⟨_, rfl⟩

/-- The item sifted up from a new last slot joins the others. -/
theorem siftUp_append_perm (data : List α) (item : α) :
    (siftUp cmp (data ++ [item]) data.length item).Perm (item :: data) := by
  refine (siftUp_perm cmp _ _ _ (by simp)).trans ?_
  rw [List.set_append_right _ _ (Nat.le_refl _), Nat.sub_self, List.set_cons_zero]
  exact List.perm_append_singleton _ _

/-- With allocations succeeding an item is added, below `INT_MAX` items. -/
theorem put_always {h : BinaryHeap α} (hpos : 0 < h.capacity) (hsize : h.data.length < intMax)
    (item : α) :
    ∃ h' : BinaryHeap α, h.put cmp item Allocator.always = (.success, h', Allocator.always) ∧
      h'.data.Perm (item :: h.data) ∧ 0 < h'.capacity := by
  obtain ⟨room, hroom⟩ := ensureRoom_always hpos hsize
  rw [put, hroom]
  exact ⟨_, rfl, siftUp_append_perm cmp _ _, Nat.zero_lt_of_lt room.size_lt⟩

/-- A put adds the item, or leaves the items as they are. -/
theorem put_cases (h : BinaryHeap α) (item : α) (a : Allocator) :
    (h.put cmp item a).2.1.data.Perm (item :: h.data) ∨ (h.put cmp item a).2.1 = h := by
  rw [put]
  split
  · exact .inr rfl
  · exact .inl (siftUp_append_perm cmp _ _)

/-- An allocator that never fails is not used up, also by a put that is refused. -/
theorem put_always_allocator (h : BinaryHeap α) (item : α) :
    (h.put cmp item Allocator.always).2.2 = Allocator.always := by
  have hroom : (h.ensureRoom Allocator.always).2 = Allocator.always := by
    rw [ensureRoom]
    split
    · split <;> rfl
    · rfl
  rw [put]
  split
  · next heq => rw [← hroom, heq]
  · next heq => rw [← hroom, heq]

/-- A put adds at most one item. -/
theorem length_put_le (h : BinaryHeap α) (item : α) (a : Allocator) :
    (h.put cmp item a).2.1.data.length ≤ h.data.length + 1 := by
  rw [put]
  split
  · exact Nat.le_succ _
  · dsimp only
    rw [length_siftUp, List.length_append]
    exact Nat.le_refl _

/-- Popping an empty heap gives `NULL`. -/
theorem pop_nil {h : BinaryHeap α} (hnil : h.data = []) : h.pop cmp = (none, h) := by
  have htop : h.data[0]? = none := by rw [hnil]; rfl
  rw [pop]
  rw [htop]

/-- A pop takes one item out. -/
theorem pop_spec {h : BinaryHeap α} (hne : h.data ≠ []) :
    ∃ top h', h.pop cmp = (some top, h') ∧ (top :: h'.data).Perm h.data ∧
      h'.capacity = h.capacity := by
  obtain ⟨top, rest, hdata⟩ := List.exists_cons_of_ne_nil hne
  have hlast : h.data.getLast? = some (h.data.getLast hne) := List.getLast?_eq_some_getLast hne
  have htop : h.data[0]? = some top := by rw [hdata]; rfl
  rw [pop]
  rw [htop, hlast]
  refine ⟨top, _, rfl, ?_, rfl⟩
  dsimp only
  rcases List.eq_nil_or_concat' rest with rfl | ⟨init, last, rfl⟩
  · simp only [hdata]
    rw [siftDown]
    simp
  · simp only [hdata, List.set_cons_zero]
    rw [show ((top :: (init ++ [last])).getLast (by simp)) = last by simp,
      show (last :: (init ++ [last])).dropLast = last :: init by
        rw [← List.cons_append, List.dropLast_concat]]
    refine ((siftDown_perm cmp _ _ _ (by simp)).cons top).trans ?_
    rw [List.set_cons_zero]
    exact (List.perm_append_singleton last init).symm.cons top

end BinaryHeap

end OvaLib
