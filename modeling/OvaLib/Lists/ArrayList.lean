import Mathlib.Data.Int.Notation
import OvaLib.Types

/-!
# The array list

`array_list.c`. The item array is the list of the slots in use; the slots after them are never read,
so only how many there are is kept. An insertion that finds no free slot doubles the array, and
fails when it cannot.

## The contract

The list stores pointers that belong to the caller. An insertion at an index from 0 to the size
moves the items from there on one place up; other indices are refused. `get` and `remove` take an
index below the size. `clear` keeps the slots. `insert` and `remove` return `OVA_SUCCESS` or a
negative code, and a call that fails leaves the list as it was, but for the slots.

## Capacity

Sizes and capacities are `int`s. Doubling stops at `INT_MAX`, and a capacity that would not change
is taken for a sign that there is no room. That is the case at `INT_MAX` and at 0, so that a list
created without capacity never takes an item. Both bounds on the capacity are fields of the
structure, and every function shows that it keeps them.

An array list also stands behind other containers of the library: the stack, the edge lists of a
graph, the lists that algorithms return. They call these functions, and their lemmas are these.

## Main results

* `ArrayList.insert_always` — with allocations succeeding, an insertion at a valid index succeeds
  below `INT_MAX` items
* `ArrayList.HasRoomFor.appendAll` — items appended one by one are all there
-/

namespace OvaLib

/-- `array_list_impl`: the items in use, and the number of slots. -/
structure ArrayList (α : Type*) where
  /-- The slots in use. -/
  items : List α
  /-- The slots there are. -/
  capacity : ℕ
  size_le : items.length ≤ capacity
  capacity_le : capacity ≤ intMax

theorem le_safeDoubleCapacity {n : ℕ} (h : n ≤ intMax) : n ≤ safeDoubleCapacity n := by
  rw [safeDoubleCapacity]
  split <;> omega

theorem safeDoubleCapacity_le (n : ℕ) : safeDoubleCapacity n ≤ intMax := by
  rw [safeDoubleCapacity]
  split <;> omega

namespace ArrayList

variable {α : Type*}

theorem length_nil_le (α : Type*) (capacity : ℤ) : ([] : List α).length ≤ capacity.toNat :=
  Nat.zero_le _

/-- The capacity of an array that was allocated. -/
theorem toNat_le_intMax (allocated : Bool) (capacity : ℤ)
    (h : allocated ∧ 0 ≤ capacity ∧ capacity ≤ intMax) : capacity.toNat ≤ intMax := by
  omega

/-- `create_array_list`. The list object and its `impl` are both asked for. A negative capacity
asks for more bytes than an object can have, and fails. -/
def create (initialCapacity : ℤ) (a : Allocator) : Option (ArrayList α) × Allocator :=
  let (lst, a) := a.alloc
  let (impl, a) := a.alloc
  if lst && impl then
    let (items, a) := a.alloc
    if h : items ∧ 0 ≤ initialCapacity ∧ initialCapacity ≤ intMax then
      (some ⟨[], initialCapacity.toNat, length_nil_le α initialCapacity,
        toNat_le_intMax items initialCapacity h⟩, a)
    else (none, a)
  else (none, a)

/-- `array_list_size`. -/
def size (l : ArrayList α) : ℕ := l.items.length

/-- The list after `ensure_capacity`: the same items, and a slot free for one more. -/
structure Room (l : ArrayList α) where
  list : ArrayList α
  items_eq : list.items = l.items
  size_lt : list.items.length < list.capacity

/-- `ensure_capacity`. -/
def ensureCapacity (l : ArrayList α) (a : Allocator) : Option l.Room × Allocator :=
  if hfull : l.items.length ≥ l.capacity then
    if hmax : safeDoubleCapacity l.capacity = l.capacity then (none, a)
    else
      let (newItems, a) := a.alloc
      if newItems then
        have hlt : l.items.length < safeDoubleCapacity l.capacity := by
          have hle := le_safeDoubleCapacity l.capacity_le
          have hsize := l.size_le
          omega
        (some ⟨⟨l.items, safeDoubleCapacity l.capacity, Nat.le_of_lt hlt, safeDoubleCapacity_le _⟩,
          rfl, hlt⟩, a)
      else (none, a)
  else (some ⟨l, rfl, by omega⟩, a)

/-- `array_list_insert`. -/
def insert (l : ArrayList α) (item : α) (index : ℤ) (a : Allocator) :
    ErrorCode × ArrayList α × Allocator :=
  if index < 0 ∨ index > l.items.length then (.errorIndexOutOfBounds, l, a)
  else
    match l.ensureCapacity a with
    | (none, a) => (.errorMemory, l, a)
    | (some room, a) =>
      (.success, ⟨l.items.insertIdx index.toNat item, room.list.capacity,
        Nat.le_trans List.length_insertIdx_le_succ (room.items_eq ▸ room.size_lt),
        room.list.capacity_le⟩, a)

/-- `array_list_get`. -/
def get (l : ArrayList α) (index : ℤ) : Option α :=
  if index < 0 ∨ index ≥ l.items.length then none else l.items[index.toNat]?

/-- `array_list_remove`. -/
def remove (l : ArrayList α) (index : ℤ) : ErrorCode × ArrayList α :=
  if index < 0 ∨ index ≥ l.items.length then (.errorIndexOutOfBounds, l)
  else (.success, ⟨l.items.eraseIdx index.toNat, l.capacity,
    Nat.le_trans (List.length_eraseIdx_le _ _) l.size_le, l.capacity_le⟩)

/-- `array_list_clear`. -/
def clear (l : ArrayList α) : ArrayList α := ⟨[], l.capacity, Nat.zero_le _, l.capacity_le⟩

/-- The owner of the items writes through the pointer in a slot. -/
def write (l : ArrayList α) (i : ℕ) (item : α) : ArrayList α :=
  ⟨l.items.set i item, l.capacity, by rw [List.length_set]; exact l.size_le, l.capacity_le⟩

/-- A list that was just created has no items. -/
theorem items_of_create {n : ℤ} {a : Allocator} {l : ArrayList α}
    (h : (create n a).1 = some l) : l.items = [] := by
  rw [ArrayList.create] at h
  dsimp only at h
  split at h
  · split at h
    · obtain rfl := Option.some.inj h
      rfl
    · exact absurd h (by simp)
  · exact absurd h (by simp)

/-- A list that was created took three allocations, and is the one there always is. -/
theorem create_passed {n : ℤ} {a a' : Allocator} {l : ArrayList α}
    (h : create n a = (some l, a')) :
    a.Passed 3 a' ∧ create n .always = (some l, .always) := by
  rw [create] at h ⊢
  dsimp only at h
  split at h
  · next hfirst =>
    obtain ⟨hlst, himpl⟩ := Bool.and_eq_true_iff.mp hfirst
    split at h
    · next hitems =>
      obtain ⟨hl, rfl⟩ := Prod.mk.inj h
      obtain rfl := Option.some.inj hl
      exact ⟨((Allocator.passed_alloc hlst).trans (Allocator.passed_alloc himpl)).trans
        (Allocator.passed_alloc hitems.1), by simp [hitems.2]⟩
    · exact absurd (Prod.mk.inj h).1 (by simp)
  · exact absurd (Prod.mk.inj h).1 (by simp)

theorem capacity_of_create {n : ℤ} {a a' : Allocator} {l : ArrayList α}
    (h : create n a = (some l, a')) : (l.capacity : ℤ) = n := by
  rw [create] at h
  dsimp only at h
  split at h
  · split at h
    · next hitems =>
      obtain ⟨hl, -⟩ := Prod.mk.inj h
      obtain rfl := Option.some.inj hl
      exact Int.toNat_of_nonneg hitems.2.1
    · exact absurd (Prod.mk.inj h).1 (by simp)
  · exact absurd (Prod.mk.inj h).1 (by simp)

/-- An insertion at the end with a slot free does not allocate. -/
theorem insert_of_lt {l : ArrayList α} (hlt : l.items.length < l.capacity) (item : α) :
    ∃ m : ArrayList α, (∀ a, l.insert item l.size a = (.success, m, a)) ∧
      m.items = l.items ++ [item] ∧ m.capacity = l.capacity := by
  refine ⟨⟨l.items.insertIdx l.size item, l.capacity,
    Nat.le_trans List.length_insertIdx_le_succ hlt, l.capacity_le⟩, fun a => ?_,
    List.insertIdx_length_self, rfl⟩
  have hroom : l.ensureCapacity a = (some ⟨l, rfl, hlt⟩, a) := by
    rw [ensureCapacity]
    rw [dif_neg (Nat.not_le.mpr hlt)]
  rw [insert, if_neg (by simp [size]), hroom]
  rfl

/-! ## With allocations succeeding

What a caller relies on who has memory enough and stays below `INT_MAX` items. -/

theorem create_always {n : ℤ} (hn : 0 ≤ n) (hmax : n ≤ intMax) :
    create n Allocator.always =
      (some (⟨[], n.toNat, Nat.zero_le _, by omega⟩ : ArrayList α), Allocator.always) := by
  simp [create, hn, hmax]

theorem ensureCapacity_always {l : ArrayList α} (hpos : 0 < l.capacity)
    (hsize : l.items.length < intMax) :
    ∃ room, l.ensureCapacity Allocator.always = (some room, Allocator.always) := by
  rw [ensureCapacity]
  split
  · next hfull =>
    have hne : safeDoubleCapacity l.capacity ≠ l.capacity := by
      have hle := l.size_le
      rw [safeDoubleCapacity]
      split <;> omega
    rw [dif_neg hne, Allocator.alloc_always]
    exact ⟨_, rfl⟩
  · exact ⟨_, rfl⟩

/-- With allocations succeeding an insertion at a valid index inserts there. -/
theorem insert_always {l : ArrayList α} (hpos : 0 < l.capacity) (hsize : l.items.length < intMax)
    (item : α) {index : ℤ} (hlow : 0 ≤ index) (hhigh : index ≤ l.items.length) :
    ∃ m : ArrayList α, l.insert item index Allocator.always = (.success, m, Allocator.always) ∧
      m.items = l.items.insertIdx index.toNat item ∧ 0 < m.capacity := by
  obtain ⟨room, hroom⟩ := ensureCapacity_always hpos hsize
  rw [insert, if_neg (by omega), hroom]
  exact ⟨_, rfl, rfl, Nat.zero_lt_of_lt room.size_lt⟩

/-- With allocations succeeding an insertion at the end appends. -/
theorem append_always {l : ArrayList α} (hpos : 0 < l.capacity) (hsize : l.items.length < intMax)
    (item : α) :
    ∃ m : ArrayList α, l.insert item l.size Allocator.always = (.success, m, Allocator.always) ∧
      m.items = l.items ++ [item] ∧ 0 < m.capacity := by
  obtain ⟨m, hinsert, hitems, hcap⟩ :=
    insert_always hpos hsize item (Int.natCast_nonneg l.size) (Int.le_refl _)
  refine ⟨m, hinsert, ?_, hcap⟩
  rw [hitems, Int.toNat_natCast]
  exact List.insertIdx_length_self

/-! ## Appending many items

Many loops of the library append and do not look at the result. What they rely on is that there is
room for all of what they append. -/

/-- There are slots for `n` more items, or allocations succeed and the array can grow that far. -/
def HasRoomFor (l : ArrayList α) (n : ℕ) (a : Allocator) : Prop :=
  l.items.length + n ≤ l.capacity ∨
    a = .always ∧ 0 < l.capacity ∧ l.items.length + n ≤ intMax

theorem HasRoomFor.append {l : ArrayList α} {n : ℕ} {a : Allocator} (h : l.HasRoomFor (n + 1) a)
    (item : α) :
    ∃ m : ArrayList α, l.insert item l.size a = (.success, m, a) ∧ m.items = l.items ++ [item] ∧
      m.HasRoomFor n a := by
  rcases h with hslots | ⟨rfl, hpos, hmax⟩
  · obtain ⟨m, hinsert, hitems, hcap⟩ := insert_of_lt (l := l) (by omega) item
    refine ⟨m, hinsert a, hitems, .inl ?_⟩
    rw [hitems, hcap, List.length_append, List.length_singleton]
    omega
  · obtain ⟨m, hinsert, hitems, hcap⟩ := append_always hpos (by omega) item
    refine ⟨m, hinsert, hitems, .inr ⟨rfl, hcap, ?_⟩⟩
    rw [hitems, List.length_append, List.length_singleton]
    omega

/-- **Appending items one by one**, the results of the insertions being ignored. -/
theorem HasRoomFor.appendAll {l : ArrayList α} {items : List α} {a : Allocator}
    (h : l.HasRoomFor items.length a) :
    ∃ m : ArrayList α,
      items.foldl (fun out item => (out.1.insert item out.1.size out.2).2) (l, a) = (m, a) ∧
        m.items = l.items ++ items := by
  induction items generalizing l with
  | nil => exact ⟨l, rfl, (List.append_nil _).symm⟩
  | cons item items ih =>
    obtain ⟨m₁, hinsert, hitems, hroom⟩ := h.append item
    obtain ⟨m₂, hfold, hitems₂⟩ := ih hroom
    refine ⟨m₂, ?_, ?_⟩
    · rw [List.foldl_cons, hinsert, hfold]
    · rw [hitems₂, hitems, List.append_assoc, List.singleton_append]

end ArrayList

end OvaLib
