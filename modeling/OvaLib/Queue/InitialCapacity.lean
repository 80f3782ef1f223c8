import Mathlib.Logic.Relation
import OvaLib.Lists.ListRefinement
import OvaLib.Queue.HeapQueueClone

/-!
# Initial capacities

Array lists, binary heaps and priority queues double their arrays, and take a doubled capacity equal
to the old one for a sign that there is no larger one. That is so at `INT_MAX`, and at 0.

`binary_heap.h` says of the initial capacity that the heap will automatically resize if necessary,
and 0 is accepted by all three constructors when the allocation of no bytes returns a pointer. What
was created so refuses every item with `OVA_ERROR_FULL`. A container with any capacity above zero
grows whenever there is memory.

## How the proof goes

The capacity is zero or positive for the whole life of a container, since growth is by doubling and
nothing else changes it. So `Accepts` is stated about all later states: below `INT_MAX` items, an
insertion in range whose allocation succeeds stores its item. One direction is the invariant of a
positive capacity. For the other, the first insertion is refused.

A priority queue passes its capacity on to its clones, so its later states include those that
cloning leaves.

## Main results

* `ArrayList.insert_of_alloc`, `BinaryHeap.put_of_alloc` — with a capacity, and the memory for a
  growth, an item is stored below `INT_MAX` items
* `creates_accept_iff` — what was created with a capacity accepts items, ever after
-/

namespace OvaLib

open Foundation Relation

variable {α : Type*}

/-- What every step keeps is so in every later state. -/
theorem kept_later {σ : Type*} {r : σ → σ → Prop} {p : σ → Prop} {s s' : σ}
    (hkeeps : ∀ {t t'}, r t t' → p t → p t') (hlater : ReflTransGen r s s') (hs : p s) : p s' := by
  induction hlater with
  | refl => exact hs
  | tail _ hstep ih => exact hkeeps hstep ih

/-! ## The array list -/

namespace ArrayList

/-- With a capacity, and the memory for a growth, an insertion in range inserts there. -/
theorem insert_of_alloc {l : ArrayList α} (hpos : 0 < l.capacity) (hsize : l.items.length < intMax)
    (item : α) {index : ℤ} (hlow : 0 ≤ index) (hhigh : index ≤ l.items.length) {a : Allocator}
    (ha : a.outcome 0 = true) :
    ∃ m a', l.insert item index a = (.success, m, a') ∧
      m.items = l.items.insertIdx index.toNat item := by
  have hroom : ∃ room a', l.ensureCapacity a = (some room, a') := by
    rw [ensureCapacity]
    split
    · next hfull =>
      have hne : safeDoubleCapacity l.capacity ≠ l.capacity := by
        have hle := l.size_le
        rw [safeDoubleCapacity]
        split <;> omega
      rw [dif_neg hne]
      exact ⟨_, _, dif_pos ha⟩
    · exact ⟨_, _, rfl⟩
  obtain ⟨room, a', hroom⟩ := hroom
  rw [insert, if_neg (by omega), hroom]
  exact ⟨_, _, rfl, rfl⟩

/-- Without a capacity, no insertion succeeds. -/
theorem insert_of_zero {l : ArrayList α} (hzero : l.capacity = 0) (item : α) (a : Allocator) :
    (l.insert item 0 a).1 = .errorMemory := by
  have hle := l.size_le
  rw [insert, if_neg (by omega), ensureCapacity, dif_pos (by omega), dif_pos (by rw [hzero]; rfl)]

/-- A call, whatever its allocation does. -/
def Next (l l' : ArrayList (Option α)) : Prop := ∃ a c, l' = (l.step a c).2.1

/-- In every later state below `INT_MAX` items, an insertion in range that finds memory stores its
item there. -/
def Accepts (l : ArrayList (Option α)) : Prop :=
  ∀ l', ReflTransGen Next l l' → l'.items.length < intMax → ∀ item (index : ℤ), 0 ≤ index →
    index ≤ l'.items.length → ∀ a, a.outcome 0 = true → ∃ m a',
      l'.insert item index a = (.success, m, a') ∧
        m.items = l'.items.insertIdx index.toNat item

theorem insert_capacity_pos {l : ArrayList α} (hpos : 0 < l.capacity) (item : α) (index : ℤ)
    (a : Allocator) : 0 < (l.insert item index a).2.1.capacity := by
  rw [insert]
  split
  · exact hpos
  · split
    · exact hpos
    · next room a' _ => exact Nat.zero_lt_of_lt room.size_lt

theorem remove_capacity (l : ArrayList α) (index : ℤ) :
    (l.remove index).2.capacity = l.capacity := by
  rw [remove]
  split <;> rfl

theorem Next.capacity_pos {l l' : ArrayList (Option α)} (h : Next l l') (hpos : 0 < l.capacity) :
    0 < l'.capacity := by
  obtain ⟨a, c, rfl⟩ := h
  cases c with
  | insert item index => exact insert_capacity_pos hpos item index a
  | get index => exact hpos
  | remove index => exact (remove_capacity l index).symm ▸ hpos
  | size => exact hpos
  | clear => exact hpos

/-- **An array list accepts items** exactly when it was created with a capacity. -/
theorem accepts_iff {n : ℤ} {a a' : Allocator} {l : ArrayList (Option α)}
    (hcreate : create n a = (some l, a')) : l.Accepts ↔ 0 < n := by
  have hcap := capacity_of_create hcreate
  constructor
  · intro haccepts
    by_contra hn
    have hnil : l.items.length = 0 := Nat.le_zero.mp (l.size_le.trans (by omega))
    obtain ⟨m, b, hinsert, -⟩ := haccepts l .refl (by rw [hnil]; decide) none 0 (le_refl 0)
      (by omega) .always rfl
    have hfails := insert_of_zero (show l.capacity = 0 by omega) none .always
    rw [hinsert] at hfails
    exact absurd hfails (by simp)
  · intro hn l' hlater hsize item index hlow hhigh b hb
    have hpos := kept_later (fun hnext hpos => Next.capacity_pos hnext hpos) hlater
      (show 0 < l.capacity by omega)
    exact insert_of_alloc hpos hsize item hlow hhigh hb

end ArrayList

/-! ## The binary heap -/

namespace BinaryHeap

variable (cmp : α → α → ℤ)

/-- With a capacity, and the memory for a growth, a put adds its item. -/
theorem put_of_alloc {h : BinaryHeap α} (hpos : 0 < h.capacity) (hsize : h.data.length < intMax)
    (item : α) {a : Allocator} (ha : a.outcome 0 = true) :
    ∃ m a', h.put cmp item a = (.success, m, a') ∧ m.data.Perm (item :: h.data) := by
  rcases h.ensureRoom_spec hpos a with ⟨room, a', hroom⟩ | ⟨a', hroom, hfull⟩ | ⟨a', hroom, hfail⟩
  · rw [put, hroom]
    exact ⟨_, _, rfl, siftUp_append_perm cmp _ _⟩
  · omega
  · rw [ha] at hfail
    exact absurd hfail (by simp)

/-- Without a capacity, no put succeeds. -/
theorem put_of_zero {h : BinaryHeap α} (hzero : h.capacity = 0) (item : α) (a : Allocator) :
    (h.put cmp item a).1 = .errorFull := by
  have hle := h.size_le
  rw [put, ensureRoom, dif_pos (by omega), dif_pos (by rw [hzero]; rfl)]

theorem put_capacity_pos {h : BinaryHeap α} (hpos : 0 < h.capacity) (item : α) (a : Allocator) :
    0 < (h.put cmp item a).2.1.capacity := by
  rw [put]
  split
  · exact hpos
  · next room a' _ => exact Nat.zero_lt_of_lt room.size_lt

theorem pop_capacity (h : BinaryHeap α) : (h.pop cmp).2.capacity = h.capacity := by
  rw [pop]
  split <;> rfl

/-- A call, whatever its allocation does. -/
def Next (h h' : BinaryHeap α) : Prop := ∃ a c, h' = (Queue.HeapCall.run cmp h a c).2.1

/-- In every later state below `INT_MAX` items, a put that finds memory adds its item. -/
def Accepts (h : BinaryHeap α) : Prop :=
  ∀ h', ReflTransGen (Next cmp) h h' → h'.data.length < intMax → ∀ item a, a.outcome 0 = true →
    ∃ m a', h'.put cmp item a = (.success, m, a') ∧ m.data.Perm (item :: h'.data)

variable {cmp}

theorem run_capacity_pos {h : BinaryHeap α} (hpos : 0 < h.capacity) (a : Allocator)
    (c : Queue.HeapCall α) : 0 < (c.run cmp h a).2.1.capacity := by
  cases c with
  | put item => exact put_capacity_pos cmp hpos item a
  | pop => exact (pop_capacity cmp h).symm ▸ hpos
  | peek => exact hpos
  | clear => exact hpos
  | size => exact hpos

theorem Next.capacity_pos {h h' : BinaryHeap α} (hnext : Next cmp h h') (hpos : 0 < h.capacity) :
    0 < h'.capacity := by
  obtain ⟨a, c, rfl⟩ := hnext
  exact run_capacity_pos hpos a c

/-- **A binary heap accepts items** exactly when it was created with a capacity. -/
theorem accepts_iff [Nonempty α] {n : ℤ} {a a' : Allocator} {h : BinaryHeap α}
    (hcreate : create n a = (some h, a')) : h.Accepts cmp ↔ 0 < n := by
  obtain ⟨-, -, hnil, hcap⟩ := create_passed hcreate
  constructor
  · intro haccepts
    by_contra hn
    obtain ⟨item⟩ := ‹Nonempty α›
    obtain ⟨m, b, hput, -⟩ := haccepts h .refl (by simp [hnil, intMax]) item .always rfl
    have hfails := put_of_zero cmp (show h.capacity = 0 by omega) item .always
    rw [hput] at hfails
    exact absurd hfails (by simp)
  · intro hn h' hlater hsize item b hb
    have hpos := kept_later (fun hnext hpos => Next.capacity_pos hnext hpos) hlater
      (show 0 < h.capacity by omega)
    exact put_of_alloc cmp hpos hsize item hb

end BinaryHeap

/-! ## The priority queue -/

namespace Queue

open HeapQueue
open BinaryHeap (pop_capacity put_capacity_pos run_capacity_pos put_of_zero put_of_alloc)

variable (cmp : α → α → ℤ)

/-- A call, or a clone, which takes the heap apart and rebuilds it. -/
inductive Next : HeapQueue α → HeapQueue α → Prop
  | call {q : HeapQueue α} (a : Allocator) (c : QueueCall α) : Next q (c.run cmp q a).2.1
  | cloneShallow {q : HeapQueue α} (a : Allocator) : Next q (q.cloneShallow cmp a).2.1
  | cloneDeep {q : HeapQueue α} (copier : ElementCopier α) (a : Allocator) :
      Next q (q.cloneDeep cmp copier a).2.1

/-- In every later state below `INT_MAX` items, an `enqueue` that finds memory adds its item. -/
def Accepts (q : HeapQueue α) : Prop :=
  ∀ q', ReflTransGen (Next cmp) q q' → q'.pHeap.data.length < intMax → ∀ item a,
    a.outcome 0 = true → ∃ m a', q'.enqueue cmp item a = (.success, m, a') ∧
      m.pHeap.data.Perm (item :: q'.pHeap.data)

variable {cmp}

theorem popAll_capacity_pos (n : ℕ) {h : BinaryHeap α} (hpos : 0 < h.capacity) :
    0 < (popAll cmp n h).2.capacity := by
  induction n generalizing h with
  | zero => exact hpos
  | succ n ih =>
    have hcap := pop_capacity cmp h
    rw [popAll]
    split
    · next h' hpop =>
      rw [hpop] at hcap
      exact hcap ▸ hpos
    · next item h' hpop =>
      rw [hpop] at hcap
      exact ih (hcap ▸ hpos)

theorem putBackShallow_capacity_pos (items : List α) {orig : BinaryHeap α} (copy : HeapQueue α)
    (a : Allocator) (hpos : 0 < orig.capacity) :
    0 < (putBackShallow cmp items orig copy a).1.capacity := by
  induction items generalizing orig copy a with
  | nil => exact hpos
  | cons item items ih => exact ih _ _ (put_capacity_pos cmp hpos item a)

theorem putBackDeep_capacity_pos (copier : ElementCopier α) (items : List α)
    {orig : BinaryHeap α} (copy : HeapQueue α) (a : Allocator) (hpos : 0 < orig.capacity) :
    0 < (putBackDeep cmp copier items orig copy a).2.1.capacity := by
  induction items generalizing orig copy a with
  | nil => exact hpos
  | cons item items ih =>
    have hput := put_capacity_pos cmp hpos item a
    rw [putBackDeep]
    dsimp only
    split
    · exact hput
    · exact ih _ _ hput

theorem Next.capacity_pos {q q' : HeapQueue α} (h : Next cmp q q') (hpos : 0 < q.pHeap.capacity) :
    0 < q'.pHeap.capacity := by
  cases h with
  | call a c =>
    rw [(QueueCall.run_eq q a c).2]
    exact run_capacity_pos hpos a c.onHeap
  | cloneShallow a =>
    rw [HeapQueue.cloneShallow]
    split
    · exact hpos
    · exact putBackShallow_capacity_pos _ _ _ (popAll_capacity_pos _ hpos)
  | cloneDeep copier a =>
    rw [HeapQueue.cloneDeep]
    split
    · exact hpos
    · next copy a' _ =>
      have hpop := @popAll_capacity_pos _ cmp q.pHeap.size _ hpos
      have hback := @putBackDeep_capacity_pos _ cmp copier (popAll cmp q.pHeap.size q.pHeap).1 _
        copy a' hpop
      dsimp only
      split
      · next hloop => rwa [hloop] at hback
      · next hloop => rwa [hloop] at hback

/-- **A priority queue accepts items** exactly when it was created with a capacity. -/
theorem accepts_iff [Nonempty α] {n : ℤ} {a a' : Allocator} {q : HeapQueue α}
    (hcreate : HeapQueue.create n a = (some q, a')) : Accepts cmp q ↔ 0 < n := by
  obtain ⟨hnil, hcap⟩ := create_fields hcreate
  constructor
  · intro haccepts
    by_contra hn
    obtain ⟨item⟩ := ‹Nonempty α›
    obtain ⟨m, b, hput, -⟩ := haccepts q .refl (by simp [hnil, intMax]) item .always rfl
    have hfails := put_of_zero cmp (show q.pHeap.capacity = 0 by omega) item .always
    have hcode := congrArg Prod.fst hput
    rw [HeapQueue.enqueue] at hcode
    exact absurd (hfails.symm.trans hcode) (by simp)
  · intro hn q' hlater hsize item b hb
    have hpos := kept_later (fun hnext hpos => Next.capacity_pos hnext hpos) hlater
      (show 0 < q.pHeap.capacity by omega)
    obtain ⟨m, b', hput, hperm⟩ := put_of_alloc cmp hpos hsize item hb
    refine ⟨{ q' with pHeap := m }, b', ?_, hperm⟩
    rw [HeapQueue.enqueue, hput]

end Queue

/-! ## All three -/

/-- **What was created with a capacity accepts items**, in every later state, and what was created
without one does not. -/
theorem creates_accept_iff (cmp : Option α → Option α → ℤ) (n : ℤ) :
    (∀ (a a' : Allocator) (l : ArrayList (Option α)), ArrayList.create n a = (some l, a') →
      (l.Accepts ↔ 0 < n)) ∧
    (∀ (a a' : Allocator) (h : BinaryHeap (Option α)), BinaryHeap.create n a = (some h, a') →
      (h.Accepts cmp ↔ 0 < n)) ∧
    ∀ (a a' : Allocator) (q : Queue.HeapQueue (Option α)),
      Queue.HeapQueue.create n a = (some q, a') → (Queue.Accepts cmp q ↔ 0 < n) :=
  ⟨fun _ _ _ hcreate => ArrayList.accepts_iff hcreate,
    fun _ _ _ hcreate => BinaryHeap.accepts_iff hcreate,
    fun _ _ _ hcreate => Queue.accepts_iff hcreate⟩

/-- A comparator that takes all items for equal. -/
def allEqual (_ _ : Option ℤ) : ℤ := 0

/-- An array list of capacity 3, and a priority queue of capacity 0. -/
theorem creates_accept_iff_three :
    (∃ l a', ArrayList.create 3 .always = (some l, a') ∧ (l.Accepts (α := ℤ) ↔ (0 : ℤ) < 3)) ∧
      ∃ q a', Queue.HeapQueue.create 0 .always = (some q, a') ∧
        (Queue.Accepts allEqual q ↔ (0 : ℤ) < 0) :=
  ⟨⟨_, _, rfl, (creates_accept_iff allEqual 3).1 .always _ _ rfl⟩,
    _, _, rfl, (creates_accept_iff allEqual 0).2.2 .always _ _ rfl⟩

/-- **Initial capacity 0**: the three objects are there, and do not take an item. -/
theorem creates_reject :
    (∃ l a', ArrayList.create 0 .always = (some l, a') ∧ ¬ l.Accepts (α := ℤ)) ∧
      (∃ h a', BinaryHeap.create 0 .always = (some h, a') ∧ ¬ h.Accepts allEqual) ∧
      ∃ q a', Queue.HeapQueue.create 0 .always = (some q, a') ∧ ¬ Queue.Accepts allEqual q := by
  refine ⟨⟨_, _, rfl, ?_⟩, ⟨_, _, rfl, ?_⟩, _, _, rfl, ?_⟩
  · rw [ArrayList.accepts_iff (n := 0) (a := .always) rfl]
    exact lt_irrefl 0
  · rw [BinaryHeap.accepts_iff (n := 0) (a := .always) rfl]
    exact lt_irrefl 0
  · rw [Queue.accepts_iff (n := 0) (a := .always) rfl]
    exact lt_irrefl 0

end OvaLib
