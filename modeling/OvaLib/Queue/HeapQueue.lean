import OvaLib.Heap.BinaryHeapRefinement

/-!
# The priority queue

`heap_queue.c`: a queue around a binary heap. Runs of either are runs of a bag. Cloning empties the
heap into an array and puts the items back one by one, each before it is copied.

## The contract

`enqueue` is `put`, `dequeue` is `pop`. The item that comes out is one that none of the others
compares above; which of several it is, is not prescribed. A bag with this rule is what a run of the
queue is compared with: `Allowed` says what each call may return on a bag, and which bag it leaves.
`enqueue` may also report that there is no memory, or that the heap is full, and then nothing has
changed; when it may do so is part of the rule.

## Cloning

`queue.h` describes the clone as a copy and says nothing of the source, which a caller expects to be
as it was. Both clone methods take the heap of the source apart: they pop everything into an array
and then put it back, item by item, and in the deep clone the copier is called in between. When a
copy fails the loop stops. The items that were not put back by then are lost to the source.

So a failed deep clone leaves the source alone in two cases only: it failed before it took the heap
apart, or it failed at the last item, which had been put back already. The theorem gives the exact
condition by running the copier over the items in the order of their pops.

## Main results

* `binaryHeap_refines_bag` — every run of a heap, or of a queue, is a run of a bag
* `cloneDeep_keeps_iff` — when a failed deep clone leaves the source as it was
-/

namespace OvaLib

namespace Queue

open Foundation BinaryHeap

/-! ## The model -/

/-- `queue_impl` of a priority queue, but for the comparator, which never changes. -/
structure HeapQueue (α : Type*) where
  pHeap : BinaryHeap α
  /-- What the queue was created with. A clone is created with the same. -/
  initialCapacity : ℤ

/-- An `element_copier`. It may ask for memory. -/
abbrev ElementCopier (α : Type*) := α → Allocator → Option α × Allocator

variable {α : Type*} (cmp : α → α → ℤ)

namespace HeapQueue

/-- `create_heap_queue`. -/
def create (capacity : ℤ) (a : Allocator) : Option (HeapQueue α) × Allocator :=
  let (out, a) := a.alloc
  if !out then (none, a)
  else
    let (impl, a) := a.alloc
    if !impl then (none, a)
    else
      match BinaryHeap.create capacity a with
      | (none, a) => (none, a)
      | (some pHeap, a) => (some ⟨pHeap, capacity⟩, a)

/-- `priority_enqueue`. -/
def enqueue (q : HeapQueue α) (data : α) (a : Allocator) : ErrorCode × HeapQueue α × Allocator :=
  let (e, pHeap, a) := q.pHeap.put cmp data a
  (e, { q with pHeap := pHeap }, a)

/-- `priority_is_empty`. -/
def isEmpty (q : HeapQueue α) : Bool := q.pHeap.size = 0

/-- `priority_dequeue`. -/
def dequeue (q : HeapQueue α) : Option α × HeapQueue α :=
  if q.isEmpty then (none, q)
  else
    let (item, pHeap) := q.pHeap.pop cmp
    (item, { q with pHeap := pHeap })

/-- `priority_clear`. -/
def clear (q : HeapQueue α) : HeapQueue α := { q with pHeap := q.pHeap.clear }

/-- `priority_size`. -/
def size (q : HeapQueue α) : ℕ := q.pHeap.size

/-- The beginning of both clone methods: the queue for the copy, and the array for the items. -/
def cloneSetup (q : HeapQueue α) (a : Allocator) : Option (HeapQueue α) × Allocator :=
  match create (if (q.pHeap.size : ℤ) > q.initialCapacity then q.pHeap.size else q.initialCapacity)
      a with
  | (none, a) => (none, a)
  | (some copy, a) =>
    if q.pHeap.size > 0 then
      let (elems, a) := a.alloc
      if !elems then (none, a) else (some copy, a)
    else (some copy, a)

/-- The loop that empties a heap into the array of the items. -/
def popAll : ℕ → BinaryHeap α → List α × BinaryHeap α
  | 0, h => ([], h)
  | n + 1, h =>
    match h.pop cmp with
    | (none, h) => ([], h)
    | (some item, h) =>
      let (items, h) := popAll n h
      (item :: items, h)

/-- The loop of `priority_clone_deep` that puts the items back and copies them; the flag says
whether it came to the end. -/
def putBackDeep (copier : ElementCopier α) :
    List α → BinaryHeap α → HeapQueue α → Allocator →
      Bool × BinaryHeap α × HeapQueue α × Allocator
  | [], orig, copy, a => (true, orig, copy, a)
  | item :: items, orig, copy, a =>
    let (_, orig, a) := orig.put cmp item a
    match copier item a with
    | (none, a) => (false, orig, copy, a)
    | (some dup, a) =>
      let (_, copy, a) := copy.enqueue cmp dup a
      putBackDeep copier items orig copy a

/-- `priority_clone_deep`: what it returns, and the source afterwards. -/
def cloneDeep (q : HeapQueue α) (copier : ElementCopier α) (a : Allocator) :
    Option (HeapQueue α) × HeapQueue α × Allocator :=
  match q.cloneSetup a with
  | (none, a) => (none, q, a)
  | (some copy, a) =>
    let (items, orig) := popAll cmp q.pHeap.size q.pHeap
    match putBackDeep cmp copier items orig copy a with
    | (false, orig, _, a) => (none, { q with pHeap := orig }, a)
    | (true, orig, copy, a) => (some copy, { q with pHeap := orig }, a)

end HeapQueue

/-! ## Runs

A heap and a queue around a heap have the same runs, call by call. -/

/-- The calls on a heap. -/
inductive HeapCall (α : Type*)
  | put (item : α)
  | pop
  | peek
  | clear
  | size

/-- The calls on a queue. -/
inductive QueueCall (α : Type*)
  | enqueue (data : α)
  | dequeue
  | clear
  | size

/-- What a call returns. -/
inductive Response (α : Type*)
  | code (e : ErrorCode)
  | item (x : Option α)
  | count (n : ℕ)
  | done

/-- One call on a heap. -/
def HeapCall.run (h : BinaryHeap α) (a : Allocator) :
    HeapCall α → Response α × BinaryHeap α × Allocator
  | .put item =>
    let (e, h, a) := h.put cmp item a
    (.code e, h, a)
  | .pop => (.item (h.pop cmp).1, (h.pop cmp).2, a)
  | .peek => (.item h.peek, h, a)
  | .clear => (.done, h.clear, a)
  | .size => (.count h.size, h, a)

/-- One call on a queue. -/
def QueueCall.run (q : HeapQueue α) (a : Allocator) :
    QueueCall α → Response α × HeapQueue α × Allocator
  | .enqueue data =>
    let (e, q, a) := q.enqueue cmp data a
    (.code e, q, a)
  | .dequeue => (.item (q.dequeue cmp).1, (q.dequeue cmp).2, a)
  | .clear => (.done, q.clear, a)
  | .size => (.count q.size, q, a)

/-- The call on its heap that a call on a queue amounts to. -/
def QueueCall.onHeap : QueueCall α → HeapCall α
  | .enqueue data => .put data
  | .dequeue => .pop
  | .clear => .clear
  | .size => .size

/-- What a call on a heap with the items of `B` may return, and the bag `B'` it leaves, when `a`
tells which of its allocations fail. -/
def HeapCall.Allowed (a : Allocator) (B : Multiset α) :
    HeapCall α → Response α → Multiset α → Prop
  | .put item, r, B' =>
    (r = .code .success ∧ B' = item ::ₘ B) ∨
      (r = .code .errorFull ∧ B' = B ∧ B.card = intMax) ∨
      (r = .code .errorMemory ∧ B' = B ∧ a.outcome 0 = false)
  | .pop, r, B' =>
    (r = .item none ∧ B = 0 ∧ B' = B) ∨
      ∃ top, r = .item (some top) ∧ Greatest cmp B top ∧ B = top ::ₘ B'
  | .peek, r, B' =>
    B' = B ∧ ((r = .item none ∧ B = 0) ∨ ∃ top, r = .item (some top) ∧ Greatest cmp B top)
  | .clear, r, B' => r = .done ∧ B' = 0
  | .size, r, B' => r = .count B.card ∧ B' = B

/-- Draining the heap gives the items of the bag, in non-increasing order. -/
def Drains (h : BinaryHeap α) (B : Multiset α) : Prop :=
  (drain cmp h.size h : Multiset α) = B ∧ (drain cmp h.size h).Pairwise fun x y => cmp y x ≤ 0

/-- The run of an object around a heap is one of the bag `B`: every call returns what it may on the
bag that the calls before it left, and draining the heap instead would give that bag in order. -/
def Refines {σ γ : Type*} (run : σ → Allocator → γ → Response α × σ × Allocator)
    (heap : σ → BinaryHeap α) (onHeap : γ → HeapCall α) (s : σ) (a : Allocator) (B : Multiset α) :
    List γ → Prop
  | [] => Drains cmp (heap s) B
  | c :: calls =>
    Drains cmp (heap s) B ∧ ∃ B', (onHeap c).Allowed cmp a B (run s a c).1 B' ∧
      Refines run heap onHeap (run s a c).2.1 (run s a c).2.2 B' calls

variable {cmp} {h : BinaryHeap α} {B : Multiset α}

theorem drains (hcmp : IsComparator cmp) (hB : Represents cmp h B) : Drains cmp h B :=
  hB.drain hcmp hB.size.ge

/-- One call on a heap. -/
theorem HeapCall.run_allowed (hcmp : IsComparator cmp) (hB : Represents cmp h B)
    (hpos : 0 < h.capacity) (a : Allocator) (c : HeapCall α) :
    ∃ B', c.Allowed cmp a B (c.run cmp h a).1 B' ∧ Represents cmp (c.run cmp h a).2.1 B' ∧
      0 < (c.run cmp h a).2.1.capacity := by
  cases c with
  | put item =>
    rcases hB.put hcmp hpos item a with ⟨h', a', hput, hB', hpos'⟩ | ⟨a', hput, hfull⟩ |
      ⟨a', hput, hfail⟩ <;> rw [HeapCall.run, hput]
    · exact ⟨_, .inl ⟨rfl, rfl⟩, hB', hpos'⟩
    · exact ⟨B, .inr (.inl ⟨rfl, rfl, hfull⟩), hB, hpos⟩
    · exact ⟨B, .inr (.inr ⟨rfl, rfl, hfail⟩), hB, hpos⟩
  | pop =>
    rcases hB.pop hcmp with ⟨hpop, hzero⟩ | ⟨top, h', B', hpop, hitems, hgreatest, hB', hcap⟩ <;>
      rw [HeapCall.run, hpop]
    · exact ⟨B, .inl ⟨rfl, hzero, rfl⟩, hB, hpos⟩
    · exact ⟨B', .inr ⟨top, rfl, hgreatest, hitems⟩, hB', hcap ▸ hpos⟩
  | peek =>
    refine ⟨B, ⟨rfl, ?_⟩, hB, hpos⟩
    rcases hB.peek hcmp with ⟨hpeek, hzero⟩ | ⟨top, hpeek, hgreatest⟩ <;> rw [HeapCall.run, hpeek]
    · exact .inl ⟨rfl, hzero⟩
    · exact .inr ⟨top, rfl, hgreatest⟩
  | clear => exact ⟨0, ⟨rfl, rfl⟩, .clear cmp h, hpos⟩
  | size => exact ⟨B, ⟨congrArg Response.count hB.size, rfl⟩, hB, hpos⟩

/-- Every run, by induction on the calls. -/
theorem refines_of_simulation {σ γ : Type*}
    {run : σ → Allocator → γ → Response α × σ × Allocator} {heap : σ → BinaryHeap α}
    {onHeap : γ → HeapCall α} (hcmp : IsComparator cmp)
    (hsim : ∀ s a c, (run s a c).1 = ((onHeap c).run cmp (heap s) a).1 ∧
      heap (run s a c).2.1 = ((onHeap c).run cmp (heap s) a).2.1) :
    ∀ {calls : List γ} {s : σ} {a : Allocator} {B : Multiset α}, Represents cmp (heap s) B →
      0 < (heap s).capacity → Refines cmp run heap onHeap s a B calls := by
  intro calls
  induction calls with
  | nil => exact fun hB _ => drains hcmp hB
  | cons c calls ih =>
    intro s a B hB hpos
    obtain ⟨B', hallowed, hB', hpos'⟩ := (onHeap c).run_allowed hcmp hB hpos a
    obtain ⟨hresponse, hheap⟩ := hsim s a c
    rw [← hresponse] at hallowed
    rw [← hheap] at hB' hpos'
    exact ⟨drains hcmp hB, B', hallowed, ih hB' hpos'⟩

/-- A call on a queue is a call on its heap. -/
theorem QueueCall.run_eq (q : HeapQueue α) (a : Allocator) (c : QueueCall α) :
    (c.run cmp q a).1 = (c.onHeap.run cmp q.pHeap a).1 ∧
      (c.run cmp q a).2.1.pHeap = (c.onHeap.run cmp q.pHeap a).2.1 := by
  cases c with
  | enqueue data => exact ⟨rfl, rfl⟩
  | dequeue =>
    have hdequeue :
        q.dequeue cmp = ((q.pHeap.pop cmp).1, { q with pHeap := (q.pHeap.pop cmp).2 }) := by
      rw [HeapQueue.dequeue]
      split
      · next hempty =>
        have hnil : q.pHeap.data = [] := List.length_eq_zero_iff.mp (of_decide_eq_true hempty)
        rw [pop_nil cmp hnil]
      · rfl
    rw [QueueCall.run, hdequeue]
    exact ⟨rfl, rfl⟩
  | clear => exact ⟨rfl, rfl⟩
  | size => exact ⟨rfl, rfl⟩

theorem create_represents {capacity : ℤ} (hcap : 1 ≤ capacity) {a a' : Allocator}
    (hcreate : BinaryHeap.create capacity a = (some h, a')) :
    Represents cmp h 0 ∧ 0 < h.capacity := by
  have hfst := congrArg Prod.fst hcreate
  rw [BinaryHeap.create] at hfst
  dsimp only at hfst
  split at hfst
  · exact absurd hfst (by simp)
  · split at hfst
    · split at hfst
      · exact absurd hfst (by simp)
      · obtain rfl := Option.some.inj hfst
        refine ⟨⟨heapOrdered_nil cmp, rfl⟩, ?_⟩
        dsimp only
        omega
    · exact absurd hfst (by simp)

/-- **A binary heap is a bag with a greatest item**, and so is a priority queue: whatever the
comparator and the initial capacity, and whichever allocations fail, every call of a run from a new
object on returns what it may on the bag that the calls before it left. -/
theorem binaryHeap_refines_bag (hcmp : IsComparator cmp) {capacity : ℤ} (hcap : 1 ≤ capacity) :
    (∀ (a a' : Allocator) (h : BinaryHeap α), BinaryHeap.create capacity a = (some h, a') →
      ∀ calls, Refines cmp (HeapCall.run cmp) id id h a' 0 calls) ∧
    ∀ (a a' : Allocator) (q : HeapQueue α), HeapQueue.create capacity a = (some q, a') →
      ∀ calls, Refines cmp (QueueCall.run cmp) HeapQueue.pHeap QueueCall.onHeap q a' 0 calls := by
  constructor
  · intro a a' h hcreate calls
    obtain ⟨hrepr, hpos⟩ := create_represents hcap hcreate
    exact refines_of_simulation hcmp (fun _ _ _ => ⟨rfl, rfl⟩) hrepr hpos
  · intro a a' q hcreate calls
    have hheap : ∃ a₁ a₂, BinaryHeap.create capacity a₁ = (some q.pHeap, a₂) := by
      have hfst := congrArg Prod.fst hcreate
      rw [HeapQueue.create] at hfst
      dsimp only at hfst
      split at hfst
      · exact absurd hfst (by simp)
      · split at hfst
        · exact absurd hfst (by simp)
        · split at hfst
          · exact absurd hfst (by simp)
          · next pHeap a₂ hpHeap =>
            rw [← Option.some.inj hfst]
            exact ⟨_, a₂, hpHeap⟩
    obtain ⟨a₁, a₂, hpHeap⟩ := hheap
    obtain ⟨hrepr, hpos⟩ := create_represents hcap hpHeap
    exact refines_of_simulation hcmp QueueCall.run_eq hrepr hpos

theorem binaryHeap_refines_bag_subtract :
    HeapQueue.create 1 Allocator.always =
      (some (⟨⟨[], 1, Nat.zero_le 1, by decide⟩, 1⟩ : HeapQueue ℤ), Allocator.always) ∧
    Refines (fun x y => x - y) (QueueCall.run fun x y => x - y) HeapQueue.pHeap QueueCall.onHeap
      (⟨⟨[], 1, Nat.zero_le 1, by decide⟩, 1⟩ : HeapQueue ℤ) Allocator.always 0
      [.enqueue 2, .enqueue 3, .enqueue 2, .dequeue, .size, .clear] :=
  ⟨rfl, (binaryHeap_refines_bag subtract_isComparator (le_refl 1)).2 .always .always _ rfl _⟩

/-! ## Cloning

The source is a bag before and after, and the question is whether it is the same bag. -/

open HeapQueue

/-- The copier returns a copy of every item but possibly the last. -/
def CopiesAllButLast (copier : ElementCopier α) : List α → Allocator → Prop
  | [], _ => True
  | [_], _ => True
  | item :: next :: items, a =>
    ∃ dup a', copier item a = (some dup, a') ∧ CopiesAllButLast copier (next :: items) a'

/-- The array of a heap that is emptied holds what draining it gives. -/
theorem popAll_eq (cmp : α → α → ℤ) (n : ℕ) (h : BinaryHeap α) (hn : h.data.length ≤ n) :
    (popAll cmp n h).1 = drain cmp n h ∧ (popAll cmp n h).1.Perm h.data ∧
      (popAll cmp n h).2.data = [] ∧ (popAll cmp n h).2.capacity = h.capacity := by
  induction n generalizing h with
  | zero =>
    have hnil : h.data = [] := List.length_eq_zero_iff.mp (Nat.le_zero.mp hn)
    exact ⟨rfl, hnil ▸ .nil, hnil, rfl⟩
  | succ n ih =>
    rw [popAll, drain]
    by_cases hnil : h.data = []
    · rw [pop_nil cmp hnil]
      exact ⟨rfl, hnil ▸ .nil, hnil, rfl⟩
    · obtain ⟨top, h', hpop, hperm, hcap⟩ := pop_spec cmp hnil
      have hlen := hperm.length_eq
      rw [List.length_cons] at hlen
      obtain ⟨hdrain, hitems, hempty, hcap'⟩ := ih h' (by omega)
      rw [hpop]
      exact ⟨congrArg (top :: ·) hdrain, (hitems.cons top).trans hperm, hempty, hcap'.trans hcap⟩

/-- A put below the capacity asks for no memory. -/
theorem put_of_room (cmp : α → α → ℤ) (h : BinaryHeap α) (hroom : h.data.length < h.capacity)
    (item : α) (a : Allocator) :
    ∃ h' : BinaryHeap α, h.put cmp item a = (.success, h', a) ∧ h'.data.Perm (item :: h.data) ∧
      h'.capacity = h.capacity := by
  rw [BinaryHeap.put, BinaryHeap.ensureRoom]
  rw [dif_neg (Nat.ne_of_lt hroom)]
  exact ⟨_, rfl, siftUp_append_perm cmp _ _, rfl⟩

/-- Where putting back stops before the end, the source has all its items again exactly when only
the last one could not be copied. -/
theorem putBackDeep_keeps_iff (copier : ElementCopier α) : ∀ {items : List α} {orig : BinaryHeap α}
    {copy : HeapQueue α} {a : Allocator} {r : BinaryHeap α × HeapQueue α × Allocator},
      orig.data.length + items.length ≤ orig.capacity →
      copy.pHeap.data.length + items.length ≤ copy.pHeap.capacity →
      putBackDeep cmp copier items orig copy a = (false, r) →
      (r.1.data.Perm (items ++ orig.data) ↔ CopiesAllButLast copier items a) := by
  intro items
  induction items with
  | nil => exact fun _ _ hstop => absurd (congrArg Prod.fst hstop) (by simp [putBackDeep])
  | cons item items ih =>
    intro orig copy a r hroom hroom' hstop
    rw [List.length_cons] at hroom hroom'
    obtain ⟨orig', hput, hperm, hcap⟩ := put_of_room cmp orig (by omega) item a
    have hlen := hperm.length_eq
    rw [List.length_cons] at hlen
    rw [putBackDeep, hput] at hstop
    dsimp only at hstop
    cases hcopy : copier item a with
    | mk dup a' =>
      rw [hcopy] at hstop
      cases dup with
      | none =>
        obtain rfl : (orig', copy, a') = r := (Prod.mk.inj hstop).2
        cases items with
        | nil => exact iff_of_true hperm trivial
        | cons next items =>
          refine iff_of_false (fun hall => ?_) ?_
          · have hall := hall.length_eq
            rw [List.length_append, List.length_cons, List.length_cons] at hall
            dsimp only at hall
            omega
          · rintro ⟨dup, a'', hdup, -⟩
            rw [hcopy] at hdup
            exact absurd (congrArg Prod.fst hdup) (by simp)
      | some dup =>
        obtain ⟨copy', hput', hperm', hcap'⟩ := put_of_room cmp copy.pHeap (by omega) dup a'
        have hlen' := hperm'.length_eq
        rw [List.length_cons] at hlen'
        dsimp only at hstop
        rw [HeapQueue.enqueue, hput'] at hstop
        have hrest := ih (by omega) (by dsimp only; omega) hstop
        have hperm'' : (items ++ orig'.data).Perm (item :: items ++ orig.data) := by
          refine (hperm.append_left items).trans ?_
          exact List.perm_middle
        rw [← hperm''.congr_right, hrest]
        cases items with
        | nil => exact iff_of_true trivial trivial
        | cons next items =>
          refine ⟨fun h => ⟨dup, a', hcopy, h⟩, fun ⟨dup', a'', hdup, h⟩ => ?_⟩
          rw [hcopy] at hdup
          rwa [(Prod.mk.inj hdup).2]

theorem create_fields {capacity : ℤ} {q : HeapQueue α} {a a' : Allocator}
    (hcreate : HeapQueue.create capacity a = (some q, a')) :
    q.pHeap.data = [] ∧ (q.pHeap.capacity : ℤ) = capacity := by
  have hfst := congrArg Prod.fst hcreate
  rw [HeapQueue.create] at hfst
  dsimp only at hfst
  split at hfst
  · exact absurd hfst (by simp)
  · split at hfst
    · exact absurd hfst (by simp)
    · split at hfst
      · exact absurd hfst (by simp)
      · next pHeap a₂ hpHeap =>
        obtain rfl := Option.some.inj hfst
        have hheap := congrArg Prod.fst hpHeap
        rw [BinaryHeap.create] at hheap
        dsimp only at hheap
        split at hheap
        · exact absurd hheap (by simp)
        · split at hheap
          · split at hheap
            · exact absurd hheap (by simp)
            · obtain rfl := Option.some.inj hheap
              exact ⟨rfl, Int.toNat_of_nonneg (by omega)⟩
          · exact absurd hheap (by simp)

/-- The queue for the copy is empty and has room for all items. -/
theorem cloneSetup_fields {q copy : HeapQueue α} {a a' : Allocator}
    (hsetup : q.cloneSetup a = (some copy, a')) :
    copy.pHeap.data = [] ∧ q.pHeap.size ≤ copy.pHeap.capacity := by
  have hfst := congrArg Prod.fst hsetup
  rw [HeapQueue.cloneSetup] at hfst
  split at hfst
  · exact absurd hfst (by simp)
  · next new a₁ hcreate =>
    have hnew : new = copy := by
      dsimp only at hfst
      split at hfst
      · split at hfst
        · exact absurd hfst (by simp)
        · exact Option.some.inj hfst
      · exact Option.some.inj hfst
    obtain ⟨hdata, hcap⟩ := create_fields hcreate
    rw [← hnew]
    refine ⟨hdata, ?_⟩
    split at hcap <;> omega

/-- **When a failed deep clone leaves the source as it was**: exactly when it failed before the heap
was emptied, or the copier had returned a copy of every item but the last one of the heap. -/
theorem cloneDeep_keeps_iff (q : HeapQueue α) (copier : ElementCopier α) (a : Allocator)
    {q' : HeapQueue α} {a' : Allocator} (hnull : q.cloneDeep cmp copier a = (none, q', a')) :
    (q'.size = q.size ∧ q'.pHeap.data.Perm q.pHeap.data) ↔
      (q.cloneSetup a).1 = none ∨
        CopiesAllButLast copier (drain cmp q.size q.pHeap) (q.cloneSetup a).2 := by
  rw [HeapQueue.cloneDeep] at hnull
  cases hsetup : q.cloneSetup a with
  | mk found a₁ =>
    rw [hsetup] at hnull
    cases found with
    | none =>
      obtain rfl : q = q' := (Prod.mk.inj (Prod.mk.inj hnull).2).1
      exact iff_of_true ⟨rfl, .refl _⟩ (.inl rfl)
    | some copy =>
      obtain ⟨hempty, hroom⟩ := cloneSetup_fields hsetup
      obtain ⟨hdrain, hitems, hnil, hcap⟩ := popAll_eq cmp q.pHeap.size q.pHeap (le_refl _)
      have hlen : (popAll cmp q.pHeap.size q.pHeap).1.length = q.pHeap.data.length :=
        hitems.length_eq
      dsimp only at hnull
      cases hloop : putBackDeep cmp copier (popAll cmp q.pHeap.size q.pHeap).1
          (popAll cmp q.pHeap.size q.pHeap).2 copy a₁ with
      | mk ok r =>
        rw [hloop] at hnull
        cases ok with
        | true => exact absurd (Prod.mk.inj hnull).1 (by simp)
        | false =>
          have hq' : q'.pHeap = r.1 := by rw [← (Prod.mk.inj (Prod.mk.inj hnull).2).1]
          have hkeeps := putBackDeep_keeps_iff copier (by
            rw [hnil, hlen, hcap, List.length_nil, Nat.zero_add]
            exact q.pHeap.size_le) (by
            rw [hempty, hlen, List.length_nil, Nat.zero_add]
            exact hroom) hloop
          rw [hnil, List.append_nil, hitems.congr_right, hdrain] at hkeeps
          simp only [reduceCtorEq, false_or]
          rw [HeapQueue.size, HeapQueue.size, hq', ← hkeeps]
          exact and_iff_right_of_imp fun hperm => hperm.length_eq

/-- A copier that fails on one number. -/
def failsOn (x : ℤ) : ElementCopier ℤ := fun y a => (if y = x then none else some y, a)

/-- The queue with the numbers 2 and 1, as two calls build it. -/
def twoItems : HeapQueue ℤ := ⟨⟨[2, 1], 2, le_refl 2, by decide⟩, 2⟩

theorem twoItems_built :
    ∃ q₀ q₁ : HeapQueue ℤ, HeapQueue.create 2 Allocator.always = (some q₀, Allocator.always) ∧
      q₀.enqueue (fun x y => x - y) 2 Allocator.always = (.success, q₁, Allocator.always) ∧
      q₁.enqueue (fun x y => x - y) 1 Allocator.always =
        (.success, twoItems, Allocator.always) := by
  refine ⟨⟨⟨[], 2, by decide, by decide⟩, 2⟩, ⟨⟨[2], 2, by decide, by decide⟩, 2⟩, rfl, ?_, ?_⟩
  · simp [HeapQueue.enqueue, BinaryHeap.put, ensureRoom, siftUp]
  · simp [HeapQueue.enqueue, BinaryHeap.put, ensureRoom, siftUp, twoItems]

theorem cloneDeep_keeps_iff_last :
    ∃ q' a', twoItems.cloneDeep (fun x y => x - y) (failsOn 1) Allocator.always = (none, q', a') ∧
      ((q'.size = twoItems.size ∧ q'.pHeap.data.Perm twoItems.pHeap.data) ↔
        (twoItems.cloneSetup Allocator.always).1 = none ∨
          CopiesAllButLast (failsOn 1) (drain (fun x y => x - y) twoItems.size twoItems.pHeap)
            (twoItems.cloneSetup Allocator.always).2) := by
  have hnull : (twoItems.cloneDeep (fun x y => x - y) (failsOn 1) Allocator.always).1.isNone =
      true := by decide +kernel
  have hnull' := Option.isNone_iff_eq_none.mp hnull
  exact ⟨_, _, Prod.ext hnull' rfl, cloneDeep_keeps_iff _ _ _ (Prod.ext hnull' rfl)⟩

/-- The copier fails on the first item: the second one is gone from the source. -/
theorem cloneDeep_loses :
    (∃ q₀ q₁ : HeapQueue ℤ, HeapQueue.create 2 Allocator.always = (some q₀, Allocator.always) ∧
      q₀.enqueue (fun x y => x - y) 2 Allocator.always = (.success, q₁, Allocator.always) ∧
      q₁.enqueue (fun x y => x - y) 1 Allocator.always = (.success, twoItems, Allocator.always)) ∧
    ∃ q' a', twoItems.cloneDeep (fun x y => x - y) (failsOn 2) Allocator.always = (none, q', a') ∧
      twoItems.size = 2 ∧ q'.size = 1 := by
  refine ⟨twoItems_built, ?_⟩
  have hnull : (twoItems.cloneDeep (fun x y => x - y) (failsOn 2) Allocator.always).1.isNone =
      true := by decide +kernel
  exact ⟨_, _, Prod.ext (Option.isNone_iff_eq_none.mp hnull) rfl, rfl, by decide +kernel⟩

end Queue

end OvaLib
