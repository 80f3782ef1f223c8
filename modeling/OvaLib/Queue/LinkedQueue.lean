import OvaLib.Types

/-!
# The linked queue

`linked_queue.c`. The chain from `front` to `rear` is the list of its payloads. Entries that were
dequeued are kept for reuse, at most `LINKED_QUEUE_FREELIST_MAX` of them; only their number decides
whether an enqueue has to allocate.

## Two models of one queue

The algorithms on graphs use a queue as a list of vertices, and all they want to know of it is what
it holds and whether an enqueue can fail. This is that model. The nodes, their links and the free
list as a chain are in a second model, which is shown to stand for this one call by call; so what is
proved of the second carries over, and the algorithms need not carry nodes about.

The count of the queue is left out here: no algorithm asks for it.

## Main results

* `LinkedQueue.enqueue_always` — with allocations succeeding an enqueue appends
-/

namespace OvaLib

/-- `LINKED_QUEUE_FREELIST_MAX`. -/
def linkedQueueFreelistMax : ℕ := 4096

/-- `queue_impl` of a queue of the type `QUEUE_TYPE_NORMAL`. -/
structure LinkedQueue (α : Type*) where
  /-- The payloads from the front to the rear. -/
  items : List α
  /-- How many entries are kept for reuse. -/
  freelistSize : ℕ

namespace LinkedQueue

variable {α : Type*}

/-- `create_linked_queue`. -/
def create (a : Allocator) : Option (LinkedQueue α) × Allocator :=
  let (out, a) := a.alloc
  if !out then (none, a)
  else
    let (impl, a) := a.alloc
    if !impl then (none, a) else (some ⟨[], 0⟩, a)

/-- `linked_enqueue`, with `acquire_node`. -/
def enqueue (q : LinkedQueue α) (data : α) (a : Allocator) :
    ErrorCode × LinkedQueue α × Allocator :=
  if 0 < q.freelistSize then (.success, ⟨q.items ++ [data], q.freelistSize - 1⟩, a)
  else
    let (node, a) := a.alloc
    if !node then (.errorMemory, q, a) else (.success, ⟨q.items ++ [data], q.freelistSize⟩, a)

/-- `linked_dequeue`, with `release_node`. -/
def dequeue (q : LinkedQueue α) : Option α × LinkedQueue α :=
  match q.items with
  | [] => (none, q)
  | data :: items =>
    (some data,
      ⟨items, if q.freelistSize < linkedQueueFreelistMax then q.freelistSize + 1
        else q.freelistSize⟩)

/-- `linked_is_empty`. -/
def isEmpty (q : LinkedQueue α) : Bool := q.items.isEmpty

/-- A queue that was created took two allocations, and is empty. -/
theorem create_passed {a a' : Allocator} {q : LinkedQueue α} (h : create a = (some q, a')) :
    a.Passed 2 a' ∧ q = ⟨[], 0⟩ := by
  rw [create] at h
  dsimp only at h
  split at h
  · exact absurd (Prod.mk.inj h).1 (by simp)
  · next hout =>
    split at h
    · exact absurd (Prod.mk.inj h).1 (by simp)
    · next himpl =>
      obtain ⟨hq, rfl⟩ := Prod.mk.inj h
      rw [Bool.not_eq_true', Bool.not_eq_false] at hout himpl
      exact ⟨(Allocator.passed_alloc hout).trans (Allocator.passed_alloc himpl),
        (Option.some.inj hq).symm⟩

/-- With allocations succeeding a new queue is empty. -/
theorem create_always : create (α := α) .always = (some ⟨[], 0⟩, .always) := rfl

/-- With allocations succeeding an enqueue appends. -/
theorem enqueue_always (q : LinkedQueue α) (data : α) :
    ∃ q', q.enqueue data .always = (.success, q', .always) ∧ q'.items = q.items ++ [data] := by
  rw [enqueue]
  split
  · exact ⟨_, rfl, rfl⟩
  · rw [Allocator.alloc_always]
    exact ⟨_, rfl, rfl⟩

/-- An enqueue appends, or it fails and changes nothing. -/
theorem enqueue_cases (q : LinkedQueue α) (data : α) (a : Allocator) :
    ((q.enqueue data a).1 = .success ∧ (q.enqueue data a).2.1.items = q.items ++ [data]) ∨
      ((q.enqueue data a).1 = .errorMemory ∧ (q.enqueue data a).2.1 = q) := by
  rw [enqueue]
  split
  · exact .inl ⟨rfl, rfl⟩
  · cases hout : a.alloc.1 with
    | true => exact .inl (by simp [hout])
    | false => exact .inr (by simp [hout])

theorem dequeue_nil {q : LinkedQueue α} (h : q.items = []) : q.dequeue = (none, q) := by
  rw [dequeue]
  rw [h]

/-- A dequeue takes the first payload off. -/
theorem dequeue_cons {q : LinkedQueue α} {data : α} {items : List α} (h : q.items = data :: items) :
    ∃ q', q.dequeue = (some data, q') ∧ q'.items = items := by
  rw [dequeue]
  rw [h]
  exact ⟨_, rfl, rfl⟩

end LinkedQueue

end OvaLib
