import OvaLib.Foundation.Segment
import OvaLib.Queue.LinkedQueue

/-!
# The nodes of the linked queue

`linked_queue.c` with its nodes. Nodes live at addresses, and each field of `queue_entry` is a
function of the address. Addresses are handed out in ascending order and never again, so `free`
needs no counterpart. A node that was dequeued goes to the front of the free list, through the same
field that linked it to the next node of the queue.

## The invariant

Two chains through one field: the queue from `front`, the free list from `freelist`. No node is on
both or twice on one, which is what allows the field to serve both. `rear` is the last node of the
queue; it is read by `enqueue` only, and when the queue is empty it has to be `NULL`, or the next
enqueue would link to a node that was given away.

The free list has at most 4096 nodes. Its length is kept in `freelistSize`, which decides whether a
node is kept or freed, so it has to be right; unlike the length of the queue it cannot wrap.

## The count

`length` is an `int` and wraps at `INT_MAX`. It is what `size` returns, and nothing else looks at
it: `is_empty` looks at `front`. So a queue with more items than an `int` counts is still first in,
first out, and only its size is wrong.

## Main results

* `Describes.enqueue`, `Describes.dequeue` — the operations are those of `LinkedQueue`
* `linkedQueue_fifo` — every run
-/

namespace OvaLib

open Foundation

/-- `queue_impl` of a queue of the type `QUEUE_TYPE_NORMAL`, with the nodes it owns; `fresh` is the
next address. -/
structure LinkedQueueImpl (α : Type*) where
  next : ℕ → Option ℕ
  data : ℕ → Option α
  front : Option ℕ
  rear : Option ℕ
  length : ℤ
  freelist : Option ℕ
  freelistSize : ℤ
  fresh : ℕ

/-- A call of a queue. -/
inductive QueueCall (α : Type*)
  | enqueue (data : Option α)
  | dequeue
  | clear

/-- What it returns. -/
inductive QueueResult (α : Type*)
  | code (e : ErrorCode)
  | item (data : Option α)
  | cleared

namespace LinkedQueueImpl

variable {α : Type*}

/-! ## The model -/

/-- `create_linked_queue`. -/
def create (a : Allocator) : Option (LinkedQueueImpl α) × Allocator :=
  let (out, a) := a.alloc
  if !out then (none, a)
  else
    let (impl, a) := a.alloc
    if !impl then (none, a)
    else (some ⟨fun _ => none, fun _ => none, none, none, 0, none, 0, 0⟩, a)

/-- Where `acquire_node` gets a node: from the free list, or from `malloc`. -/
def takeNode (q : LinkedQueueImpl α) (a : Allocator) :
    Option ℕ × LinkedQueueImpl α × Allocator :=
  match q.freelist with
  | some node =>
    (some node, { q with freelist := q.next node, freelistSize := int32 (q.freelistSize - 1) }, a)
  | none =>
    let (node, a) := a.alloc
    if !node then (none, q, a) else (some q.fresh, { q with fresh := q.fresh + 1 }, a)

/-- `acquire_node`. -/
def acquireNode (q : LinkedQueueImpl α) (data : Option α) (a : Allocator) :
    Option ℕ × LinkedQueueImpl α × Allocator :=
  match q.takeNode a with
  | (none, q, a) => (none, q, a)
  | (some node, q, a) =>
    (some node, { q with
      data := Function.update q.data node data
      next := Function.update q.next node none }, a)

/-- `release_node`. -/
def releaseNode (q : LinkedQueueImpl α) (node : ℕ) : LinkedQueueImpl α :=
  if q.freelistSize < linkedQueueFreelistMax then
    { q with
      next := Function.update q.next node q.freelist
      freelist := some node
      freelistSize := int32 (q.freelistSize + 1) }
  else q

/-- A new node behind the last one. -/
def linkRear (q : LinkedQueueImpl α) (newNode : ℕ) : LinkedQueueImpl α :=
  match q.rear with
  | none => q
  | some rear => { q with next := Function.update q.next rear (some newNode) }

/-- What `linked_enqueue` does with the new node. -/
def appendNode (q : LinkedQueueImpl α) (newNode : ℕ) : LinkedQueueImpl α :=
  let q := q.linkRear newNode
  let q := { q with rear := some newNode }
  let q := if q.front.isNone then { q with front := some newNode } else q
  { q with length := int32 (q.length + 1) }

/-- `linked_enqueue`. -/
def enqueue (q : LinkedQueueImpl α) (data : Option α) (a : Allocator) :
    ErrorCode × LinkedQueueImpl α × Allocator :=
  match q.acquireNode data a with
  | (none, q, a) => (.errorMemory, q, a)
  | (some newNode, q, a) => (.success, q.appendNode newNode, a)

/-- `linked_dequeue`. -/
def dequeue (q : LinkedQueueImpl α) : Option α × LinkedQueueImpl α :=
  match q.front with
  | none => (none, q)
  | some temp =>
    let data := q.data temp
    let q := { q with front := q.next temp }
    let q := if q.front.isNone then { q with rear := none } else q
    let q := q.releaseNode temp
    (data, { q with length := int32 (q.length - 1) })

/-- `linked_is_empty`. -/
def isEmpty (q : LinkedQueueImpl α) : Bool := q.front.isNone

/-- `linked_size`. -/
def size (q : LinkedQueueImpl α) : ℤ := q.length

/-- `linked_clear`. -/
def clear : ℕ → LinkedQueueImpl α → Option (LinkedQueueImpl α)
  | 0, _ => none
  | fuel + 1, q => if q.isEmpty then some q else clear fuel q.dequeue.2

/-- A call. -/
def step (fuel : ℕ) (q : LinkedQueueImpl α) (a : Allocator) :
    QueueCall α → Option (QueueResult α × LinkedQueueImpl α × Allocator)
  | .enqueue data => let (e, q, a) := q.enqueue data a; some (.code e, q, a)
  | .dequeue => let (data, q) := q.dequeue; some (.item data, q, a)
  | .clear => (q.clear fuel).map fun q => (.cleared, q, a)

/-- A run, with what the calls return. -/
def run (fuel : ℕ) (q : LinkedQueueImpl α) (a : Allocator) :
    List (QueueCall α) → Option (List (QueueResult α) × LinkedQueueImpl α × Allocator)
  | [] => some ([], q, a)
  | c :: calls => do
    let (r, q, a) ← q.step fuel a c
    let (rs, q, a) ← run fuel q a calls
    return (r :: rs, q, a)

/-! ## The two chains

A node moves from one chain to the other without being copied. -/

/-- The queue has the payloads, in the nodes of one chain, and the free list is another one. The
count is kept in an `int`. -/
structure Describes (q : LinkedQueueImpl α) (nodes free : List ℕ) (items : List (Option α)) :
    Prop where
  queue_follows : Follows q.next q.front nodes
  free_follows : Follows q.next q.freelist free
  /-- The chains have no node in common. -/
  nodup : (nodes ++ free).Nodup
  data_eq : nodes.map q.data = items
  rear_eq : q.rear = nodes.getLast?
  /-- The count, as an `int` keeps it. -/
  length_eq : q.length = int32 items.length
  freelistSize_eq : q.freelistSize = free.length
  /-- More than these are never kept. -/
  free_le : free.length ≤ linkedQueueFreelistMax
  lt_fresh : ∀ p ∈ nodes ++ free, p < q.fresh

variable {q : LinkedQueueImpl α} {nodes free : List ℕ} {items : List (Option α)}

theorem create_describes {a a' : Allocator} (h : create a = (some q, a')) :
    Describes q [] [] [] := by
  rw [create] at h
  dsimp only at h
  split at h
  · exact absurd (Prod.mk.inj h).1 (by simp)
  split at h
  · exact absurd (Prod.mk.inj h).1 (by simp)
  obtain rfl := Option.some.inj (Prod.mk.inj h).1
  exact ⟨rfl, rfl, List.nodup_nil, rfl, rfl, show (0 : ℤ) = int32 0 by decide, rfl,
    Nat.zero_le _, fun p hp => by cases hp⟩

/-- The fields of a node that is in neither chain may change. -/
theorem Describes.write (h : Describes q nodes free items) {node : ℕ} (hnode : node ∉ nodes ++ free)
    (data : Option α) (next : Option ℕ) :
    Describes { q with
      data := Function.update q.data node data
      next := Function.update q.next node next } nodes free items := by
  have hne : ∀ p ∈ nodes ++ free, p ≠ node := fun p hp heq => hnode (heq ▸ hp)
  refine { h with queue_follows := ?_, free_follows := ?_, data_eq := ?_ }
  · exact h.queue_follows.congr fun p hp =>
      Function.update_of_ne (hne p (List.mem_append_left _ hp)) _ _
  · exact h.free_follows.congr fun p hp =>
      Function.update_of_ne (hne p (List.mem_append_right _ hp)) _ _
  · rw [← h.data_eq]
    exact List.map_congr_left fun p hp =>
      Function.update_of_ne (hne p (List.mem_append_left _ hp)) _ _

/-- **A node is taken** from the free list if there is one, or else from the allocator. -/
theorem Describes.takeNode (h : Describes q nodes free items) (a : Allocator) :
    (∃ node free' q', free = node :: free' ∧ q.takeNode a = (some node, q', a) ∧
      Describes q' nodes free' items ∧ node ∉ nodes ++ free' ∧ node < q'.fresh) ∨
    (free = [] ∧ a.alloc.1 = true ∧ ∃ node q', q.takeNode a = (some node, q', a.alloc.2) ∧
      Describes q' nodes [] items ∧ node ∉ nodes ++ [] ∧ node < q'.fresh) ∨
    (free = [] ∧ a.alloc.1 = false ∧ q.takeNode a = (none, q, a.alloc.2)) := by
  have hhead := h.free_follows.eq_head?
  cases free with
  | nil =>
    rw [List.head?_nil] at hhead
    have htake : q.takeNode a = if !a.alloc.1 then (none, q, a.alloc.2)
        else (some q.fresh, { q with fresh := q.fresh + 1 }, a.alloc.2) := by
      rw [LinkedQueueImpl.takeNode]
      split
      · next hsome => exact absurd (hhead.symm.trans hsome) (by simp)
      · rfl
    refine .inr ?_
    cases hout : a.alloc.1 with
    | true =>
      rw [hout] at htake
      refine .inl ⟨rfl, rfl, q.fresh, _, htake, ?_, fun hmem => ?_, Nat.lt_succ_self _⟩
      · exact { h with lt_fresh := fun p hp => Nat.lt_succ_of_lt (h.lt_fresh p hp) }
      · exact Nat.lt_irrefl _ (h.lt_fresh _ hmem)
    | false =>
      rw [hout] at htake
      exact .inr ⟨rfl, rfl, htake⟩
  | cons node free' =>
    rw [List.head?_cons] at hhead
    have hperm : (nodes ++ node :: free').Perm (node :: (nodes ++ free')) := List.perm_middle
    obtain ⟨hnode, hnodup⟩ := List.nodup_cons.mp (hperm.nodup_iff.mp h.nodup)
    have hlen : q.freelistSize = (free'.length + 1 : ℕ) := h.freelistSize_eq
    have hle : free'.length + 1 ≤ linkedQueueFreelistMax := h.free_le
    refine .inl ⟨node, free', { q with
      freelist := q.next node, freelistSize := int32 (q.freelistSize - 1) }, rfl, ?_, ?_, hnode,
      h.lt_fresh node (hperm.mem_iff.mpr List.mem_cons_self)⟩
    · rw [LinkedQueueImpl.takeNode, hhead]
    · refine { h with
        free_follows := h.free_follows.2
        nodup := hnodup
        freelistSize_eq := ?_
        free_le := (Nat.le_succ _).trans hle
        lt_fresh := fun p hp => h.lt_fresh p (hperm.mem_iff.mpr (List.mem_cons_of_mem _ hp)) }
      rw [linkedQueueFreelistMax] at hle
      show int32 (q.freelistSize - 1) = _
      rw [hlen, int32_eq (by omega) (by omega)]
      omega

/-- **A node that is in neither chain** goes behind the last one. -/
theorem Describes.appendNode (h : Describes q nodes free items) {node : ℕ}
    (hnode : node ∉ nodes ++ free) (hlt : node < q.fresh) (hnext : q.next node = none) :
    Describes (q.appendNode node) (nodes ++ [node]) free (items ++ [q.data node]) := by
  have hhead := h.queue_follows.eq_head?
  have hperm : (nodes ++ [node] ++ free).Perm (node :: (nodes ++ free)) := by
    rw [List.append_assoc]
    exact List.perm_middle
  have hnodup : (nodes ++ [node] ++ free).Nodup :=
    hperm.nodup_iff.mpr (List.nodup_cons.mpr ⟨hnode, h.nodup⟩)
  have hfresh : ∀ p ∈ nodes ++ [node] ++ free, p < q.fresh := fun p hp => by
    rcases List.mem_cons.mp (hperm.mem_iff.mp hp) with rfl | hp
    · exact hlt
    · exact h.lt_fresh p hp
  have hlength : int32 (q.length + 1) = int32 (items ++ [q.data node]).length := by
    rw [h.length_eq, int32, int32, int32, Int.bmod_add_bmod, List.length_append]
    rfl
  have hdata : (nodes ++ [node]).map q.data = items ++ [q.data node] := by
    rw [List.map_append, h.data_eq]
    rfl
  rcases List.eq_nil_or_concat' nodes with rfl | ⟨s, r, rfl⟩
  · have hrear : q.rear = none := h.rear_eq
    have hstate : q.appendNode node = { q with
        rear := some node, front := some node, length := int32 (q.length + 1) } := by
      rw [LinkedQueueImpl.appendNode, linkRear, hrear, hhead]
      rfl
    rw [hstate]
    exact ⟨⟨rfl, hnext⟩, h.free_follows, hnodup, hdata, rfl, hlength, h.freelistSize_eq, h.free_le,
      hfresh⟩
  · have hrear : q.rear = some r := by rw [h.rear_eq, List.getLast?_concat]
    have hfront : q.front.isNone = false := by
      rw [hhead]
      cases s <;> rfl
    have hstate : q.appendNode node = { q with
        next := Function.update q.next r (some node)
        rear := some node, length := int32 (q.length + 1) } := by
      rw [LinkedQueueImpl.appendNode, linkRear, hrear]
      dsimp only
      rw [hfront]
      rfl
    have hr : r ∈ s ++ [r] := List.mem_concat_self
    have hrs : ∀ p ∈ s, p ≠ r := fun p hp heq => by
      have hdisj := (List.nodup_append.mp (List.nodup_append.mp h.nodup).1).2.2
      exact hdisj p hp r (List.mem_singleton_self r) heq
    have hrf : ∀ p ∈ free, p ≠ r := fun p hp heq =>
      (List.nodup_append.mp h.nodup).2.2 r hr p hp heq.symm
    have hne : node ≠ r := fun heq => by
      rw [heq] at hnode
      exact hnode (List.mem_append_left _ hr)
    rw [hstate]
    refine ⟨?_, h.free_follows.congr fun p hp => Function.update_of_ne (hrf p hp) _ _, hnodup,
      hdata, List.getLast?_concat.symm, hlength, h.freelistSize_eq, h.free_le, hfresh⟩
    rw [List.append_assoc]
    refine h.queue_follows.replace (fun p hp => Function.update_of_ne (hrs p hp) _ _) ⟨?_, ?_⟩
    · exact Function.update_self _ _ _
    · exact (Function.update_of_ne hne _ _).trans hnext

/-- The first node leaves the queue; its payload has been read. -/
theorem Describes.detachFront {node : ℕ} {data : Option α}
    (h : Describes q (node :: nodes) free (data :: items)) :
    q.front = some node ∧ q.data node = data ∧ ∀ length, length = int32 items.length →
      Describes { q with
        front := q.next node
        rear := if (q.next node).isNone then none else q.rear
        length := length } nodes free items ∧ node ∉ nodes ++ free ∧ node < q.fresh := by
  obtain ⟨hnode, hnodup⟩ := List.nodup_cons.mp h.nodup
  obtain ⟨hdata, hitems⟩ := List.cons.inj h.data_eq
  refine ⟨h.queue_follows.1, hdata, fun length hlength => ⟨{ h with
    queue_follows := h.queue_follows.2
    nodup := hnodup
    data_eq := hitems
    rear_eq := ?_
    length_eq := hlength
    lt_fresh := fun p hp => h.lt_fresh p (List.mem_cons_of_mem _ hp) }, hnode,
    h.lt_fresh node List.mem_cons_self⟩⟩
  show (if (q.next node).isNone then none else q.rear) = nodes.getLast?
  rw [h.queue_follows.2.eq_head?, h.rear_eq]
  cases nodes with
  | nil => rfl
  | cons p nodes => exact List.getLast?_cons_cons

/-- **A node that is in neither chain** goes to the front of the free list, unless that is full. -/
theorem Describes.releaseNode (h : Describes q nodes free items) {node : ℕ}
    (hnode : node ∉ nodes ++ free) (hlt : node < q.fresh) :
    ∃ free', Describes (q.releaseNode node) nodes free' items ∧
      free'.length = if free.length < linkedQueueFreelistMax then free.length + 1
        else free.length := by
  rw [LinkedQueueImpl.releaseNode, h.freelistSize_eq]
  simp only [Nat.cast_lt]
  split
  · next hroom =>
    have hne : ∀ p ∈ nodes ++ free, p ≠ node := fun p hp heq => hnode (heq ▸ hp)
    have hperm : (nodes ++ node :: free).Perm (node :: (nodes ++ free)) := List.perm_middle
    refine ⟨node :: free, { h with
      queue_follows := ?_
      free_follows := ⟨rfl, ?_⟩
      nodup := hperm.nodup_iff.mpr (List.nodup_cons.mpr ⟨hnode, h.nodup⟩)
      freelistSize_eq := ?_
      free_le := hroom
      lt_fresh := fun p hp => ?_ }, rfl⟩
    · exact h.queue_follows.congr fun p hp =>
        Function.update_of_ne (hne p (List.mem_append_left _ hp)) _ _
    · dsimp only
      rw [Function.update_self]
      exact h.free_follows.congr fun p hp =>
        Function.update_of_ne (hne p (List.mem_append_right _ hp)) _ _
    · rw [linkedQueueFreelistMax] at hroom
      rw [int32_eq (by omega) (by omega), List.length_cons]
      rfl
    · rcases List.mem_cons.mp (hperm.mem_iff.mp hp) with rfl | hp
      · exact hlt
      · exact h.lt_fresh p hp
  · exact ⟨free, h, rfl⟩

/-! ## The operations -/

/-- The queue with nodes stands for the queue of payloads. -/
def Refines (q : LinkedQueueImpl α) (ab : LinkedQueue (Option α)) : Prop :=
  ∃ nodes free, Describes q nodes free ab.items ∧ free.length = ab.freelistSize

variable {ab : LinkedQueue (Option α)}

/-- **`linked_enqueue`** is that of the queue of payloads; one that fails changes nothing. -/
theorem Refines.enqueue (h : Refines q ab) (data : Option α) (a : Allocator) :
    (q.enqueue data a).1 = (ab.enqueue data a).1 ∧
      (q.enqueue data a).2.2 = (ab.enqueue data a).2.2 ∧
      Refines (q.enqueue data a).2.1 (ab.enqueue data a).2.1 ∧
      ((q.enqueue data a).1 ≠ .success → (q.enqueue data a).2.1 = q) := by
  obtain ⟨nodes, free, hq, hfree⟩ := h
  -- once a node is there, it is filled in and goes behind the last one
  have hlink : ∀ {q' : LinkedQueueImpl α} {free' : List ℕ} {node : ℕ} {a' : Allocator},
      q.takeNode a = (some node, q', a') → Describes q' nodes free' ab.items →
      node ∉ nodes ++ free' → node < q'.fresh →
      ∃ q'', q.enqueue data a = (.success, q'', a') ∧
        Describes q'' (nodes ++ [node]) free' (ab.items ++ [data]) := by
    intro q' free' node a' htake hq' hnode hlt
    have hwrite := (hq'.write hnode data none).appendNode hnode hlt (Function.update_self _ _ _)
    dsimp only at hwrite
    rw [Function.update_self] at hwrite
    refine ⟨_, ?_, hwrite⟩
    rw [LinkedQueueImpl.enqueue, acquireNode, htake]
  rw [LinkedQueue.enqueue, ← hfree]
  rcases hq.takeNode a with ⟨node, free', q', rfl, htake, hq', hnode, hlt⟩ |
    ⟨rfl, hout, node, q', htake, hq', hnode, hlt⟩ | ⟨rfl, hout, htake⟩
  · obtain ⟨q'', henqueue, hq''⟩ := hlink htake hq' hnode hlt
    rw [henqueue, if_pos (show 0 < (node :: free').length from Nat.succ_pos _)]
    exact ⟨rfl, rfl, ⟨_, _, hq'', rfl⟩, fun hne => absurd rfl hne⟩
  · obtain ⟨q'', henqueue, hq''⟩ := hlink htake hq' hnode hlt
    rw [henqueue, if_neg (show ¬ 0 < ([] : List ℕ).length from Nat.lt_irrefl 0)]
    simp only [hout, Bool.not_true, Bool.false_eq_true, if_false]
    exact ⟨trivial, trivial, ⟨_, _, hq'', rfl⟩, fun hne => absurd rfl hne⟩
  · have henqueue : q.enqueue data a = (.errorMemory, q, a.alloc.2) := by
      rw [LinkedQueueImpl.enqueue, acquireNode, htake]
    rw [henqueue, if_neg (show ¬ 0 < ([] : List ℕ).length from Nat.lt_irrefl 0)]
    simp only [hout, Bool.not_false, if_true]
    exact ⟨trivial, trivial, ⟨_, _, hq, hfree⟩, fun _ => trivial⟩

/-- **`linked_dequeue`** is that of the queue of payloads. -/
theorem Refines.dequeue (h : Refines q ab) :
    q.dequeue.1 = ab.dequeue.1.join ∧ Refines q.dequeue.2 ab.dequeue.2 := by
  obtain ⟨nodes, free, hq, hfree⟩ := h
  have hhead := hq.queue_follows.eq_head?
  cases nodes with
  | nil =>
    have hitems : ab.items = [] := hq.data_eq.symm
    have hdequeue : q.dequeue = (none, q) := by rw [LinkedQueueImpl.dequeue, hhead]; rfl
    rw [hdequeue, ab.dequeue_nil hitems]
    exact ⟨rfl, [], free, hq, hfree⟩
  | cons node nodes =>
    obtain ⟨items, freelistSize⟩ := ab
    obtain ⟨data, items, rfl⟩ : ∃ data items', items = data :: items' :=
      ⟨_, _, hq.data_eq.symm⟩
    have hlength : int32 (q.length - 1) = int32 items.length := by
      rw [hq.length_eq, int32, int32, int32, Int.bmod_sub_bmod, List.length_cons]
      congr 1
      omega
    obtain ⟨hfront, hdata, hdetach⟩ := hq.detachFront
    obtain ⟨hq', hnode, hlt⟩ := hdetach _ hlength
    obtain ⟨free', hq'', hfree'⟩ := hq'.releaseNode hnode hlt
    have hdequeue : q.dequeue = (data, LinkedQueueImpl.releaseNode { q with
        front := q.next node
        rear := if (q.next node).isNone then none else q.rear
        length := int32 (q.length - 1) } node) := by
      rw [LinkedQueueImpl.dequeue, hfront]
      dsimp only
      rw [hdata]
      simp only [LinkedQueueImpl.releaseNode]
      split <;> split <;> rfl
    rw [hdequeue]
    refine ⟨rfl, nodes, free', hq'', ?_⟩
    rw [hfree', show free.length = freelistSize from hfree]
    rfl

theorem Refines.isEmpty (h : Refines q ab) : q.isEmpty = ab.items.isEmpty := by
  obtain ⟨nodes, free, hq, -⟩ := h
  rw [LinkedQueueImpl.isEmpty, hq.queue_follows.eq_head?, ← hq.data_eq]
  cases nodes <;> rfl

/-- **`linked_clear` returns** and leaves nothing. -/
theorem Refines.clear {fuel : ℕ} (h : Refines q ab) (hfuel : ab.items.length < fuel) :
    ∃ q' ab', q.clear fuel = some q' ∧ Refines q' ab' ∧ ab'.items = [] := by
  induction fuel generalizing q ab with
  | zero => exact absurd hfuel (Nat.not_lt_zero _)
  | succ fuel ih =>
    rw [LinkedQueueImpl.clear, h.isEmpty]
    cases hitems : ab.items with
    | nil => exact ⟨q, ab, rfl, h, hitems⟩
    | cons data items =>
      obtain ⟨ab', hdequeue, hrest⟩ := LinkedQueue.dequeue_cons hitems
      have hq' := h.dequeue.2
      rw [hdequeue] at hq'
      rw [hitems, List.length_cons] at hfuel
      refine ih hq' ?_
      rw [hrest]
      omega

/-! ## Runs

A call that fails to find memory returns a code and leaves both chains as they were. -/

/-- What a call may return for a queue with the payloads of the first list, and the payloads it
leaves. -/
inductive Serves : List (Option α) → QueueCall α → QueueResult α → List (Option α) → Prop
  | accepted (items : List (Option α)) (data : Option α) :
      Serves items (.enqueue data) (.code .success) (items ++ [data])
  | refused (items : List (Option α)) (data : Option α) :
      Serves items (.enqueue data) (.code .errorMemory) items
  | taken (data : Option α) (items : List (Option α)) :
      Serves (data :: items) .dequeue (.item data) items
  | empty : Serves [] .dequeue (.item none) []
  | cleared (items : List (Option α)) : Serves items .clear .cleared []

/-- **First in, first out.** What the calls of a run may return. -/
inductive Fifo :
    List (Option α) → List (QueueCall α) → List (QueueResult α) → List (Option α) → Prop
  | nil (items : List (Option α)) : Fifo items [] [] items
  | cons {items items' left : List (Option α)} {c : QueueCall α} {r : QueueResult α}
      {calls : List (QueueCall α)} {results : List (QueueResult α)}
      (hserve : Serves items c r items') (hrest : Fifo items' calls results left) :
      Fifo items (c :: calls) (r :: results) left

theorem Serves.length_le {items items' : List (Option α)} {c : QueueCall α} {r : QueueResult α}
    (h : Serves items c r items') : items'.length ≤ items.length + 1 := by
  cases h <;> grind

/-- **Every call returns**, with what the queue of payloads gives. -/
theorem Refines.step (h : Refines q ab) {fuel : ℕ} (hfuel : ab.items.length < fuel)
    (a : Allocator) (c : QueueCall α) :
    ∃ r q' a' ab', q.step fuel a c = some (r, q', a') ∧ Refines q' ab' ∧
      Serves ab.items c r ab'.items := by
  cases c with
  | enqueue data =>
    obtain ⟨hcode, -, hq', -⟩ := h.enqueue data a
    refine ⟨.code (q.enqueue data a).1, _, (q.enqueue data a).2.2, _, rfl, hq', ?_⟩
    rw [hcode]
    rcases ab.enqueue_cases data a with ⟨hres, hitems⟩ | ⟨hres, hitems⟩
    · rw [hres, hitems]
      exact .accepted _ _
    · rw [hres, hitems]
      exact .refused _ _
  | dequeue =>
    obtain ⟨hdata, hq'⟩ := h.dequeue
    refine ⟨.item q.dequeue.1, _, a, _, rfl, hq', ?_⟩
    rw [hdata]
    cases hitems : ab.items with
    | nil =>
      rw [LinkedQueue.dequeue_nil hitems, hitems]
      exact .empty
    | cons data items =>
      obtain ⟨ab', hdequeue, hrest⟩ := LinkedQueue.dequeue_cons hitems
      rw [hdequeue, hrest]
      exact .taken data items
  | clear =>
    obtain ⟨q', ab', hclear, hq', hnil⟩ := h.clear hfuel
    refine ⟨.cleared, q', a, ab', ?_, hq', ?_⟩
    · rw [LinkedQueueImpl.step, hclear]
      rfl
    · rw [hnil]
      exact .cleared _

/-- **A run returns**, and what it returns is first in, first out. -/
theorem Refines.run (h : Refines q ab) {fuel : ℕ} {calls : List (QueueCall α)}
    (hfuel : ab.items.length + calls.length < fuel) (a : Allocator) :
    ∃ results q' a' ab', q.run fuel a calls = some (results, q', a') ∧ Refines q' ab' ∧
      Fifo ab.items calls results ab'.items := by
  induction calls generalizing q ab a with
  | nil => exact ⟨[], q, a, ab, rfl, h, .nil _⟩
  | cons c calls ih =>
    rw [List.length_cons] at hfuel
    obtain ⟨r, q', a', ab', hstep, hq', hserve⟩ := h.step (show _ < fuel by omega) a c
    have hle := hserve.length_le
    obtain ⟨results, q'', a'', ab'', hrun, hq'', hfifo⟩ := ih hq' (by omega) a'
    refine ⟨r :: results, q'', a'', ab'', ?_, hq'', .cons hserve hfifo⟩
    simp only [LinkedQueueImpl.run, hstep, hrun, Option.bind_eq_bind, Option.bind_some]
    rfl

/-- A queue and its payloads: both chains, the counts, and what a failed enqueue does. -/
structure Holds (q : LinkedQueueImpl α) (items : List (Option α)) : Prop where
  chains : ∃ nodes free, Follows q.next q.front nodes ∧ Follows q.next q.freelist free ∧
    nodes.Nodup ∧ free.Nodup ∧ nodes.Disjoint free ∧ nodes.map q.data = items ∧
    q.freelistSize = free.length ∧ free.length ≤ linkedQueueFreelistMax
  isEmpty_iff : q.isEmpty = true ↔ items = []
  size_eq : items.length ≤ intMax → q.size = items.length
  unchanged : ∀ (data : Option α) (a : Allocator),
    (q.enqueue data a).1 ≠ .success → (q.enqueue data a).2.1 = q

theorem Refines.holds (h : Refines q ab) : Holds q ab.items where
  chains := by
    obtain ⟨nodes, free, hq, -⟩ := h
    obtain ⟨hnodes, hfree, hdisjoint⟩ := List.nodup_append'.mp hq.nodup
    exact ⟨nodes, free, hq.queue_follows, hq.free_follows, hnodes, hfree, hdisjoint, hq.data_eq,
      hq.freelistSize_eq, hq.free_le⟩
  isEmpty_iff := by rw [h.isEmpty, List.isEmpty_iff]
  size_eq := fun hle => by
    obtain ⟨nodes, free, hq, -⟩ := h
    rw [intMax] at hle
    rw [size, hq.length_eq, int32_eq (by omega) (by omega)]
  unchanged := fun data a => (h.enqueue data a).2.2.2

/-- **Every run of a linked queue**, whatever allocations fail: the calls return, what they return
is first in, first out, and the queue that is left holds the payloads that are left. -/
theorem linkedQueue_fifo {a a₀ : Allocator} {q : LinkedQueueImpl α}
    (hcreate : create a = (some q, a₀)) (calls : List (QueueCall α)) {fuel : ℕ}
    (hfuel : calls.length < fuel) :
    ∃ results q' a' items, q.run fuel a₀ calls = some (results, q', a') ∧
      Fifo [] calls results items ∧ Holds q' items := by
  have hq : Refines q ⟨[], 0⟩ := ⟨[], [], create_describes hcreate, rfl⟩
  obtain ⟨results, q', a', ab', hrun, hq', hfifo⟩ :=
    hq.run (show 0 + calls.length < fuel by omega) a₀
  exact ⟨results, q', a', ab'.items, hrun, hfifo, hq'.holds⟩

/-- A run with a failed enqueue. -/
theorem linkedQueue_fifo_refused :
    ∃ results q' a' items, run 4 (⟨fun _ => none, fun _ => none, none, none, 0, none, 0, 0⟩ :
        LinkedQueueImpl ℕ) ⟨fun n => decide (n + 2 < 3)⟩
        [.enqueue (some 7), .enqueue none, .dequeue] = some (results, q', a') ∧
      Fifo [] [.enqueue (some 7), .enqueue none, .dequeue] results items ∧ Holds q' items :=
  linkedQueue_fifo (show create ⟨fun n => decide (n < 3)⟩ = _ from rfl) _ (by decide)

/-- With allocations succeeding every enqueue of a run appends. -/
theorem Refines.run_enqueues (h : Refines q ab) (fuel : ℕ) (data : Option α) (n : ℕ) :
    ∃ q' ab', q.run fuel .always (List.replicate n (.enqueue data)) =
        some (List.replicate n (.code .success), q', .always) ∧ Refines q' ab' ∧
      ab'.items = ab.items ++ List.replicate n data ∧
      Fifo ab.items (List.replicate n (.enqueue data)) (List.replicate n (.code .success))
        ab'.items := by
  induction n generalizing q ab with
  | zero => exact ⟨q, ab, rfl, h, (List.append_nil _).symm, .nil _⟩
  | succ n ih =>
    obtain ⟨ab', henqueue, hitems⟩ := ab.enqueue_always data
    obtain ⟨hcode, ha, hq', -⟩ := h.enqueue data .always
    rw [henqueue] at hcode ha hq'
    obtain ⟨q'', ab'', hrun, hq'', hrest, hfifo⟩ := ih hq'
    rw [hitems] at hrest hfifo
    refine ⟨q'', ab'', ?_, hq'', ?_, .cons (.accepted _ _) hfifo⟩
    · simp only [List.replicate_succ, LinkedQueueImpl.run, LinkedQueueImpl.step, hcode, ha, hrun,
        Option.bind_eq_bind, Option.bind_some]
      rfl
    · rw [hrest, List.append_assoc, List.replicate_succ]
      rfl

/-- After 2³¹ enqueues that all succeeded the size is negative: the count is an `int`. -/
theorem linkedQueue_size_wraps :
    ∃ q results q' a' items, (create .always : Option (LinkedQueueImpl ℕ) × Allocator) =
        (some q, .always) ∧
      run 1 q .always (List.replicate 2147483648 (.enqueue (some 7))) = some (results, q', a') ∧
      Fifo [] (List.replicate 2147483648 (.enqueue (some 7))) results items ∧
      items.length = 2147483648 ∧ q'.size = -2147483648 := by
  obtain ⟨q, hcreate⟩ : ∃ q : LinkedQueueImpl ℕ, create .always = (some q, .always) := ⟨_, rfl⟩
  have hq : Refines q ⟨[], 0⟩ := ⟨[], [], create_describes hcreate, rfl⟩
  obtain ⟨q', ab', hrun, hq', hitems, hfifo⟩ := hq.run_enqueues 1 (some 7) 2147483648
  obtain ⟨nodes, free, hq', -⟩ := hq'
  have hlen : ab'.items.length = 2147483648 := by
    rw [hitems, List.nil_append, List.length_replicate]
  refine ⟨q, _, q', _, ab'.items, hcreate, hrun, hfifo, hlen, ?_⟩
  rw [size, hq'.length_eq, hlen]
  rfl

end LinkedQueueImpl

end OvaLib
