import OvaLib.Foundation.FiniteSet
import OvaLib.Lifetime
import OvaLib.Queue.LinkedQueueNodes

/-!
# What a linked queue has allocated

The calls of `linked_queue.c` with the blocks they allocate and free, and the two clone methods. A
node that is dequeued stays with the queue, on the free list, until that has 4096 nodes; the next
one is freed. `linked_free` dequeues everything, then frees the free list.

## Clones

A clone is filled by the enqueue of the copy. It is given up when an enqueue finds no memory or the
copier returns `NULL`, and then `linked_free` is called on what there is of it. That call frees the
nodes and not the payloads: a queue does not own its payloads, as `linked_free` cannot know what
they are. In `linked_clone_deep` the payloads are copies that nobody else has heard of, so with the
clone they are lost, and with them the copy whose enqueue failed, which never was in the clone.

So there are two kinds of blocks to account for. `held` are the blocks of the queue, and they are
all given back; `copies` are what the copier has made and nobody has freed. In a clone that is
returned they are its payloads. In one that is given up they are copies of the first payloads of
the source, and no list, queue or caller has them.

## Main results

* `OwnsNodes.call` — the blocks held are the nodes of the two chains, after every call
* `OwnsNodes.linkedFree` — `linked_free` leaves nothing
* `linkedQueue_frees` — every run
* `linkedQueue_clones` — a clone has the payloads in order, or nothing is held for it
-/

namespace OvaLib

namespace LinkedQueueImpl

open Foundation

variable {α : Type*}

/-! ## The model -/

/-- `create_linked_queue`, with the blocks held when it returns. -/
def createWithBlocks (a : Allocator) :
    Option (LinkedQueueImpl α) × Option (Finset Allocation) × Allocator :=
  let (ok, held, a) := allocPair .object .impl a
  (if ok then some ⟨fun _ => none, fun _ => none, none, none, 0, none, 0, 0⟩ else none, held, a)

/-- The block that `linked_dequeue` frees: `release_node` keeps the node unless the free list is
full. -/
def dequeueFrees (q : LinkedQueueImpl α) : Freeing Allocation :=
  match q.front with
  | none => some
  | some temp => if q.freelistSize < linkedQueueFreelistMax then some else release (.node temp)

/-- The loop of `linked_clear` and `linked_free`, with the blocks held. -/
def dequeueAll : ℕ → LinkedQueueImpl α → Finset Allocation →
    Option (LinkedQueueImpl α × Finset Allocation)
  | 0, _, _ => none
  | fuel + 1, q, held =>
    if q.isEmpty then some (q, held)
    else (q.dequeueFrees held).bind fun held => dequeueAll fuel q.dequeue.2 held

/-- `linked_free`. -/
def linkedFree (fuel : ℕ) (q : LinkedQueueImpl α) : Freeing Allocation := fun held =>
  (dequeueAll fuel q held).bind fun r =>
    andThen (freeChain .node r.1.next fuel r.1.freelist)
      (andThen (release .impl) (release .object)) r.2

/-- A queue, the blocks it holds, and the allocation attempts to come. -/
structure Owned (α : Type*) where
  queue : LinkedQueueImpl α
  held : Finset Allocation
  allocator : Allocator

/-- One call, with the blocks held before and after. -/
def ownedCall (fuel : ℕ) (s : Owned α) : QueueCall α → Option (Owned α)
  | .enqueue data =>
    let (_, q, a) := s.queue.enqueue data s.allocator
    some ⟨q, handOut s.queue.fresh q.fresh s.held, a⟩
  | .dequeue =>
    (s.queue.dequeueFrees s.held).map fun held => ⟨s.queue.dequeue.2, held, s.allocator⟩
  | .clear => (dequeueAll fuel s.queue s.held).map fun r => ⟨r.1, r.2, s.allocator⟩

/-- What becomes of a payload in a clone: the payload there, and what the copier has allocated. -/
structure Duplicate (α : Type*) where
  data : Option α
  made : List (Option α)

/-- How a clone method gets its payloads; `none` is a copier that returns `NULL`. -/
abbrev Duplicator (α : Type*) := Option α → Allocator → Option (Duplicate α) × Allocator

/-- What a clone method leaves: the clone, the blocks held for it, the copies that the copier has
made and nobody has freed, and the allocation attempts to come. -/
structure Cloned (α : Type*) where
  clone : Option (LinkedQueueImpl α)
  held : Finset Allocation
  copies : List (Option α)
  allocator : Allocator

/-- The loop of the clone methods from `cur` on. A clone that is given up is freed, and the copies
in it are not. -/
def cloneLoop (dup : Duplicator α) (q : LinkedQueueImpl α) :
    ℕ → Option ℕ → Owned α → List (Option α) → Option (Cloned α)
  | 0, _, _, _ => none
  | _ + 1, none, copy, copies => some ⟨some copy.queue, copy.held, copies, copy.allocator⟩
  | fuel + 1, some cur, copy, copies =>
    match dup (q.data cur) copy.allocator with
    | (none, a) =>
      (copy.queue.linkedFree (copy.queue.fresh + 1) copy.held).map fun held =>
        ⟨none, held, copies, a⟩
    | (some d, a) =>
      match copy.queue.enqueue d.data a with
      | (.success, copy', a) =>
        cloneLoop dup q fuel (q.next cur)
          ⟨copy', handOut copy.queue.fresh copy'.fresh copy.held, a⟩ (copies ++ d.made)
      | (_, copy', a) =>
        (copy'.linkedFree (copy'.fresh + 1) (handOut copy.queue.fresh copy'.fresh copy.held)).map
          fun held => ⟨none, held, copies ++ d.made, a⟩

/-- Both clone methods: the copy is created first. -/
def cloneWith (dup : Duplicator α) (fuel : ℕ) (q : LinkedQueueImpl α) (a : Allocator) :
    Option (Cloned α) :=
  match createWithBlocks a with
  | (none, held, a) => held.map fun held => ⟨none, held, [], a⟩
  | (some copy, held, a) => held.bind fun held => cloneLoop dup q fuel q.front ⟨copy, held, a⟩ []

/-- `linked_clone_shallow`. -/
def linkedCloneShallow : ℕ → LinkedQueueImpl α → Allocator → Option (Cloned α) :=
  cloneWith fun data a => (some ⟨data, []⟩, a)

/-- `copier(data)`, which must not be `NULL`. The copier may ask for memory, and what it returns is
a block of its own. -/
def copied (copier : Option α → Allocator → Option α × Allocator) : Duplicator α := fun data a =>
  match copier data a with
  | (none, a) => (none, a)
  | (some dup, a) => (some ⟨some dup, [some dup]⟩, a)

/-- `linked_clone_deep`. -/
def linkedCloneDeep (copier : Option α → Allocator → Option α × Allocator) :
    ℕ → LinkedQueueImpl α → Allocator → Option (Cloned α) :=
  cloneWith (copied copier)

/-! ## The invariant -/

/-- **The blocks held are the nodes of the two chains.** -/
def OwnsNodes (q : LinkedQueueImpl α) (held : Finset Allocation) (items : List (Option α)) : Prop :=
  ∃ nodes free, Describes q nodes free items ∧ held = allocationsOf (nodes ++ free).toFinset

variable {q : LinkedQueueImpl α} {nodes free : List ℕ} {items : List (Option α)}
  {held : Finset Allocation}

theorem createWithBlocks_cases (a : Allocator) :
    (∃ q a', createWithBlocks (α := α) a = (some q, some (allocationsOf ∅), a') ∧
      Describes q [] [] []) ∨
    ∃ a', createWithBlocks (α := α) a = (none, some ∅, a') := by
  rw [createWithBlocks]
  rcases allocPair_cases .object .impl a with ⟨a', hpair⟩ | ⟨a', hpair⟩
  · refine .inl ⟨_, a', by rw [hpair, object_impl]; rfl, ?_⟩
    exact ⟨rfl, rfl, List.nodup_nil, rfl, rfl, show (0 : ℤ) = int32 0 by decide, rfl,
      Nat.zero_le _, fun p hp => by cases hp⟩
  · exact .inr ⟨a', by rw [hpair]; rfl⟩

/-- The node taken for an enqueue, and whether it is a new one. -/
theorem takeNode_fresh (h : Describes q nodes free items) (a : Allocator) {node : ℕ}
    {q' : LinkedQueueImpl α} {a' : Allocator} (htake : q.takeNode a = (some node, q', a')) :
    free = node :: free.tail ∧ q'.fresh = q.fresh ∨
      free = [] ∧ node = q.fresh ∧ q'.fresh = q.fresh + 1 := by
  have hhead := h.free_follows.eq_head?
  rw [takeNode] at htake
  cases free with
  | nil =>
    rw [List.head?_nil] at hhead
    rw [hhead] at htake
    dsimp only at htake
    split at htake
    · cases (Prod.mk.inj htake).1
    · obtain ⟨hnode, hq, -⟩ : some q.fresh = some node ∧ _ = q' ∧ _ := by
        simpa only [Prod.mk.injEq] using htake
      exact .inr ⟨rfl, (Option.some.inj hnode).symm, by rw [← hq]⟩
  | cons p free =>
    rw [List.head?_cons] at hhead
    rw [hhead] at htake
    obtain ⟨hnode, hq, -⟩ : some p = some node ∧ _ = q' ∧ _ := by
      simpa only [Prod.mk.injEq] using htake
    obtain rfl := Option.some.inj hnode
    exact .inl ⟨rfl, by rw [← hq]⟩

theorem appendNode_fresh (q : LinkedQueueImpl α) (node : ℕ) :
    (q.appendNode node).fresh = q.fresh := by
  rw [appendNode, linkRear]
  dsimp only
  split <;> split <;> rfl

/-- **An enqueue** appends the payload and may add a node, or changes nothing. -/
theorem OwnsNodes.enqueue (h : OwnsNodes q held items) (data : Option α) (a : Allocator) :
    ∃ e q' a', q.enqueue data a = (e, q', a') ∧ (a = .always → a' = .always) ∧
      (e = .success ∧ OwnsNodes q' (handOut q.fresh q'.fresh held) (items ++ [data]) ∨
        e = .errorMemory ∧ q' = q ∧ a.alloc.1 = false) := by
  obtain ⟨nodes, free, hq, rfl⟩ := h
  -- once a node is there, it is filled in and goes behind the last one
  have hlink : ∀ {q' : LinkedQueueImpl α} {free' : List ℕ} {node : ℕ} {a' : Allocator},
      q.takeNode a = (some node, q', a') → Describes q' nodes free' items →
      node ∉ nodes ++ free' → node < q'.fresh →
      ∃ q'', q.enqueue data a = (.success, q'', a') ∧ q''.fresh = q'.fresh ∧
        Describes q'' (nodes ++ [node]) free' (items ++ [data]) := by
    intro q' free' node a' htake hq' hnode hlt
    have hwrite := (hq'.write hnode data none).appendNode hnode hlt (Function.update_self _ _ _)
    dsimp only at hwrite
    rw [Function.update_self] at hwrite
    refine ⟨_, ?_, ?_, hwrite⟩
    · rw [LinkedQueueImpl.enqueue, acquireNode, htake]
    · exact appendNode_fresh _ _
  rcases hq.takeNode a with ⟨node, free', q', rfl, htake, hq', hnode, hlt⟩ |
    ⟨rfl, -, node, q', htake, hq', hnode, hlt⟩ | ⟨rfl, hout, htake⟩
  · obtain ⟨q'', henqueue, hfresh, hq''⟩ := hlink htake hq' hnode hlt
    have hsame : q'.fresh = q.fresh := by
      rcases takeNode_fresh hq a htake with ⟨-, hsame⟩ | ⟨hnil, -⟩
      · exact hsame
      · cases hnil
    refine ⟨_, q'', a, henqueue, id, .inl ⟨rfl, nodes ++ [node], free', hq'', ?_⟩⟩
    rw [hfresh, hsame, handOut_self, List.append_assoc, List.singleton_append]
  · obtain ⟨q'', henqueue, hfresh, hq''⟩ := hlink htake hq' hnode hlt
    obtain ⟨rfl, hnew⟩ : node = q.fresh ∧ q'.fresh = q.fresh + 1 := by
      rcases takeNode_fresh hq a htake with ⟨hcons, -⟩ | ⟨-, hnew⟩
      · cases hcons
      · exact hnew
    refine ⟨_, q'', _, henqueue, fun ha => by rw [ha]; rfl,
      .inl ⟨rfl, nodes ++ [q.fresh], [], hq'', ?_⟩⟩
    rw [hfresh, List.append_nil, List.append_nil]
    exact handOut_list (.inr ⟨hnew, List.perm_append_singleton _ _⟩)
  · refine ⟨_, q, a.alloc.2, ?_, fun ha => by rw [ha]; rfl, .inr ⟨rfl, rfl, hout⟩⟩
    rw [LinkedQueueImpl.enqueue, acquireNode, htake]

/-- **A dequeue** takes out the first payload; its node is kept or freed. -/
theorem OwnsNodes.dequeue (h : OwnsNodes q held items) :
    ∃ held', q.dequeueFrees held = some held' ∧ OwnsNodes q.dequeue.2 held' items.tail := by
  obtain ⟨nodes, free, hq, rfl⟩ := h
  have hhead := hq.queue_follows.eq_head?
  cases nodes with
  | nil =>
    obtain rfl : items = [] := hq.data_eq.symm
    rw [List.head?_nil] at hhead
    refine ⟨allocationsOf ([] ++ free).toFinset, ?_, [], free, ?_, rfl⟩
    · rw [dequeueFrees, hhead]
    · rw [LinkedQueueImpl.dequeue, hhead]
      exact hq
  | cons node nodes =>
    obtain ⟨data, items, rfl⟩ : ∃ data items', items = data :: items' := ⟨_, _, hq.data_eq.symm⟩
    have hlength : int32 (q.length - 1) = int32 items.length := by
      rw [hq.length_eq, int32, int32, int32, Int.bmod_sub_bmod, List.length_cons]
      congr 1
      omega
    obtain ⟨hfront, hdata, hdetach⟩ := hq.detachFront
    obtain ⟨hq', hnode, hlt⟩ := hdetach _ hlength
    have hdequeue : q.dequeue.2 = LinkedQueueImpl.releaseNode { q with
        front := q.next node
        rear := if (q.next node).isNone then none else q.rear
        length := int32 (q.length - 1) } node := by
      rw [LinkedQueueImpl.dequeue, hfront]
      simp only [LinkedQueueImpl.releaseNode]
      split <;> split <;> rfl
    obtain ⟨free', hq'', -⟩ := hq'.releaseNode hnode hlt
    have hfree' := hq''.free_follows
    have hne : ∀ p ∈ free, p ≠ node := fun p hp heq => hnode (List.mem_append_right _ (heq ▸ hp))
    rw [← hdequeue] at hq''
    rw [dequeueFrees, hfront]
    dsimp only
    rw [hq.freelistSize_eq]
    simp only [Nat.cast_lt]
    by_cases hroom : free.length < linkedQueueFreelistMax
    · -- the node goes to the front of the free list
      have hlist : free' = node :: free := by
        refine hfree'.unique ?_
        simp only [LinkedQueueImpl.releaseNode, hq.freelistSize_eq, Nat.cast_lt, if_pos hroom]
        refine ⟨rfl, ?_⟩
        rw [Function.update_self]
        exact hq.free_follows.congr fun p hp => Function.update_of_ne (hne p hp) _ _
      rw [if_pos hroom]
      refine ⟨_, rfl, nodes, free', hq'', ?_⟩
      rw [hlist]
      exact congrArg _ (List.toFinset_eq_of_perm _ _ List.perm_middle.symm)
    · -- the list is full, and the node is freed
      have hlist : free' = free := by
        refine hfree'.unique ?_
        simp only [LinkedQueueImpl.releaseNode, hq.freelistSize_eq, Nat.cast_lt, if_neg hroom]
        exact hq.free_follows
      have hnodup : (node :: (nodes ++ free)).Nodup := hq.nodup
      rw [if_neg hroom, List.cons_append, release_node (.refl _) hnodup]
      refine ⟨_, rfl, nodes, free', hq'', ?_⟩
      rw [hlist]

/-- **The loop of `linked_clear`** ends with an empty queue. -/
theorem OwnsNodes.dequeueAll {fuel : ℕ} (h : OwnsNodes q held items)
    (hfuel : items.length < fuel) :
    ∃ q' held', dequeueAll fuel q held = some (q', held') ∧ OwnsNodes q' held' [] ∧
      q'.fresh = q.fresh := by
  induction fuel generalizing q held items with
  | zero => exact absurd hfuel (Nat.not_lt_zero _)
  | succ fuel ih =>
    have hempty : q.isEmpty = items.isEmpty := by
      obtain ⟨nodes, free, hq, -⟩ := h
      have hrefines : Refines q ⟨items, free.length⟩ := ⟨nodes, free, hq, rfl⟩
      exact hrefines.isEmpty
    rw [LinkedQueueImpl.dequeueAll, hempty]
    cases items with
    | nil => exact ⟨q, held, rfl, h, rfl⟩
    | cons data items =>
      rw [List.length_cons] at hfuel
      obtain ⟨held₁, hfrees, h₁⟩ := h.dequeue
      obtain ⟨q', held', hrun, h', hfresh⟩ := ih h₁ (show items.length < fuel by omega)
      refine ⟨q', held', ?_, h', ?_⟩
      · rw [hfrees, Option.bind_some, hrun]
        rfl
      · rw [hfresh, LinkedQueueImpl.dequeue]
        cases q.front with
        | none => rfl
        | some temp =>
          dsimp only [releaseNode]
          split <;> split <;> rfl

/-- There are no more nodes than addresses. -/
theorem Describes.length_le (h : Describes q nodes free items) :
    items.length ≤ q.fresh ∧ free.length ≤ q.fresh := by
  have hle := length_le_card_of_nodup (s := Finset.range q.fresh) h.nodup fun p hp =>
    Finset.mem_range.mpr (h.lt_fresh p hp)
  rw [List.length_append, Finset.card_range] at hle
  rw [← h.data_eq, List.length_map]
  omega

/-- **`linked_free` leaves nothing.** -/
theorem OwnsNodes.linkedFree {fuel : ℕ} (h : OwnsNodes q held items) (hfuel : q.fresh < fuel) :
    q.linkedFree fuel held = some ∅ := by
  have hitems : items.length < fuel := by
    obtain ⟨nodes, free, hq, -⟩ := h
    exact hq.length_le.1.trans_lt hfuel
  obtain ⟨q', held', hrun, ⟨nodes, free, hq', rfl⟩, hfresh⟩ := h.dequeueAll hitems
  obtain rfl : nodes = [] := List.map_eq_nil_iff.mp hq'.data_eq
  have hlength : free.length < fuel := (hfresh ▸ hq'.length_le.2).trans_lt hfuel
  have hchain := consumes_freeChain Allocation.node hq'.free_follows hlength
  rw [LinkedQueueImpl.linkedFree, hrun, Option.bind_some, andThen,
    allocationsOf_of_consumes hchain (List.nodup_append.mp hq'.nodup).2.1 fun a => by simp,
    Option.bind_some, release_object]

/-! ## Every run -/

/-- **One call** keeps the books. -/
theorem OwnsNodes.call {s : Owned α} (h : OwnsNodes s.queue s.held items) (c : QueueCall α)
    {fuel : ℕ} (hfuel : items.length < fuel) :
    ∃ s' items', ownedCall fuel s c = some s' ∧ OwnsNodes s'.queue s'.held items' ∧
      items'.length ≤ items.length + 1 := by
  cases c with
  | enqueue data =>
    obtain ⟨e, q', a', henqueue, -, hcases⟩ := h.enqueue data s.allocator
    have hcall : ownedCall fuel s (.enqueue data) =
        some ⟨q', handOut s.queue.fresh q'.fresh s.held, a'⟩ := by
      simp only [ownedCall, henqueue]
    rcases hcases with ⟨-, h'⟩ | ⟨-, rfl, -⟩
    · exact ⟨_, _, hcall, h', by simp⟩
    · rw [handOut_self] at hcall
      exact ⟨_, _, hcall, h, Nat.le_succ _⟩
  | dequeue =>
    obtain ⟨held', hfrees, h'⟩ := h.dequeue
    refine ⟨⟨s.queue.dequeue.2, held', s.allocator⟩, _, ?_, h', ?_⟩
    · rw [ownedCall, hfrees]
      rfl
    · rw [List.length_tail]
      omega
  | clear =>
    obtain ⟨q', held', hrun, h', -⟩ := h.dequeueAll hfuel
    refine ⟨⟨q', held', s.allocator⟩, [], ?_, h', Nat.zero_le _⟩
    rw [ownedCall, hrun]
    rfl

theorem OwnsNodes.calls {s : Owned α} (h : OwnsNodes s.queue s.held items)
    (calls : List (QueueCall α)) {fuel : ℕ} (hfuel : items.length + calls.length < fuel) :
    ∃ s' items', calls.foldlM (ownedCall fuel) s = some s' ∧ OwnsNodes s'.queue s'.held items' := by
  induction calls generalizing s items with
  | nil => exact ⟨s, items, rfl, h⟩
  | cons c calls ih =>
    rw [List.length_cons] at hfuel
    obtain ⟨s', items', hcall, h', hlen⟩ := h.call c (show items.length < fuel by omega)
    obtain ⟨s'', items'', hrun, h''⟩ := ih h' (by omega)
    refine ⟨s'', items'', ?_, h''⟩
    rw [List.foldlM_cons, hcall]
    exact hrun

/-- **Nothing is leaked, freed twice or read once freed.** A queue that cannot be created holds
nothing. After every run of calls on one that was, whatever allocations fail, the nodes held are
those of the queue and of the free list, which has no more than 4096; and `linked_free` ends with
nothing held. -/
theorem linkedQueue_frees (calls : List (QueueCall α)) (a : Allocator) {fuel : ℕ}
    (hfuel : calls.length < fuel) :
    (∃ a', createWithBlocks (α := α) a = (none, some ∅, a')) ∨
      ∃ q held a' s nodes free, createWithBlocks (α := α) a = (some q, some held, a') ∧
        calls.foldlM (ownedCall fuel) ⟨q, held, a'⟩ = some s ∧
        Follows s.queue.next s.queue.front nodes ∧ Follows s.queue.next s.queue.freelist free ∧
        (∀ p, .node p ∈ s.held ↔ p ∈ nodes ∨ p ∈ free) ∧
        s.held.card = nodes.length + free.length + 2 ∧ free.length ≤ linkedQueueFreelistMax ∧
        s.queue.linkedFree (s.queue.fresh + 1) s.held = some ∅ := by
  rcases createWithBlocks_cases (α := α) a with ⟨q, a', hcreate, hq⟩ | ⟨a', hcreate⟩
  · have hstart : OwnsNodes q (allocationsOf ∅) [] := ⟨[], [], hq, rfl⟩
    obtain ⟨s, items, hrun, h⟩ := hstart.calls (s := ⟨q, allocationsOf ∅, a'⟩) calls
      (show [].length + calls.length < fuel by simpa)
    have hfree := h.linkedFree (Nat.lt_succ_self _)
    obtain ⟨nodes, free, hs, hheld⟩ := h
    refine .inr ⟨q, _, a', s, nodes, free, hcreate, hrun, hs.queue_follows, hs.free_follows,
      fun p => ?_, ?_, hs.free_le, hfree⟩
    · rw [hheld, node_mem_toFinset, List.mem_append]
    · rw [hheld, card_allocationsOf_list hs.nodup, List.length_append]
  · exact .inl ⟨a', hcreate⟩

/-- A run with a failed enqueue. -/
theorem linkedQueue_frees_refused :
    ∃ q held a' s, createWithBlocks (α := ℕ) ⟨fun n => decide (n < 3)⟩ =
        (some q, some held, a') ∧
      [.enqueue (some 7), .enqueue none, .dequeue].foldlM (ownedCall 4) ⟨q, held, a'⟩ = some s ∧
      s.queue.linkedFree (s.queue.fresh + 1) s.held = some ∅ := by
  rcases linkedQueue_frees (α := ℕ) [.enqueue (some 7), .enqueue none, .dequeue]
      ⟨fun n => decide (n < 3)⟩ (show 3 < 4 by decide) with
    ⟨a', hnone⟩ | ⟨q, held, a', s, -, -, hcreate, hrun, -, -, -, -, -, hfree⟩
  · cases (Prod.mk.inj hnone).1
  · exact ⟨q, held, a', s, hcreate, hrun, hfree⟩

/-! ## Clones -/

variable {dup : Duplicator α}

/-- The duplicator may make this of the payload. -/
def Duplicates (dup : Duplicator α) (data : Option α) (d : Duplicate α) : Prop :=
  ∃ a, (dup data a).1 = some d

/-- **What a clone method may leave**, with the given payloads still to clone. All of them have a
duplicate in the clone; or there is no clone and nothing is held for it, and the first so many have
been copied for nothing. -/
structure ClonedAs (dup : Duplicator α) (items done copies : List (Option α)) (r : Cloned α) :
    Prop where
  given_up : r.clone = none → r.held = ∅ ∧ ∃ front ds, front <+: items ∧
    List.Forall₂ (Duplicates dup) front ds ∧ r.copies = copies ++ ds.flatMap Duplicate.made
  returned : ∀ c, r.clone = some c → ∃ ds, List.Forall₂ (Duplicates dup) items ds ∧
    OwnsNodes c r.held (done ++ ds.map Duplicate.data) ∧
    r.copies = copies ++ ds.flatMap Duplicate.made

/-- One more payload has its duplicate in the clone. -/
theorem ClonedAs.cons {data : Option α} {done copies : List (Option α)} {d : Duplicate α}
    {r : Cloned α} (hd : Duplicates dup data d)
    (h : ClonedAs dup items (done ++ [d.data]) (copies ++ d.made) r) :
    ClonedAs dup (data :: items) done copies r := by
  constructor
  · intro hnone
    obtain ⟨hheld, front, ds, hfront, hds, hcopies⟩ := h.given_up hnone
    refine ⟨hheld, data :: front, d :: ds, (List.cons_prefix_cons).mpr ⟨rfl, hfront⟩,
      .cons hd hds, ?_⟩
    rw [hcopies, List.flatMap_cons, List.append_assoc]
  · intro c hc
    obtain ⟨ds, hds, howns, hcopies⟩ := h.returned c hc
    refine ⟨d :: ds, .cons hd hds, ?_, ?_⟩
    · rwa [List.append_assoc] at howns
    · rw [hcopies, List.flatMap_cons, List.append_assoc]

variable (dup) in
/-- **The loop of the clone methods**, by induction on what is left of the source. -/
theorem cloneLoop_spec {fuel : ℕ} {cur : Option ℕ} {rest : List ℕ} (hrest : Follows q.next cur rest)
    (copy : Owned α) {done : List (Option α)} (hcopy : OwnsNodes copy.queue copy.held done)
    (copies : List (Option α)) (hfuel : rest.length < fuel) :
    ∃ r, cloneLoop dup q fuel cur copy copies = some r ∧
      ClonedAs dup (rest.map q.data) done copies r ∧
      ((∀ data, ∃ d, dup data .always = (some d, .always)) → copy.allocator = .always →
        r.clone ≠ none) := by
  induction rest generalizing fuel cur copy done copies with
  | nil =>
    obtain ⟨fuel, rfl⟩ : ∃ k, fuel = k + 1 := ⟨fuel - 1, by omega⟩
    obtain rfl : cur = none := hrest
    refine ⟨⟨some copy.queue, copy.held, copies, copy.allocator⟩, rfl, ⟨nofun, ?_⟩,
      fun _ _ => nofun⟩
    intro c hc
    obtain rfl := Option.some.inj hc
    exact ⟨[], .nil, by rwa [List.map_nil, List.append_nil], (List.append_nil _).symm⟩
  | cons node rest ih =>
    obtain ⟨fuel, rfl⟩ : ∃ k, fuel = k + 1 := ⟨fuel - 1, by omega⟩
    rw [List.length_cons] at hfuel
    obtain ⟨rfl, hrest⟩ := hrest
    rw [cloneLoop, List.map_cons]
    rcases hdup : dup (q.data node) copy.allocator with ⟨_ | d, a⟩
    · -- the copier returns `NULL`, and the copies before it are lost
      refine ⟨⟨none, ∅, copies, a⟩, ?_, ⟨fun _ => ?_, nofun⟩, ?_⟩
      · dsimp only
        rw [hcopy.linkedFree (Nat.lt_succ_self _)]
        rfl
      · exact ⟨rfl, [], [], List.nil_prefix, .nil, (List.append_nil _).symm⟩
      · intro hnever halways
        obtain ⟨d, hd⟩ := hnever (q.data node)
        rw [halways, hd] at hdup
        cases hdup
    · have hd : Duplicates dup (q.data node) d := ⟨copy.allocator, by rw [hdup]⟩
      obtain ⟨e, copy', a', henqueue, hkeeps, hcases⟩ := hcopy.enqueue d.data a
      dsimp only
      rw [henqueue]
      rcases hcases with ⟨rfl, hcopy'⟩ | ⟨rfl, rfl, hfailed⟩
      · obtain ⟨r, hrun, hcloned, hexists⟩ := ih hrest
          ⟨copy', handOut copy.queue.fresh copy'.fresh copy.held, a'⟩ hcopy' (copies ++ d.made)
          (show rest.length < fuel by omega)
        refine ⟨r, hrun, hcloned.cons hd, ?_⟩
        intro hnever halways
        refine hexists hnever ?_
        obtain ⟨d', hd'⟩ := hnever (q.data node)
        rw [halways, hd'] at hdup
        cases hdup
        exact hkeeps rfl
      · -- the enqueue fails, and the copy it was for is lost as well
        refine ⟨⟨none, ∅, copies ++ d.made, a'⟩, ?_, ⟨fun _ => ?_, nofun⟩, ?_⟩
        · dsimp only
          rw [handOut_self, hcopy.linkedFree (Nat.lt_succ_self _)]
          rfl
        · refine ⟨rfl, [q.data node], [d], ?_, .cons hd .nil, ?_⟩
          · exact (List.cons_prefix_cons).mpr ⟨rfl, List.nil_prefix⟩
          · rw [List.flatMap_cons, List.flatMap_nil, List.append_nil]
        · intro hnever halways
          obtain ⟨d', hd'⟩ := hnever (q.data node)
          rw [halways, hd'] at hdup
          cases hdup
          cases hfailed

variable (dup) in
/-- **Both clone methods.** -/
theorem cloneWith_spec (h : Describes q nodes free items) (a : Allocator) {fuel : ℕ}
    (hfuel : items.length < fuel) :
    ∃ r, cloneWith dup fuel q a = some r ∧ ClonedAs dup items [] [] r ∧
      ((∀ data, ∃ d, dup data .always = (some d, .always)) → a = .always → r.clone ≠ none) := by
  rw [← h.data_eq] at hfuel ⊢
  rw [List.length_map] at hfuel
  rw [cloneWith]
  rcases createWithBlocks_cases (α := α) a with ⟨copy, a', hcreate, hcopy⟩ | ⟨a', hcreate⟩
  · obtain ⟨r, hrun, hcloned, hexists⟩ := cloneLoop_spec dup h.queue_follows
      ⟨copy, allocationsOf ∅, a'⟩ ⟨[], [], hcopy, rfl⟩ [] hfuel
    refine ⟨r, ?_, hcloned, fun hnever halways => hexists hnever ?_⟩
    · rw [hcreate]
      exact hrun
    · rw [halways] at hcreate
      exact (congrArg (fun p => p.2.2) hcreate).symm
  · refine ⟨⟨none, ∅, [], a'⟩, ?_, ⟨fun _ => ?_, nofun⟩, ?_⟩
    · rw [hcreate]
      rfl
    · exact ⟨rfl, [], [], List.nil_prefix, .nil, rfl⟩
    · intro _ halways
      rw [halways] at hcreate
      cases hcreate

/-- What a clone is good for: it serves its payloads first in, first out, and `linked_free` leaves
nothing of it. -/
structure Serviceable (c : LinkedQueueImpl α) (held : Finset Allocation)
    (items : List (Option α)) : Prop where
  fifo : ∀ (calls : List (QueueCall α)) (a : Allocator) (fuel : ℕ),
    items.length + calls.length < fuel → ∃ results c' a' left,
      c.run fuel a calls = some (results, c', a') ∧ Fifo items calls results left
  frees : c.linkedFree (c.fresh + 1) held = some ∅

theorem OwnsNodes.serviceable (h : OwnsNodes q held items) : Serviceable q held items where
  fifo := by
    intro calls a fuel hfuel
    obtain ⟨nodes, free, hq, -⟩ := h
    have hrefines : Refines q ⟨items, free.length⟩ := ⟨nodes, free, hq, rfl⟩
    obtain ⟨results, q', a', ab', hrun, -, hfifo⟩ := hrefines.run hfuel a
    exact ⟨results, q', a', ab'.items, hrun, hfifo⟩
  frees := h.linkedFree (Nat.lt_succ_self _)

/-- A shallow clone has the payloads themselves, and nothing is made for them. -/
theorem forall₂_shallow {ds : List (Duplicate α)}
    (h : List.Forall₂ (Duplicates fun data a => (some ⟨data, []⟩, a)) items ds) :
    ds.map Duplicate.data = items ∧ ds.flatMap Duplicate.made = [] := by
  induction h with
  | nil => exact ⟨rfl, rfl⟩
  | cons hdup _ ih =>
    obtain ⟨a, hdup⟩ := hdup
    obtain rfl := Option.some.inj hdup
    exact ⟨congrArg (List.cons _) ih.1, ih.2⟩

/-- The second payload is a copy that the copier makes of the first. -/
def CopiedTo (copier : Option α → Allocator → Option α × Allocator) (data data' : Option α) :
    Prop :=
  ∃ v b, (copier data b).1 = some v ∧ data' = some v

/-- A deep clone has the copies, and they are what is made. -/
theorem forall₂_deep {copier : Option α → Allocator → Option α × Allocator}
    {ds : List (Duplicate α)} (h : List.Forall₂ (Duplicates (copied copier)) items ds) :
    List.Forall₂ (CopiedTo copier) items (ds.map Duplicate.data) ∧
      ds.flatMap Duplicate.made = ds.map Duplicate.data := by
  induction h with
  | nil => exact ⟨.nil, rfl⟩
  | cons hdup _ ih =>
    obtain ⟨b, hdup⟩ := hdup
    rw [copied] at hdup
    split at hdup
    · cases hdup
    · next v b' hcopier =>
      obtain rfl := Option.some.inj hdup
      exact ⟨.cons ⟨v, b, by rw [hcopier], rfl⟩ ih.1, congrArg (List.cons _) ih.2⟩

/-- **A clone has the payloads in order, or nothing is held for it.** After every run of calls and
whatever allocations fail, `linked_clone_shallow` returns a queue of the same payloads, and
`linked_clone_deep` one of the non-`NULL` copies that the copier makes of them; or they return
nothing, and all blocks of the half-made clone have been given back. The copies are not: those made
until then are of the first so many payloads, and they are in no queue. With allocations succeeding,
a shallow clone is returned, and so is a deep one if the copier never returns `NULL`. -/
theorem linkedQueue_clones {a a₀ : Allocator} {q : LinkedQueueImpl α}
    (hcreate : create a = (some q, a₀)) (calls : List (QueueCall α))
    (copier : Option α → Allocator → Option α × Allocator) (b : Allocator) {fuel : ℕ}
    (hfuel : calls.length < fuel) :
    ∃ results q' a' items, q.run fuel a₀ calls = some (results, q', a') ∧
      Fifo [] calls results items ∧
      (∃ r, linkedCloneShallow (items.length + 1) q' b = some r ∧ r.copies = [] ∧
        (r.clone = none → r.held = ∅) ∧ (∀ c, r.clone = some c → Serviceable c r.held items) ∧
        (b = .always → r.clone ≠ none)) ∧
      ∃ r, linkedCloneDeep copier (items.length + 1) q' b = some r ∧
        (r.clone = none → r.held = ∅ ∧
          ∃ front, front <+: items ∧ List.Forall₂ (CopiedTo copier) front r.copies) ∧
        (∀ c, r.clone = some c →
          List.Forall₂ (CopiedTo copier) items r.copies ∧ Serviceable c r.held r.copies) ∧
        (b = .always → (∀ data, ∃ v, copier data .always = (some v, .always)) →
          r.clone ≠ none) := by
  have hq : Refines q ⟨[], 0⟩ := ⟨[], [], create_describes hcreate, rfl⟩
  obtain ⟨results, q', a', ab', hrun, ⟨nodes, free, hdesc, -⟩, hfifo⟩ :=
    hq.run (show 0 + calls.length < fuel by omega) a₀
  refine ⟨results, q', a', ab'.items, hrun, hfifo, ?_, ?_⟩
  · obtain ⟨r, hclone, hcloned, hexists⟩ :=
      cloneWith_spec (fun data a => (some ⟨data, []⟩, a)) hdesc b (Nat.lt_succ_self _)
    refine ⟨r, hclone, ?_, fun hnone => (hcloned.given_up hnone).1, ?_,
      hexists fun data => ⟨_, rfl⟩⟩
    · cases hr : r.clone with
      | none =>
        obtain ⟨-, front, ds, -, hds, hcopies⟩ := hcloned.given_up hr
        rw [hcopies, (forall₂_shallow hds).2, List.nil_append]
      | some c =>
        obtain ⟨ds, hds, -, hcopies⟩ := hcloned.returned c hr
        rw [hcopies, (forall₂_shallow hds).2, List.nil_append]
    · intro c hc
      obtain ⟨ds, hds, howns, -⟩ := hcloned.returned c hc
      rw [(forall₂_shallow hds).1] at howns
      exact howns.serviceable
  · obtain ⟨r, hclone, hcloned, hexists⟩ :=
      cloneWith_spec (copied copier) hdesc b (Nat.lt_succ_self _)
    refine ⟨r, hclone, ?_, ?_, ?_⟩
    · intro hnone
      obtain ⟨hheld, front, ds, hfront, hds, hcopies⟩ := hcloned.given_up hnone
      obtain ⟨hcopied, hmade⟩ := forall₂_deep hds
      rw [hcopies, hmade]
      exact ⟨hheld, front, hfront, hcopied⟩
    · intro c hc
      obtain ⟨ds, hds, howns, hcopies⟩ := hcloned.returned c hc
      obtain ⟨hcopied, hmade⟩ := forall₂_deep hds
      rw [hcopies, hmade]
      exact ⟨hcopied, howns.serviceable⟩
    · intro hb hnever
      refine hexists (fun data => ?_) hb
      obtain ⟨v, hv⟩ := hnever data
      exact ⟨_, by rw [copied, hv]⟩

/-- The copier makes ten times the number, and knows no copy of 9. The shallow clone is returned;
the deep one is given up, and the copy of 7 is lost. -/
theorem linkedQueue_clones_refused :
    ∃ (results : List (QueueResult ℕ)) (q' : LinkedQueueImpl ℕ) (a' : Allocator),
      run 4 ⟨fun _ => none, fun _ => none, none, none, 0, none, 0, 0⟩ .always
        [.enqueue (some 7), .enqueue (some 9), .enqueue none] = some (results, q', a') ∧
      Fifo [] [.enqueue (some 7), .enqueue (some 9), .enqueue none] results
        [some 7, some 9, none] ∧
      (∃ r c, linkedCloneShallow 4 q' .always = some r ∧ r.clone = some c ∧ r.copies = [] ∧
        Serviceable c r.held [some 7, some 9, none]) ∧
      ∃ r, linkedCloneDeep (fun data a => ((data.filter (· ≠ 9)).map (10 * ·), a)) 4 q' .always =
        some r ∧ r.clone = none ∧ r.held = ∅ ∧ r.copies = [some 70] := by
  obtain ⟨results, q', a', items, hrun, hfifo, ⟨r, hshallow, hcopies, -, hreturned, hexists⟩, r',
      hdeep, hgiven, -, -⟩ :=
    linkedQueue_clones (show create .always = _ from rfl)
      [.enqueue (some 7), .enqueue (some 9), .enqueue none]
      (fun data a => ((data.filter (· ≠ 9)).map (10 * ·), a)) .always (show 3 < 4 by decide)
  -- all three enqueues succeed
  obtain ⟨rfl, rfl, rfl⟩ : [.code .success, .code .success, .code .success] = results ∧ _ = q' ∧
      Allocator.always = a' := by
    have hpair := Option.some.inj ((show run _ _ _ _ = some (_, _, _) from rfl).symm.trans hrun)
    exact ⟨congrArg Prod.fst hpair, congrArg (fun p => p.2.1) hpair,
      congrArg (fun p => p.2.2) hpair⟩
  obtain rfl : [some 7, some 9, none] = items := by
    rcases hfifo with _ | ⟨⟨⟩, _ | ⟨⟨⟩, _ | ⟨⟨⟩, _ | _⟩⟩⟩
    rfl
  refine ⟨_, _, _, hrun, hfifo, ?_, r', hdeep, ?_⟩
  · cases hclone : r.clone with
    | none => exact absurd hclone (hexists rfl)
    | some c => exact ⟨r, c, hshallow, hclone, hcopies, hreturned c hclone⟩
  · have hlost := congrArg (Option.map fun r => (r.clone.isNone, r.copies)) hdeep
    have hlost := Option.some.inj (hlost.symm.trans (show _ = some (true, [some 70]) by decide))
    have hnone := Option.isNone_iff_eq_none.mp (congrArg Prod.fst hlost)
    exact ⟨hnone, (hgiven hnone).1, congrArg Prod.snd hlost⟩

end LinkedQueueImpl

end OvaLib
