import OvaLib.Attempts
import OvaLib.Graph.ConnectedComponents
import OvaLib.Graph.Dijkstra
import OvaLib.Graph.Prim
import OvaLib.Graph.StrongComponents

/-!
# The allocations of the loops

How many allocations `graph_dijkstra_impl`, `graph_mst_prim_impl`, `graph_connected_components_impl`
and `graph_strongly_connected_components_impl` make once they have set up their variables, while
none of them fails: records of the queue and the chunks they come from, arrays that grow, queue
nodes, and a list for each component. The counts follow the functions line by line.

## What a count is for

Whether an answer of these functions can be relied on depends on the attempts that the call makes,
and not on those that it might have made. So the condition has to name a number, and the number has
to be that of the call at hand: it depends on the graph, on the order in which vertices come up, and
on how full the containers are at each moment.

## Implementation notes

`Attempts f s n` says that from the state `s` the function makes `n` attempts while none fails, and
that an allocator which grants them leads to the same result. Such functions compose, with the
counts added; so every count is a definition by the recursion of its function, and every lemma is
proved by that recursion.

Each count is about the failure-free run. This is enough: as long as the attempts made so far were
granted, the run is the failure-free one.

## Scope

Growth counts as one attempt for an array that is full, and as none for one that is as large as it
gets, where the call gives up before it asks. A queue node that is left over from an earlier use is
taken without an attempt.

## Main results

* `DijkstraState.attempts_loop`, `PrimState.attempts_loop`, `ComponentsState.attempts_turns`,
  `attempts_tarjanRoots` — the counts are right
-/

namespace OvaLib

open Allocating

/-! ## The containers

An operation of a container makes no attempt, or one. -/

namespace ArrayList

variable {α : Type*}

/-- A full list asks for a larger array, unless it is as large as it gets. -/
def insertAttempts (l : ArrayList α) : ℕ :=
  if l.items.length ≥ l.capacity ∧ safeDoubleCapacity l.capacity ≠ l.capacity then 1 else 0

theorem insert_granted (l : ArrayList α) (item : α) {a : Allocator}
    (ha : a.Grants l.insertAttempts) :
    l.insert item l.size a = ((l.insert item l.size .always).1, (l.insert item l.size .always).2.1,
      a.skip l.insertAttempts) ∧ (l.insert item l.size .always).2.2 = .always := by
  have hindex : ¬ ((l.size : ℤ) < 0 ∨ (l.size : ℤ) > l.items.length) := by
    rw [size]
    omega
  simp only [insert]
  rw [if_neg hindex, if_neg hindex]
  simp only [ensureCapacity]
  rw [insertAttempts] at ha ⊢
  by_cases hfull : l.items.length ≥ l.capacity
  · by_cases hmax : safeDoubleCapacity l.capacity = l.capacity
    · simp [hfull, hmax]
    · rw [if_pos ⟨hfull, hmax⟩] at ha ⊢
      simp [hfull, hmax, ha.alloc]
  · simp [hfull]

/-- The list for a component: without items, and room for four. -/
def fresh : ArrayList α := ⟨[], 4, Nat.zero_le _, by decide⟩

theorem create_four_granted {a : Allocator} (ha : a.Grants 3) :
    create 4 a = (some (fresh : ArrayList α), a.skip 3) := by
  have htwo : (a.skip 1).alloc = (true, a.skip 2) := by
    rw [Allocator.Grants.alloc (n := 1) (ha.right (n := 1)), Allocator.skip_skip]
  have hthree : (a.skip 2).alloc = (true, a.skip 3) := by
    rw [Allocator.Grants.alloc (n := 0) (ha.right (n := 2)), Allocator.skip_skip]
  simp [create, ha.alloc, htwo, hthree, fresh, intMax]

end ArrayList

namespace ArrayStack

variable {α : Type*}

def pushAttempts (s : ArrayStack α) : ℕ := s.impl.insertAttempts

theorem push_granted (s : ArrayStack α) (item : α) {a : Allocator} (ha : a.Grants s.pushAttempts) :
    s.push item a = ((s.push item .always).1, (s.push item .always).2.1, a.skip s.pushAttempts) ∧
      (s.push item .always).2.2 = .always := by
  obtain ⟨heq, hall⟩ := s.impl.insert_granted item ha
  rw [push, push, heq]
  exact ⟨rfl, hall⟩

end ArrayStack

namespace LinkedQueue

variable {α : Type*}

/-- A node is asked for when none is left over. -/
def enqueueAttempts (q : LinkedQueue α) : ℕ := if 0 < q.freelistSize then 0 else 1

theorem enqueue_granted (q : LinkedQueue α) (data : α) {a : Allocator}
    (ha : a.Grants q.enqueueAttempts) :
    q.enqueue data a = ((q.enqueue data .always).1, (q.enqueue data .always).2.1,
      a.skip q.enqueueAttempts) ∧ (q.enqueue data .always).2.2 = .always := by
  rw [enqueue, enqueue]
  rw [enqueueAttempts] at ha ⊢
  by_cases hfree : 0 < q.freelistSize
  · simp [hfree]
  · rw [if_neg hfree] at ha ⊢
    simp [hfree, ha.alloc]

end LinkedQueue

namespace BinaryHeap

variable {α : Type*}

/-- A full heap asks for a larger array, unless it is as large as it gets. -/
def putAttempts (h : BinaryHeap α) : ℕ :=
  if h.data.length = h.capacity ∧ safeDoubleCapacity h.capacity ≠ h.capacity then 1 else 0

theorem put_granted (cmp : α → α → ℤ) (h : BinaryHeap α) (item : α) {a : Allocator}
    (ha : a.Grants h.putAttempts) :
    h.put cmp item a = ((h.put cmp item .always).1, (h.put cmp item .always).2.1,
      a.skip h.putAttempts) ∧ (h.put cmp item .always).2.2 = .always := by
  rw [put, put]
  simp only [ensureRoom]
  rw [putAttempts] at ha ⊢
  by_cases hfull : h.data.length = h.capacity
  · by_cases hmax : safeDoubleCapacity h.capacity = h.capacity
    · simp [hfull, hmax]
    · rw [if_pos ⟨hfull, hmax⟩] at ha ⊢
      simp [hfull, hmax, ha.alloc]
  · simp [hfull]

end BinaryHeap

namespace Graph

namespace PqArena

/-- A chunk that is used up is followed by another one. -/
def allocAttempts (arena : PqArena) : ℕ :=
  match arena.head with
  | some (used, capacity) => if used < capacity then 0 else 1
  | none => 1

theorem alloc_granted (arena : PqArena) {a : Allocator} (ha : a.Grants arena.allocAttempts) :
    ∃ arena', arena.alloc a = (some arena', a.skip arena.allocAttempts) ∧
      arena.alloc .always = (some arena', .always) := by
  rw [allocAttempts] at ha ⊢
  simp only [alloc, newChunk]
  cases hhead : arena.head with
  | none =>
    rw [hhead] at ha
    simp [ha.alloc]
  | some c =>
    rw [hhead] at ha
    dsimp only at ha ⊢
    split
    · exact ⟨_, rfl, rfl⟩
    · next hused =>
      rw [if_neg hused] at ha
      simp [ha.alloc]

end PqArena

/-! ## Dijkstra's algorithm

An arena chunk and a growth of the queue are the two things that a push may ask for. -/

namespace DijkstraState

variable {g : GraphImpl} {st : DijkstraState}

instance : Allocating DijkstraState := ⟨fun st a => { st with allocator := a }, fun _ _ _ => rfl⟩

/-- A record from the arena, and a place in the queue for it. -/
def pushAttempts (st : DijkstraState) : ℕ := st.arena.allocAttempts + st.pq.putAttempts

theorem attempts_push (node : PqNode) (h : Unfailing st) :
    Attempts (fun st => st.push node) st st.pushAttempts := by
  have halways : st.allocator = .always := (congrArg allocator h).symm
  intro a ha
  obtain ⟨arena, hgranted, hfree⟩ := PqArena.alloc_granted st.arena ha.left
  obtain ⟨hput, hfree'⟩ := st.pq.put_granted pqNodeCmp node ha.right
  simp only [push, withAllocator]
  rw [hgranted, halways, hfree]
  dsimp only
  rw [hput, pushAttempts, Allocator.skip_skip]

/-- An edge that improves a label is pushed. -/
def edgeAttempts (v : ℕ) (st : DijkstraState) (e : ℕ × WithTop ℚ) : ℕ :=
  if st.dist v + e.2 < st.dist e.1 then st.pushAttempts else 0

theorem attempts_relaxEdge (v : ℕ) (st : DijkstraState) (e : ℕ × WithTop ℚ) (h : Unfailing st) :
    Attempts (fun st => st.relaxEdge v e) st (st.edgeAttempts v e) := by
  have hset : Unfailing (st.setDist e.1 (st.dist v + e.2)) :=
    congrArg (setDist · e.1 (st.dist v + e.2)) h
  intro a ha
  simp only [relaxEdge]
  rw [edgeAttempts] at ha ⊢
  by_cases hlt : st.dist v + e.2 < st.dist e.1
  · rw [if_pos hlt] at ha ⊢
    rw [if_pos hlt]
    exact (if_pos hlt).trans (attempts_push ⟨e.1, st.dist v + e.2⟩ hset a ha)
  · rw [if_neg hlt, if_neg hlt]
    exact if_neg hlt

/-- A turn: the edges of the vertex that is taken out, unless its record is out of date. -/
def turnAttempts (g : GraphImpl) (st : DijkstraState) : ℕ :=
  match st.pq.pop pqNodeCmp with
  | (none, _) => 0
  | (some cur, pq) =>
    if cur.dist > st.dist cur.vertex then 0
    else
      foldAttempts (relaxEdge cur.vertex) (edgeAttempts cur.vertex) (g.outEdges cur.vertex)
        { st with pq := pq }

theorem attempts_step (g : GraphImpl) (st : DijkstraState) (h : Unfailing st) :
    Attempts (fun st => st.step g) st (st.turnAttempts g) := by
  intro a ha
  simp only [step, withAllocator]
  rw [turnAttempts] at ha ⊢
  cases hpop : st.pq.pop pqNodeCmp with
  | mk cur pq =>
    rw [hpop] at ha
    cases cur with
    | none => rfl
    | some cur =>
      have hpq : Unfailing { st with pq := pq } := by
        show ({ st with pq := pq, allocator := .always } : DijkstraState) = { st with pq := pq }
        rw [show st.allocator = .always from (congrArg allocator h).symm]
      dsimp only at ha ⊢
      by_cases hstale : cur.dist > st.dist cur.vertex
      · rw [if_pos hstale, if_pos hstale, if_pos hstale]
        rfl
      · rw [if_neg hstale] at ha
        rw [if_neg hstale, if_neg hstale, if_neg hstale]
        exact congrArg some (Attempts.foldl (attempts_relaxEdge cur.vertex) _ _ hpq a ha)

theorem turnAttempts_of_none {g : GraphImpl} {st : DijkstraState} (h : st.step g = none) :
    st.turnAttempts g = 0 := by
  rw [step] at h
  rw [turnAttempts]
  cases hpop : st.pq.pop pqNodeCmp with
  | mk cur pq =>
    cases cur with
    | none => rfl
    | some cur =>
      rw [hpop] at h
      dsimp only at h
      split at h <;> cases h

/-- **The main loop.** -/
theorem attempts_loop (g : GraphImpl) (fuel : ℕ) (st : DijkstraState) (h : Unfailing st) :
    Attempts (fun st => st.loop g fuel) st (loopAttempts (step g) (turnAttempts g) fuel st) := by
  have hsucc : ∀ fuel (st : DijkstraState),
      st.loop g (fuel + 1) = (st.step g).elim (some st) fun st => st.loop g fuel := by
    intro fuel st
    rw [loop]
    cases st.step g <;> rfl
  exact @Attempts.loop _ _ _ _ (fun fuel st => st.loop g fuel) (fun _ => rfl) hsucc
    (attempts_step g) (fun _ _ => turnAttempts_of_none) fuel st h

end DijkstraState

/-! ## Prim's algorithm

An edge of the tree is an object with a struct behind it, hence two blocks. -/

namespace PrimState

instance : Allocating PrimState := ⟨fun st a => { st with allocator := a }, fun _ _ _ => rfl⟩

/-- An edge to a vertex that is not in the tree gets a record and a place in the queue. -/
def edgeAttempts (st : PrimState) (e : ℕ × WithTop ℚ) : ℕ :=
  if st.inMst e.1 then 0 else st.arena.allocAttempts + st.pq.putAttempts

theorem attempts_pushEdge (fromVertex : ℕ) (st : PrimState) (e : ℕ × WithTop ℚ)
    (h : Unfailing st) : Attempts (fun st => st.pushEdge fromVertex e) st (st.edgeAttempts e) := by
  have halways : st.allocator = .always := (congrArg allocator h).symm
  intro a ha
  simp only [pushEdge, withAllocator, primArenaAlloc]
  rw [edgeAttempts] at ha ⊢
  by_cases hin : st.inMst e.1 = true
  · rw [if_pos hin, if_pos hin, if_pos hin]
    rfl
  · rw [if_neg hin] at ha
    rw [if_neg hin, if_neg hin, if_neg hin]
    obtain ⟨arena, hgranted, hfree⟩ := PqArena.alloc_granted st.arena ha.left
    obtain ⟨hput, hfree'⟩ := st.pq.put_granted primCandCmp ⟨fromVertex, e.1, e.2⟩ ha.right
    rw [hgranted, halways, hfree]
    dsimp only
    rw [hput, Allocator.skip_skip]

def pushEdgesAttempts (g : GraphImpl) (st : PrimState) (fromVertex : ℕ) : ℕ :=
  foldAttempts (pushEdge fromVertex) edgeAttempts (g.outEdges fromVertex) st

theorem attempts_pushEdges (g : GraphImpl) (st : PrimState) (fromVertex : ℕ) (h : Unfailing st) :
    Attempts (fun st => st.pushEdges g fromVertex) st (st.pushEdgesAttempts g fromVertex) :=
  Attempts.foldl (attempts_pushEdge fromVertex) _ _ h

/-- The state after a candidate was taken into the tree, before its edges are pushed. -/
def taken (st : PrimState) (pq : BinaryHeap PrimCand) (c : PrimCand) : PrimState :=
  { st with
    inMst := Function.update st.inMst c.toVertex true
    pq := pq
    mst := (st.mst.insert ⟨c.fromVertex, c.toVertex, c.weight⟩ st.mst.size .always).2.1
    allocator := .always }

/-- A turn: two blocks for the edge object, room for it in the list, and the edges of its head. -/
def turnAttempts (g : GraphImpl) (st : PrimState) : ℕ :=
  if 0 < st.pq.size ∧ (st.mst.size : ℤ) < g.vertexCount - 1 then
    match st.pq.pop primCandCmp with
    | (none, _) => 0
    | (some c, pq) =>
      if st.inMst c.toVertex then 0
      else 2 + st.mst.insertAttempts + (st.taken pq c).pushEdgesAttempts g c.toVertex
  else 0

theorem attempts_step (g : GraphImpl) (st : PrimState) (h : Unfailing st) :
    Attempts (fun st => st.step g) st (st.turnAttempts g) := by
  have halways : st.allocator = .always := (congrArg allocator h).symm
  intro a ha
  simp only [step, withAllocator, createWeightedEdge]
  rw [turnAttempts] at ha ⊢
  by_cases hmore : 0 < st.pq.size ∧ (st.mst.size : ℤ) < g.vertexCount - 1
  · rw [if_pos hmore] at ha
    rw [if_pos hmore, if_pos hmore, if_pos hmore]
    cases hpop : st.pq.pop primCandCmp with
    | mk c pq =>
      rw [hpop] at ha
      cases c with
      | none => rfl
      | some c =>
        dsimp only at ha ⊢
        by_cases hin : st.inMst c.toVertex = true
        · rw [if_pos hin, if_pos hin, if_pos hin]
          rfl
        · rw [if_neg hin] at ha
          rw [if_neg hin, if_neg hin, if_neg hin]
          have htwo := ha.left.left
          have hsecond : (a.skip 1).alloc = (true, a.skip 2) := by
            rw [Allocator.Grants.alloc (n := 0) (htwo.right (n := 1)), Allocator.skip_skip]
          obtain ⟨hinsert, hfree⟩ := st.mst.insert_granted ⟨c.fromVertex, c.toVertex, c.weight⟩
            (ha.left.right (n := 2))
          have hpush := attempts_pushEdges g (st.taken pq c) c.toVertex rfl _ ha.right
          rw [Allocator.Grants.alloc (n := 1) htwo, halways]
          simp only [Bool.not_true, Bool.false_eq_true, if_false, Allocator.alloc_always]
          rw [hsecond]
          simp only [Bool.not_true, Bool.false_eq_true, if_false]
          rw [hinsert]
          simp only [withAllocator, Allocator.skip_skip] at hpush ⊢
          rw [hfree]
          exact congrArg some hpush
  · rw [if_neg hmore, if_neg hmore, if_neg hmore]
    rfl

theorem turnAttempts_of_none {g : GraphImpl} {st : PrimState} (h : Unfailing st)
    (hstep : st.step g = none) : st.turnAttempts g = 0 := by
  have halways : st.allocator = .always := (congrArg allocator h).symm
  rw [step] at hstep
  rw [turnAttempts]
  by_cases hmore : 0 < st.pq.size ∧ (st.mst.size : ℤ) < g.vertexCount - 1
  · rw [if_pos hmore] at hstep ⊢
    cases hpop : st.pq.pop primCandCmp with
    | mk c pq =>
      cases c with
      | none => rfl
      | some c =>
        rw [hpop] at hstep
        dsimp only at hstep
        by_cases hmst : st.inMst c.toVertex
        · rw [if_pos hmst] at hstep
          cases hstep
        · -- the edge object is there, so the turn takes place
          rw [if_neg hmst, halways] at hstep
          simp [createWeightedEdge] at hstep
  · rw [if_neg hmore]

/-- **The main loop.** -/
theorem attempts_loop (g : GraphImpl) (fuel : ℕ) (st : PrimState) (h : Unfailing st) :
    Attempts (fun st => st.loop g fuel) st (loopAttempts (step g) (turnAttempts g) fuel st) := by
  have hsucc : ∀ fuel (st : PrimState),
      st.loop g (fuel + 1) = (st.step g).elim (some st) fun st => st.loop g fuel := by
    intro fuel st
    rw [loop]
    cases st.step g <;> rfl
  exact @Attempts.loop _ _ _ _ (fun fuel st => st.loop g fuel) (fun _ => rfl) hsucc
    (attempts_step g) (fun _ => turnAttempts_of_none) fuel st h

end PrimState

/-! ## Connected components

The searches share a queue, whose nodes are used again, so later searches ask for fewer of them. -/

namespace ComponentsState

variable {g : GraphImpl}

instance : Allocating ComponentsState := ⟨fun st a => { st with allocator := a }, fun _ _ _ => rfl⟩

theorem attempts_enqueue (st : ComponentsState) (v : ℕ) (h : Unfailing st) :
    Attempts (fun st => st.enqueue v) st st.q.enqueueAttempts := by
  have halways : st.allocator = .always := (congrArg allocator h).symm
  intro a ha
  obtain ⟨henqueue, hfree⟩ := st.q.enqueue_granted v ha
  simp only [enqueue, withAllocator]
  rw [henqueue, halways]

/-- A vertex that is met for the first time is put into the queue. -/
def followAttempts (st : ComponentsState) (e : ℕ × WithTop ℚ) : ℕ :=
  if st.visited e.1 then 0 else st.q.enqueueAttempts

theorem attempts_followEdge (st : ComponentsState) (e : ℕ × WithTop ℚ) (h : Unfailing st) :
    Attempts (fun st => st.followEdge e) st (st.followAttempts e) := by
  intro a ha
  simp only [followEdge, withAllocator]
  rw [followAttempts] at ha ⊢
  by_cases hvisited : st.visited e.1 = true
  · rw [if_pos hvisited, if_pos hvisited, if_pos hvisited]
    rfl
  · rw [if_neg hvisited] at ha
    rw [if_neg hvisited, if_neg hvisited, if_neg hvisited]
    exact attempts_enqueue st e.1 h a ha

/-- The state after a vertex was taken from the queue, before its edges are followed. -/
def dequeued (st : ComponentsState) (q : LinkedQueue ℕ) : ComponentsState :=
  { st with q := q, allocator := .always }

/-- A search: room in the list for each vertex, and the queue nodes for its edges. -/
def searchAttempts (g : GraphImpl) : ℕ → ComponentsState → ArrayList (Option ℕ) → ℕ
  | 0, _, _ => 0
  | fuel + 1, st, comp =>
    match st.q.dequeue with
    | (none, _) => 0
    | (some v, q) =>
      comp.insertAttempts +
        (foldAttempts followEdge followAttempts (g.outEdges v) (st.dequeued q) +
          searchAttempts g fuel ((g.outEdges v).foldl followEdge (st.dequeued q))
            (comp.insert (g.vertexPtrs v) comp.size .always).2.1)

theorem attempts_search (g : GraphImpl) : ∀ (fuel : ℕ) (st : ComponentsState)
    (comp : ArrayList (Option ℕ)), Unfailing st →
      Attempts (fun st => search g fuel st comp) st (searchAttempts g fuel st comp) := by
  intro fuel
  induction fuel with
  | zero => exact fun st comp _ => Attempts.none_made fun _ => rfl
  | succ fuel ih =>
    intro st comp h a ha
    have halways : st.allocator = .always := (congrArg allocator h).symm
    simp only [search, withAllocator]
    rw [searchAttempts] at ha ⊢
    cases hdequeue : st.q.dequeue with
    | mk v q =>
      rw [hdequeue] at ha
      cases v with
      | none => rfl
      | some v =>
        dsimp only at ha ⊢
        obtain ⟨hinsert, hfree⟩ := comp.insert_granted (g.vertexPtrs v) ha.left
        have hfold : Attempts (fun st => (g.outEdges v).foldl followEdge st) (st.dequeued q) _ :=
          Attempts.foldl attempts_followEdge (g.outEdges v) _ rfl
        have hedges := hfold _ ha.right.left
        have hrest := ih _ (comp.insert (g.vertexPtrs v) comp.size .always).2.1
          (hfold.unfailing rfl) _ ha.right.right
        simp only [withAllocator, Allocator.skip_skip] at hedges hrest
        rw [hinsert, halways]
        dsimp only
        rw [hfree]
        rw [Nat.add_assoc] at hrest
        exact (congrArg (fun st => search g fuel st _) hedges).trans hrest

/-- The state in which a search from `start` begins. -/
def started (st : ComponentsState) (start : ℕ) : ComponentsState :=
  { st with allocator := .always }.enqueue start

/-- A turn: three blocks for the list, the search, and room for the list among the components. -/
def turnAttempts (g : GraphImpl) (fuel : ℕ) (st : ComponentsState) (start : ℕ) : ℕ :=
  if !g.isValidVertex start ∨ st.visited start then 0
  else
    3 + (st.q.enqueueAttempts + (searchAttempts g fuel (st.started start) .fresh +
      (search g fuel (st.started start) .fresh).elim 0 fun r => r.1.components.insertAttempts))

theorem attempts_turn (g : GraphImpl) (fuel : ℕ) (st : ComponentsState) (start : ℕ)
    (h : Unfailing st) :
    Attempts (fun st => turn g fuel st start) st (turnAttempts g fuel st start) := by
  have halways : st.allocator = .always := (congrArg allocator h).symm
  intro a ha
  simp only [turn, withAllocator]
  rw [turnAttempts] at ha ⊢
  by_cases hskip : (!g.isValidVertex start) = true ∨ st.visited start = true
  · rw [if_pos hskip, if_pos hskip, if_pos hskip]
    rfl
  · rw [if_neg hskip] at ha
    rw [if_neg hskip, if_neg hskip, if_neg hskip, halways,
      ArrayList.create_four_granted (Allocator.grants_always 3),
      ArrayList.create_four_granted ha.left]
    have hqueue := attempts_enqueue { st with allocator := .always } start rfl
    have hsearch := attempts_search g fuel (st.started start) .fresh (hqueue.unfailing rfl)
    have henqueue : ({ st with allocator := a.skip 3 } : ComponentsState).enqueue start =
        withAllocator (st.started start) (a.skip (3 + st.q.enqueueAttempts)) := by
      rw [← Allocator.skip_skip]
      exact hqueue _ ha.right.left
    have hrun := hsearch _ ha.right.right.left
    have hdone := hsearch.unfailing (hqueue.unfailing rfl)
    dsimp only at hrun hdone ⊢
    rw [henqueue]
    rw [Allocator.skip_skip] at hrun
    rw [hrun]
    have hstarted : ComponentsState.enqueue { st with allocator := Allocator.always.skip 3 } start =
        st.started start := rfl
    rw [hstarted]
    cases hs : search g fuel (st.started start) .fresh with
    | none => rfl
    | some r =>
      obtain ⟨st', comp⟩ := r
      rw [hs] at ha hdone
      have hfree : st'.allocator = .always :=
        (congrArg (fun r => r.1.allocator) hdone.of_some).symm
      obtain ⟨hinsert, -⟩ := st'.components.insert_granted comp ha.right.right.right
      simp only [withAllocator, Option.map_some, Allocator.skip_skip, Option.elim_some] at hinsert ⊢
      rw [hinsert, hfree, Nat.add_assoc, Nat.add_assoc]

/-- **The loop over the vertices.** -/
theorem attempts_turns (g : GraphImpl) (fuel : ℕ) (vs : List ℕ) (st : ComponentsState)
    (h : Unfailing st) : Attempts (fun st => vs.foldlM (turn g fuel) st) st
      (foldAttemptsM (turn g fuel) (turnAttempts g fuel) vs st) :=
  Attempts.foldlM (attempts_turn g fuel) vs st h

end ComponentsState

/-! ## Strong components

The count of a call contains those of the calls it makes, so it is a recursion with the same fuel.
-/

namespace TarjanState

instance : Allocating TarjanState := ⟨fun st a => { st with allocator := a }, fun _ _ _ => rfl⟩

theorem attempts_visit (st : TarjanState) (v : ℕ) (h : Unfailing st) :
    Attempts (fun st => st.visit v) st st.stack.pushAttempts := by
  have halways : st.allocator = .always := (congrArg allocator h).symm
  intro a ha
  obtain ⟨hpush, -⟩ := st.stack.push_granted v ha
  simp only [visit, withAllocator]
  rw [hpush, halways]

/-- What follows an edge makes the attempts of the call for its head, if there is one. -/
def followAttempts (cost : TarjanState → ℕ → ℕ) (st : TarjanState) (e : ℕ × WithTop ℚ) : ℕ :=
  if st.index e.1 = -1 then cost st e.1 else 0

theorem attempts_followEdge {dfs : TarjanState → ℕ → Option TarjanState}
    {cost : TarjanState → ℕ → ℕ}
    (hdfs : ∀ st v, Unfailing st → Attempts (fun st => dfs st v) st (cost st v)) (v : ℕ)
    (st : TarjanState) (e : ℕ × WithTop ℚ) (h : Unfailing st) :
    Attempts (fun st => followEdge dfs v st e) st (followAttempts cost st e) := by
  intro a ha
  simp only [followEdge]
  rw [followAttempts] at ha ⊢
  change (if st.index e.1 = -1 then _ else _) = _
  by_cases hnew : st.index e.1 = -1
  · rw [if_pos hnew] at ha ⊢
    rw [if_pos hnew]
    have hrun := hdfs st e.1 h a ha
    dsimp only at hrun
    rw [if_pos hnew, hrun]
    cases dfs st e.1 with
    | none => rfl
    | some st' =>
      refine congrArg some ?_
      change (if st'.lowlink e.1 < st'.lowlink v then _ else _) = _
      split <;> rfl
  · rw [if_neg hnew, if_neg hnew, if_neg hnew]
    refine congrArg some ?_
    change (if st.onStack e.1 = true ∧ st.index e.1 < st.lowlink v then _ else _) = _
    split <;> rfl

/-- The loop that takes a component off the stack: room in the list for each entry. -/
def popAttempts (g : GraphImpl) (v : ℕ) : ℕ → TarjanState → ArrayList (Option ℕ) → ℕ
  | 0, _, _ => 0
  | n + 1, st, component =>
    match st.stack.pop with
    | (none, _) => 0
    | (some w, stack) =>
      component.insertAttempts +
        if w = v then 0
        else
          popAttempts g v n
            { st with
              stack := stack
              onStack := Function.update st.onStack w false
              allocator := .always }
            (component.insert (g.vertexPtrs w) component.size .always).2.1

theorem attempts_popComponent (g : GraphImpl) (v : ℕ) : ∀ (n : ℕ) (st : TarjanState)
    (component : ArrayList (Option ℕ)), Unfailing st →
      Attempts (fun st => popComponent g v n st component) st (popAttempts g v n st component) := by
  intro n
  induction n with
  | zero => exact fun st component _ => Attempts.none_made fun _ => rfl
  | succ n ih =>
    intro st component h a ha
    have halways : st.allocator = .always := (congrArg allocator h).symm
    simp only [popComponent, withAllocator]
    rw [popAttempts] at ha ⊢
    cases hpop : st.stack.pop with
    | mk w stack =>
      rw [hpop] at ha
      cases w with
      | none => rfl
      | some w =>
        dsimp only at ha ⊢
        obtain ⟨hinsert, hfree⟩ := component.insert_granted (g.vertexPtrs w) ha.left
        rw [hinsert, halways]
        dsimp only
        rw [hfree]
        by_cases hlast : w = v
        · rw [if_pos hlast, if_pos hlast, if_pos hlast]
          rfl
        · rw [if_neg hlast] at ha
          rw [if_neg hlast, if_neg hlast, if_neg hlast]
          have hrest := ih
            { st with
              stack := stack
              onStack := Function.update st.onStack w false
              allocator := .always }
            (component.insert (g.vertexPtrs w) component.size .always).2.1 rfl _ ha.right
          simp only [withAllocator, Allocator.skip_skip] at hrest
          exact hrest

/-- The end of a call: three blocks for the list, room in it for the component, and room among the
components for the list. -/
def finishAttempts (g : GraphImpl) (st : TarjanState) (v : ℕ) : ℕ :=
  if st.lowlink v = st.index v then
    3 + (popAttempts g v st.stack.size st .fresh +
      (popComponent g v st.stack.size st .fresh).1.outComponents.insertAttempts)
  else 0

theorem attempts_finish (g : GraphImpl) (st : TarjanState) (v : ℕ) (h : Unfailing st) :
    Attempts (fun st => st.finish g v) st (st.finishAttempts g v) := by
  have halways : st.allocator = .always := (congrArg allocator h).symm
  intro a ha
  simp only [finish, withAllocator]
  rw [finishAttempts] at ha ⊢
  by_cases hroot : st.lowlink v = st.index v
  · rw [if_pos hroot] at ha
    rw [if_pos hroot, if_pos hroot, if_pos hroot, halways,
      ArrayList.create_four_granted (Allocator.grants_always 3),
      ArrayList.create_four_granted ha.left]
    have hpop := attempts_popComponent g v st.stack.size st .fresh h
    have hrun := hpop _ ha.right.left
    have hdone := hpop.unfailing h
    have hst : ({ st with allocator := .always } : TarjanState) = st := h
    simp only [withAllocator, Allocator.skip_always, Allocator.skip_skip] at hrun hdone ⊢
    rw [hst, hrun]
    cases hcomponent : popComponent g v st.stack.size st .fresh with
    | mk st' component =>
      rw [hcomponent] at ha hdone
      have hfree : st'.allocator = .always := (congrArg (fun r => r.1.allocator) hdone).symm
      obtain ⟨hinsert, -⟩ := st'.outComponents.insert_granted component ha.right.right
      simp only [Allocator.skip_skip] at hinsert ⊢
      rw [hinsert, hfree, Nat.add_assoc]
  · rw [if_neg hroot, if_neg hroot, if_neg hroot]
    rfl

end TarjanState

open TarjanState

/-- A call of `tarjan_dfs`, with the calls it makes. -/
def tarjanAttempts (g : GraphImpl) : ℕ → TarjanState → ℕ → ℕ
  | 0, _, _ => 0
  | fuel + 1, st, v =>
    st.stack.pushAttempts +
      (foldAttemptsM (followEdge (g.tarjanDfs fuel) v) (followAttempts (tarjanAttempts g fuel))
          (g.outEdges v) (st.visit v) +
        ((g.outEdges v).foldlM (followEdge (g.tarjanDfs fuel) v) (st.visit v)).elim 0
          (finishAttempts g · v))

theorem attempts_tarjanDfs (g : GraphImpl) : ∀ (fuel : ℕ) (st : TarjanState) (v : ℕ),
    Unfailing st → Attempts (fun st => g.tarjanDfs fuel st v) st (tarjanAttempts g fuel st v) := by
  intro fuel
  induction fuel with
  | zero => exact fun st v _ => Attempts.none_made fun _ => rfl
  | succ fuel ih =>
    intro st v h
    have hvisit := attempts_visit st v h
    have hfold := Attempts.foldlM (attempts_followEdge ih v) (g.outEdges v) _ (hvisit.unfailing h)
    have hend := hfold.unfailing (hvisit.unfailing h)
    have hrun : (fun st => g.tarjanDfs (fuel + 1) st v) = fun st =>
        ((g.outEdges v).foldlM (followEdge (g.tarjanDfs fuel) v) (st.visit v)).bind fun st =>
          some (st.finish g v) := by
      funext st
      rw [GraphImpl.tarjanDfs]
      cases (g.outEdges v).foldlM (followEdge (g.tarjanDfs fuel) v) (st.visit v) <;> rfl
    have hfinish : ∀ st',
        (g.outEdges v).foldlM (followEdge (g.tarjanDfs fuel) v) (st.visit v) = some st' →
        Attempts (fun st => some (st.finish g v)) st'
          (((g.outEdges v).foldlM (followEdge (g.tarjanDfs fuel) v) (st.visit v)).elim 0
            (finishAttempts g · v)) := by
      intro st' hst'
      rw [hst'] at hend ⊢
      exact fun a ha => congrArg some (attempts_finish g st' v hend.of_some a ha)
    have hrest := hfold.bind hfinish
    rw [hrun, tarjanAttempts]
    exact hvisit.andThen hrest

/-- A vertex without an index starts a search. -/
def tarjanRootAttempts (g : GraphImpl) (fuel : ℕ) (st : TarjanState) (v : ℕ) : ℕ :=
  if !g.isValidVertex v ∨ st.index v ≠ -1 then 0 else tarjanAttempts g fuel st v

theorem attempts_tarjanRoot (g : GraphImpl) (fuel : ℕ) (st : TarjanState) (v : ℕ)
    (h : Unfailing st) :
    Attempts (fun st => g.tarjanRoot fuel st v) st (tarjanRootAttempts g fuel st v) := by
  intro a ha
  simp only [GraphImpl.tarjanRoot]
  rw [tarjanRootAttempts] at ha ⊢
  change (if (!g.isValidVertex v) = true ∨ st.index v ≠ -1 then _ else _) = _
  by_cases hskip : (!g.isValidVertex v) = true ∨ st.index v ≠ -1
  · rw [if_pos hskip, if_pos hskip, if_pos hskip]
    rfl
  · rw [if_neg hskip] at ha
    rw [if_neg hskip, if_neg hskip, if_neg hskip]
    exact attempts_tarjanDfs g fuel st v h a ha

/-- **The loop over the vertices.** -/
theorem attempts_tarjanRoots (g : GraphImpl) (fuel : ℕ) (vs : List ℕ) (st : TarjanState)
    (h : Unfailing st) : Attempts (fun st => vs.foldlM (g.tarjanRoot fuel) st) st
      (foldAttemptsM (g.tarjanRoot fuel) (tarjanRootAttempts g fuel) vs st) :=
  Attempts.foldlM (attempts_tarjanRoot g fuel) vs st h

end Graph

end OvaLib
