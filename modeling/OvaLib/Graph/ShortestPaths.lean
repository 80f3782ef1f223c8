import Mathlib.Algebra.Order.Ring.Rat
import OvaLib.Foundation.Labels
import OvaLib.Graph.Built
import OvaLib.Heap.BinaryHeap

/-!
# Shortest paths

`graph_dijkstra_impl`, `graph_bellman_ford_impl` and `graph_min_path_method`, with the arena that
the queue nodes come from. Arithmetic is exact. The caller passes a place for the result, so the
result is the status and what was stored there; the distances are a function of the index, and the
vector has as many entries as the graph has capacity.

The main loop of Dijkstra's algorithm takes fuel, and `none` is a call that has not returned.

## The contract

`graph.h` says of `min_path` that it returns 1 on success and 0 on failure. On success the vector
has the distance of every vertex at its index, infinity for a vertex out of reach, and infinity at
the indices that are no vertices. Both functions return 0 for a start that is no vertex and when
something they need at the beginning cannot be allocated, and the Bellman–Ford algorithm returns 0
for a negative cycle in reach as well.

## Failures inside the loop

The main loop of Dijkstra's algorithm lowers a label first and queues the vertex afterwards. The
arena may have no node left, and the queue may refuse one; neither is looked at, and the loop goes
on with the label lowered. `DijkstraState.push` models both cases, with the state as the code leaves
it: what is right about the algorithm has to assume that they do not occur.

A turn that takes a node with a distance above the label of its vertex is a turn that does nothing.
Such nodes are those that a later improvement has overtaken.

## Main definitions

* `PqArena.alloc` — a node from the arena; chunks double up to `2 ^ 20` nodes
* `GraphImpl.dijkstra`, `GraphImpl.bellmanFord` — the two algorithms
* `GraphImpl.minPath` — the method that a caller sees
-/

namespace OvaLib

namespace Graph

/-- A `vector` of distances. -/
structure DistVector where
  size : ℕ
  data : ℕ → WithTop ℚ

/-- What a call returns, and what it leaves in `*out_dist`. -/
structure PathResult where
  status : ℤ
  outDist : Option DistVector

namespace PathResult

/-- `return 0`, with `*out_dist` still `NULL`. -/
def failed : PathResult := ⟨0, none⟩

end PathResult

/-- `create_vector`, for a size above zero: the object, its `impl` and the data. -/
def createVector (a : Allocator) : Bool × Allocator :=
  let (out, a) := a.alloc
  if !out then (false, a)
  else
    let (impl, a) := a.alloc
    if !impl then (false, a) else a.alloc

/-- A vector that was created took three allocations. -/
theorem createVector_passed {a a' : Allocator} (h : createVector a = (true, a')) :
    a.Passed 3 a' := by
  rw [createVector] at h
  dsimp only at h
  split at h
  · exact absurd (Prod.mk.inj h).1 (by simp)
  · next hout =>
    split at h
    · exact absurd (Prod.mk.inj h).1 (by simp)
    · next himpl =>
      obtain ⟨hdata, rfl⟩ := Prod.mk.inj h
      rw [Bool.not_eq_true', Bool.not_eq_false] at hout himpl
      exact ((Allocator.passed_alloc hout).trans (Allocator.passed_alloc himpl)).trans
        (Allocator.passed_alloc hdata)

/-- The distances before the first step. -/
def initialDist (start : ℕ) : ℕ → WithTop ℚ := Function.update (fun _ => ⊤) start 0

/-! ## The arena

Nodes are never given back one by one, so what matters of an arena is whether there is one more. -/

/-- `pq_arena`: how much of the head chunk is used, and its capacity. -/
structure PqArena where
  head : Option (ℕ × ℕ)
  nextCapacity : ℕ

namespace PqArena

/-- `pq_arena_init`. -/
def init (initialCapacity : ℕ) : PqArena :=
  ⟨none, if initialCapacity > 16 then initialCapacity else 16⟩

/-- A new chunk. -/
def newChunk (arena : PqArena) (a : Allocator) : Option PqArena × Allocator :=
  let (c, a) := a.alloc
  if !c then (none, a)
  else
    (some ⟨some (0, arena.nextCapacity),
      if arena.nextCapacity < 2 ^ 20 then arena.nextCapacity * 2 else arena.nextCapacity⟩, a)

/-- The arena after one more node was taken from its head chunk. -/
def take (arena : PqArena) : PqArena :=
  { arena with head := arena.head.map fun c => (c.1 + 1, c.2) }

/-- `pq_arena_alloc`: the arena afterwards, or `none` for `NULL`. -/
def alloc (arena : PqArena) (a : Allocator) : Option PqArena × Allocator :=
  match arena.head with
  | some (used, capacity) =>
    if used < capacity then (some arena.take, a)
    else
      match arena.newChunk a with
      | (none, a) => (none, a)
      | (some arena, a) => (some arena.take, a)
  | none =>
    match arena.newChunk a with
    | (none, a) => (none, a)
    | (some arena, a) => (some arena.take, a)

/-- The first node comes from a new chunk. -/
theorem alloc_init_passed {n : ℕ} {a a' : Allocator} {arena : PqArena}
    (h : (init n).alloc a = (some arena, a')) :
    a.Passed 1 a' ∧ (init n).alloc .always = (some arena, .always) := by
  rw [alloc, init, newChunk] at h ⊢
  dsimp only at h
  by_cases hchunk : a.alloc.1 = true
  · rw [hchunk, Bool.not_true, if_neg Bool.false_ne_true] at h
    obtain ⟨harena, rfl⟩ := Prod.mk.inj h
    exact ⟨Allocator.passed_alloc hchunk, congrArg (·, Allocator.always) harena⟩
  · rw [Bool.not_eq_true] at hchunk
    rw [hchunk, Bool.not_false, if_pos rfl] at h
    exact absurd (Prod.mk.inj h).1 (by simp)

/-- With allocations succeeding there is always a node. -/
theorem alloc_always (arena : PqArena) :
    ∃ arena', arena.alloc Allocator.always = (some arena', Allocator.always) := by
  have hnew : ∀ arena : PqArena, ∃ arena',
      arena.newChunk Allocator.always = (some arena', Allocator.always) := by
    intro arena
    rw [newChunk]
    rw [Allocator.alloc_always]
    exact ⟨_, rfl⟩
  obtain ⟨arena', harena'⟩ := hnew arena
  rw [alloc]
  split
  · split
    · exact ⟨_, rfl⟩
    · rw [harena']
      exact ⟨_, rfl⟩
  · rw [harena']
    exact ⟨_, rfl⟩

end PqArena

/-! ## Dijkstra's algorithm

The heap is a maximum heap for its comparator, and the comparator is reversed. -/

/-- `pq_node`. -/
structure PqNode where
  vertex : ℕ
  dist : WithTop ℚ
  deriving DecidableEq

/-- `pq_node_cmp`: the smaller distance is the greater node. -/
def pqNodeCmp (a b : PqNode) : ℤ := if a.dist < b.dist then 1 else if a.dist > b.dist then -1 else 0

/-- The variables of `graph_dijkstra_impl` that the main loop changes. -/
structure DijkstraState where
  /-- The labels. -/
  dist : ℕ → WithTop ℚ
  /-- The queue, which may hold several nodes for a vertex. -/
  pq : BinaryHeap PqNode
  arena : PqArena
  allocator : Allocator

namespace DijkstraState

/-- `dist_impl->data[v] = nd`. -/
def setDist (st : DijkstraState) (v : ℕ) (nd : WithTop ℚ) : DijkstraState :=
  { st with dist := Function.update st.dist v nd }

/-- A node taken from the arena and put into the queue, if there is memory for it. -/
def push (st : DijkstraState) (node : PqNode) : DijkstraState :=
  match st.arena.alloc st.allocator with
  | (none, a) => { st with allocator := a }
  | (some arena, a) =>
    let (_, pq, a) := st.pq.put pqNodeCmp node a
    { st with pq := pq, arena := arena, allocator := a }

/-- One edge out of `v`. -/
def relaxEdge (v : ℕ) (st : DijkstraState) (e : ℕ × WithTop ℚ) : DijkstraState :=
  let nd := st.dist v + e.2
  if nd < st.dist e.1 then (st.setDist e.1 nd).push ⟨e.1, nd⟩ else st

/-- One turn of the main loop, or `none` when the queue is empty. -/
def step (g : GraphImpl) (st : DijkstraState) : Option DijkstraState :=
  match st.pq.pop pqNodeCmp with
  | (none, _) => none
  | (some cur, pq) =>
    let st := { st with pq := pq }
    if cur.dist > st.dist cur.vertex then some st
    else some ((g.outEdges cur.vertex).foldl (relaxEdge cur.vertex) st)

/-- The main loop. -/
def loop (g : GraphImpl) : ℕ → DijkstraState → Option DijkstraState
  | 0, _ => none
  | fuel + 1, st =>
    match st.step g with
    | none => some st
    | some st => loop g fuel st

/-- The state in which the main loop is entered, from a valid start vertex. -/
def init (g : GraphImpl) (start : ℕ) (a : Allocator) : Option DijkstraState :=
  let (dist, a) := createVector a
  if !dist then none
  else
    match BinaryHeap.create (if g.vertexCount > 0 then g.vertexCount else 4) a with
    | (none, _) => none
    | (some pq, a) =>
      match (PqArena.init (if g.vertexCount > 0 then g.vertexCount else 16)).alloc a with
      | (none, _) => none
      | (some arena, a) =>
        let (_, pq, a) := pq.put pqNodeCmp ⟨start, 0⟩ a
        some { dist := initialDist start, pq := pq, arena := arena, allocator := a }

end DijkstraState

namespace GraphImpl

/-- `graph_dijkstra_impl`. -/
def dijkstra (fuel : ℕ) (g : GraphImpl) (startVertex : ℤ) (a : Allocator) : Option PathResult :=
  if !g.isValidVertex startVertex then some .failed
  else
    match DijkstraState.init g startVertex.toNat a with
    | none => some .failed
    | some st => (st.loop g fuel).map fun st => ⟨1, some ⟨g.vertexCapacity, st.dist⟩⟩

/-! ## The Bellman–Ford algorithm

The labels are read and written in place, so a pass may use a label that the same pass has lowered.
-/

/-- One edge out of `v`, and the flag for a change. -/
def bellmanFordRelax (v : ℕ) (st : (ℕ → WithTop ℚ) × Bool) (e : ℕ × WithTop ℚ) :
    (ℕ → WithTop ℚ) × Bool :=
  let nd := st.1 v + e.2
  if nd < st.1 e.1 then (Function.update st.1 e.1 nd, true) else st

/-- The edges out of one vertex. -/
def bellmanFordScan (g : GraphImpl) (st : (ℕ → WithTop ℚ) × Bool) (fromVertex : ℕ) :
    (ℕ → WithTop ℚ) × Bool :=
  if !g.isValidVertex fromVertex ∨ st.1 fromVertex = ⊤ then st
  else (g.outEdges fromVertex).foldl (bellmanFordRelax fromVertex) st

/-- One pass, and whether it changed something. -/
def bellmanFordPass (g : GraphImpl) (dist : ℕ → WithTop ℚ) : (ℕ → WithTop ℚ) × Bool :=
  (List.range g.vertexCapacity).foldl g.bellmanFordScan (dist, false)

/-- The passes; a pass without a change is the last one. -/
def bellmanFordPasses (g : GraphImpl) : ℕ → (ℕ → WithTop ℚ) → (ℕ → WithTop ℚ)
  | 0, dist => dist
  | n + 1, dist =>
    let (dist, updated) := g.bellmanFordPass dist
    if !updated then dist else bellmanFordPasses g n dist

/-- The check after the passes: some edge still improves a distance. -/
def bellmanFordImproves (g : GraphImpl) (dist : ℕ → WithTop ℚ) : Bool :=
  (List.range g.vertexCapacity).any fun fromVertex =>
    g.isValidVertex fromVertex ∧ dist fromVertex ≠ ⊤ ∧
      (g.outEdges fromVertex).any fun e => dist fromVertex + e.2 < dist e.1

/-- `graph_bellman_ford_impl`. -/
def bellmanFord (g : GraphImpl) (startVertex : ℤ) (a : Allocator) : PathResult :=
  if !g.isValidVertex startVertex then .failed
  else if !(createVector a).1 then .failed
  else
    let dist := g.bellmanFordPasses (g.vertexCount - 1) (initialDist startVertex.toNat)
    if g.bellmanFordImproves dist then .failed else ⟨1, some ⟨g.vertexCapacity, dist⟩⟩

/-! ## The method -/

/-- `graph_min_path_method`. -/
def minPath (fuel : ℕ) (g : GraphImpl) (startVertex : ℤ) (a : Allocator) : Option PathResult :=
  match g.minPathStrategy with
  | .dijkstra => g.dijkstra fuel startVertex a
  | .bellmanFord => some (g.bellmanFord startVertex a)

end GraphImpl

/-! ## The labels before the first step -/

open Foundation

theorem initialDist_paths (w : ℕ → ℕ → WithTop ℚ) (s : ℕ) : PathLabels w s (initialDist s) := by
  intro v x hx
  by_cases hv : v = s
  · subst hv
    rw [initialDist, Function.update_self] at hx
    obtain rfl : (0 : ℚ) = x := WithTop.coe_injective hx
    refine ⟨_, .nil ?_⟩
    rw [initialDist, Function.update_self]
    rfl
  · rw [initialDist, Function.update_of_ne hv] at hx
    exact absurd hx WithTop.top_ne_coe

theorem initialDist_labels (w : ℕ → ℕ → WithTop ℚ) (s : ℕ) : Labels w s (initialDist s) where
  source_le := by rw [initialDist, Function.update_self]
  walk := fun v x hx => by
    obtain ⟨l, hpath⟩ := initialDist_paths w s v x hx
    obtain ⟨n, -, hwalk⟩ := hpath.walk
    exact ⟨n, hwalk⟩

end Graph

end OvaLib
