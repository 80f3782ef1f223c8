import Mathlib.Algebra.Order.Ring.Unbundled.Rat
import Mathlib.Order.WithBot
import OvaLib.Lists.ArrayList

/-!
# The graph

`graph.c`, `adjacency_list.c` and `adjacency_matrix.c`. A graph keeps, for every vertex id below
its capacity, whether the vertex is there, the pointer it hands out for it, and either a list of
its edges or a row of a square matrix. An array is a function of the index.

* Weights are `WithTop ℚ`; `⊤` is `GRAPH_NO_EDGE`, which is `INFINITY`.
* The public functions take an `int`, here an integer, and check it; the vertex ids they go on
  with are natural numbers. A vertex pointer is the id it points to.
* The adjacency lists of a graph are `NULL` in the matrix representation and the matrix in the
  other one, so a test for either is a test of the representation.
* What `malloc` leaves in a new matrix is `junk`.
* The doubling loop of `graph_ensure_capacity` takes fuel. `none` is a call that does not return.

## The contract

A new graph has a capacity of 8 and no vertices. `add_vertex` and `add_edge` enter the vertices
they name, growing the arrays first when an id is not below the capacity; `remove_edge` enters
nothing. None of the three returns a status: a call whose allocations fail leaves the graph as far
as it had come, and says nothing. What can be asked of a graph is whether a vertex or an edge is
there, the weight of an edge, and the neighbours of a vertex as a list of pointers.

In an undirected graph an edge is written in both directions, except for a self loop.

## Integers

A vertex id may be any `int`, so the products and the doublings here can leave the `int` range, and
the model lets them. The side of the matrix is squared in `int` arithmetic where a new matrix is
filled, and in `size_t` arithmetic where it is allocated; the index of a cell is `from * capacity +
to` in `int` arithmetic. The matrix is therefore a function of an integer: an index that has wrapped
is read or written where it points, and no bounds are assumed. Which indices are in range is a
question of its own and not part of these definitions.

## What is deliberately absent

Exact weights stand for `double`: nothing is rounded, and there is no `NaN`. A graph is never freed
here, and two graphs share nothing, so pointers other than those to vertices need no addresses. The
algorithms, which read the storage directly, have modules of their own.

## Main definitions

* `GraphImpl.create`, `GraphImpl.ensureCapacity` — a new graph, and growth
* `GraphImpl.addVertex`, `GraphImpl.addEdge`, `GraphImpl.removeEdge` — the calls that change one
* `GraphImpl.hasEdge`, `GraphImpl.getEdgeWeight`, `GraphImpl.getNeighbors` — the calls that ask
* `GraphImpl.build` — the graph that a list of calls builds from a new one
-/

namespace OvaLib

namespace Graph

/-- `graph_type`. -/
inductive GraphType
  | directed
  | undirected
  deriving DecidableEq, Repr

/-- `graph_representation`. -/
inductive GraphRepresentation
  | adjacencyList
  | adjacencyMatrix
  deriving DecidableEq, Repr

/-- `graph_traversal_strategy`. -/
inductive TraversalStrategy
  | bfs
  | dfsIterative
  | dfsRecursive
  deriving DecidableEq, Repr

/-- `graph_min_path_strategy`. -/
inductive MinPathStrategy
  | dijkstra
  | bellmanFord
  deriving DecidableEq, Repr

/-- `graph_edge`. -/
structure GraphEdge where
  toVertex : ℕ
  weight : WithTop ℚ

/-- `graph_impl`. -/
structure GraphImpl where
  type : GraphType
  rep : GraphRepresentation
  traversalStrategy : TraversalStrategy
  minPathStrategy : MinPathStrategy
  /-- How many ids the arrays have room for. The side of the matrix, too. -/
  vertexCapacity : ℕ
  vertexCount : ℕ
  present : ℕ → Bool
  vertexPtrs : ℕ → Option ℕ
  adjLists : ℕ → Option (ArrayList GraphEdge)
  /-- The cells by index. Nothing says that an index is in range. -/
  adjMatrix : ℤ → WithTop ℚ

namespace GraphImpl

/-! ## Storage

Growth allocates all new arrays before it touches the old ones. When one of the allocations fails
the graph keeps its capacity, and the caller finds out by looking at the capacity again. -/

variable (junk : ℤ → WithTop ℚ)

/-- A new matrix of the given side, every cell set to `GRAPH_NO_EDGE` by a loop whose bound and
index are `int`s. -/
def newAdjMatrix (cap : ℕ) : ℤ → WithTop ℚ :=
  fun i => if 0 ≤ i ∧ i < int32 ((cap : ℤ) * cap) then ⊤ else junk i

/-- `graph_init_storage`, for the capacity of 8 it is called with, and `create_graph`. The
`present` and `vertex_ptrs` arrays are both asked for. -/
def create (type : GraphType) (rep : GraphRepresentation) (traversalStrategy : TraversalStrategy)
    (minPathStrategy : MinPathStrategy) (a : Allocator) : Option GraphImpl × Allocator :=
  let (out, a) := a.alloc
  if !out then (none, a)
  else
    let (impl, a) := a.alloc
    if !impl then (none, a)
    else
      let (present, a) := a.alloc
      let (vertexPtrs, a) := a.alloc
      if !present || !vertexPtrs then (none, a)
      else
        let (adj, a) := a.alloc
        if !adj then (none, a)
        else
          (some
            { type := type
              rep := rep
              traversalStrategy := traversalStrategy
              minPathStrategy := minPathStrategy
              vertexCapacity := 8
              vertexCount := 0
              present := fun _ => false
              vertexPtrs := fun _ => none
              adjLists := fun _ => none
              adjMatrix := newAdjMatrix junk 8 }, a)

/-- The doubling loop of `graph_ensure_capacity`. -/
def doubleUntil : ℕ → ℤ → ℤ → Option ℤ
  | 0, _, _ => none
  | fuel + 1, newCap, required =>
    if newCap < required then doubleUntil fuel (int32 (newCap * 2)) required else some newCap

/-- One row copied from the old matrix to the new one: `memcpy` of `oldCap` cells. -/
def copyRow (old : ℤ → WithTop ℚ) (oldCap newCap : ℕ) (new : ℤ → WithTop ℚ) (i : ℕ) :
    ℤ → WithTop ℚ :=
  fun k =>
    let offset := k - int32 ((i : ℤ) * newCap)
    if 0 ≤ offset ∧ offset < oldCap then old (int32 ((i : ℤ) * oldCap) + offset) else new k

/-- The arrays of the new capacity, with the old ones copied into them. Nothing changes when one
of them cannot be had. -/
def reallocate (g : GraphImpl) (newCap : ℕ) (a : Allocator) : GraphImpl × Allocator :=
  let oldCap := g.vertexCapacity
  let (newPresent, a) := a.alloc
  let (newVertexPtrs, a) := a.alloc
  if !newPresent || !newVertexPtrs then (g, a)
  else
    let (newAdj, a) := a.alloc
    if !newAdj then (g, a)
    else
      let g' := { g with
        vertexCapacity := newCap
        present := fun i => if i < oldCap then g.present i else false
        vertexPtrs := fun i => if i < oldCap then g.vertexPtrs i else none }
      match g.rep with
      | .adjacencyList =>
        ({ g' with adjLists := fun i => if i < oldCap then g.adjLists i else none }, a)
      | .adjacencyMatrix =>
        ({ g' with
          adjMatrix := (List.range oldCap).foldl (copyRow g.adjMatrix oldCap newCap)
            (newAdjMatrix junk newCap) }, a)

/-- `graph_ensure_capacity`. An `int` doubled 32 times is zero, and stays zero. -/
def ensureCapacity (g : GraphImpl) (vertexId : ℤ) (a : Allocator) :
    Option (GraphImpl × Allocator) :=
  if vertexId < 0 then some (g, a)
  else
    let required := int32 (vertexId + 1)
    if required ≤ g.vertexCapacity then some (g, a)
    else
      match doubleUntil 64 (if g.vertexCapacity > 0 then g.vertexCapacity else 8) required with
      | none => none
      | some newCap => some (g.reallocate junk newCap.toNat a)

/-! ## Vertices -/

/-- `graph_has_vertex_impl`. -/
def hasVertex (g : GraphImpl) (vertexId : ℤ) : Bool :=
  if vertexId < 0 ∨ vertexId ≥ g.vertexCapacity then false else g.present vertexId.toNat

/-- The part of `graph_add_vertex_impl` that enters a vertex. -/
def enterVertex (g : GraphImpl) (vertexId : ℕ) (a : Allocator) : GraphImpl × Allocator :=
  let (idPtr, a) := a.alloc
  if !idPtr then (g, a)
  else
    let g' := { g with
      vertexPtrs := Function.update g.vertexPtrs vertexId (some vertexId)
      present := Function.update g.present vertexId true
      vertexCount := g.vertexCount + 1 }
    if g.rep = .adjacencyList ∧ (g.adjLists vertexId).isNone then
      let (adj, a) := ArrayList.create 4 a
      ({ g' with adjLists := Function.update g.adjLists vertexId adj }, a)
    else (g', a)

/-- `graph_add_vertex_impl`. -/
def addVertex (g : GraphImpl) (vertexId : ℤ) (a : Allocator) : Option (GraphImpl × Allocator) :=
  if vertexId < 0 then some (g, a)
  else
    match g.ensureCapacity junk vertexId a with
    | none => none
    | some (g, a) =>
      if vertexId ≥ g.vertexCapacity ∨ g.present vertexId.toNat then some (g, a)
      else some (g.enterVertex vertexId.toNat a)

/-! ## Adjacency lists

The list of a vertex is created when the vertex is entered; where that failed, the first edge out of
the vertex tries again. An edge that is there already has its weight overwritten in place. -/

/-- `find_edge`, as the index of the edge. -/
def findEdge (adj : ArrayList GraphEdge) (toVertex : ℕ) : Option ℕ :=
  adj.items.findIdx? fun e => e.toVertex = toVertex

/-- `ensure_adj_list`. -/
def ensureAdjList (g : GraphImpl) (vertex : ℕ) (a : Allocator) :
    Option (ArrayList GraphEdge) × GraphImpl × Allocator :=
  match g.adjLists vertex with
  | some adj => (some adj, g, a)
  | none =>
    let (adj, a) := ArrayList.create 4 a
    (adj, { g with adjLists := Function.update g.adjLists vertex adj }, a)

/-- The edge list of one vertex replaced. -/
def setAdjList (g : GraphImpl) (vertex : ℕ) (adj : ArrayList GraphEdge) : GraphImpl :=
  { g with adjLists := Function.update g.adjLists vertex (some adj) }

/-- The list after an edge was written: over the one there is, or at the end. -/
def writeEdge (adj : ArrayList GraphEdge) (toVertex : ℕ) (weight : WithTop ℚ) (a : Allocator) :
    ArrayList GraphEdge × Allocator :=
  match findEdge adj toVertex with
  | some i => (adj.write i ⟨toVertex, weight⟩, a)
  | none =>
    let (e, a) := a.alloc
    if !e then (adj, a) else (adj.insert ⟨toVertex, weight⟩ adj.size a).2

/-- `add_one_edge`. -/
def addOneEdge (g : GraphImpl) (fromVertex toVertex : ℕ) (weight : WithTop ℚ) (a : Allocator) :
    GraphImpl × Allocator :=
  match g.ensureAdjList fromVertex a with
  | (none, g, a) => (g, a)
  | (some adj, g, a) =>
    let (adj, a) := writeEdge adj toVertex weight a
    (g.setAdjList fromVertex adj, a)

/-- The list after the edge to a vertex was taken out. -/
def eraseEdge (adj : ArrayList GraphEdge) (toVertex : ℕ) : ArrayList GraphEdge :=
  match findEdge adj toVertex with
  | none => adj
  | some i => (adj.remove i).2

/-- `remove_one_edge`. -/
def removeOneEdge (g : GraphImpl) (fromVertex toVertex : ℕ) : GraphImpl :=
  match g.adjLists fromVertex with
  | none => g
  | some adj => g.setAdjList fromVertex (eraseEdge adj toVertex)

/-- `graph_adj_list_add_edge`. -/
def adjListAddEdge (g : GraphImpl) (fromVertex toVertex : ℕ) (weight : WithTop ℚ) (a : Allocator) :
    GraphImpl × Allocator :=
  let (g, a) := g.addOneEdge fromVertex toVertex weight a
  if g.type = .undirected ∧ fromVertex ≠ toVertex then g.addOneEdge toVertex fromVertex weight a
  else (g, a)

/-- `graph_adj_list_remove_edge`. -/
def adjListRemoveEdge (g : GraphImpl) (fromVertex toVertex : ℕ) : GraphImpl :=
  let g := g.removeOneEdge fromVertex toVertex
  if g.type = .undirected ∧ fromVertex ≠ toVertex then g.removeOneEdge toVertex fromVertex else g

/-- `graph_adj_list_has_edge`. -/
def adjListHasEdge (g : GraphImpl) (fromVertex toVertex : ℕ) : Bool :=
  match g.adjLists fromVertex with
  | none => false
  | some adj => (findEdge adj toVertex).isSome

/-- The weight `find_edge` leads to. -/
def edgeWeight (adj : ArrayList GraphEdge) (toVertex : ℕ) : WithTop ℚ :=
  match findEdge adj toVertex with
  | none => ⊤
  | some i => (adj.get i).elim ⊤ GraphEdge.weight

/-- `graph_adj_list_get_edge_weight`. -/
def adjListGetEdgeWeight (g : GraphImpl) (fromVertex toVertex : ℕ) : WithTop ℚ :=
  match g.adjLists fromVertex with
  | none => ⊤
  | some adj => edgeWeight adj toVertex

/-- One vertex pointer appended to the neighbours; nobody looks at the error code. -/
def appendNeighbor (g : GraphImpl) (toVertex : ℕ) (r : ArrayList (Option ℕ) × Allocator) :
    ArrayList (Option ℕ) × Allocator :=
  (r.1.insert (g.vertexPtrs toVertex) r.1.size r.2).2

/-- `graph_adj_list_get_neighbors`. -/
def adjListGetNeighbors (g : GraphImpl) (vertex : ℕ) (a : Allocator) :
    Option (ArrayList (Option ℕ)) × Allocator :=
  match ArrayList.create 4 a with
  | (none, a) => (none, a)
  | (some neighbors, a) =>
    match g.adjLists vertex with
    | none => (some neighbors, a)
    | some adj =>
      let r := adj.items.foldl
        (fun r e =>
          if e.toVertex ≥ g.vertexCapacity ∨ !g.present e.toVertex then r
          else g.appendNeighbor e.toVertex r)
        (neighbors, a)
      (some r.1, r.2)

/-! ## Adjacency matrix

A pair of vertices is an edge when its cell is finite. There is nothing to allocate but the list of
the neighbours. -/

/-- The index `cell` computes. -/
def cell (g : GraphImpl) (fromVertex toVertex : ℕ) : ℤ :=
  int32 (int32 ((fromVertex : ℤ) * g.vertexCapacity) + toVertex)

/-- `*cell(g, from, to) = weight`. -/
def setCell (g : GraphImpl) (fromVertex toVertex : ℕ) (weight : WithTop ℚ) : GraphImpl :=
  { g with adjMatrix := Function.update g.adjMatrix (g.cell fromVertex toVertex) weight }

@[simp] theorem setCell_vertexCapacity (g : GraphImpl) (u v : ℕ) (w : WithTop ℚ) :
    (g.setCell u v w).vertexCapacity = g.vertexCapacity := rfl

@[simp] theorem setCell_adjMatrix (g : GraphImpl) (u v : ℕ) (w : WithTop ℚ) :
    (g.setCell u v w).adjMatrix = Function.update g.adjMatrix (g.cell u v) w := rfl

/-- A weight written into both cells of an undirected edge, into one of a directed edge or a self
loop. -/
def setCells (g : GraphImpl) (fromVertex toVertex : ℕ) (weight : WithTop ℚ) : GraphImpl :=
  let g := g.setCell fromVertex toVertex weight
  if g.type = .undirected ∧ fromVertex ≠ toVertex then g.setCell toVertex fromVertex weight else g

/-- `graph_adj_matrix_add_edge`. -/
def adjMatrixAddEdge (g : GraphImpl) (fromVertex toVertex : ℕ) (weight : WithTop ℚ) : GraphImpl :=
  g.setCells fromVertex toVertex weight

/-- `graph_adj_matrix_remove_edge`. -/
def adjMatrixRemoveEdge (g : GraphImpl) (fromVertex toVertex : ℕ) : GraphImpl :=
  g.setCells fromVertex toVertex ⊤

/-- `graph_adj_matrix_has_edge`. -/
def adjMatrixHasEdge (g : GraphImpl) (fromVertex toVertex : ℕ) : Bool :=
  g.adjMatrix (g.cell fromVertex toVertex) ≠ ⊤

/-- `graph_adj_matrix_get_edge_weight`. -/
def adjMatrixGetEdgeWeight (g : GraphImpl) (fromVertex toVertex : ℕ) : WithTop ℚ :=
  g.adjMatrix (g.cell fromVertex toVertex)

/-- `graph_adj_matrix_get_neighbors`. -/
def adjMatrixGetNeighbors (g : GraphImpl) (vertex : ℕ) (a : Allocator) :
    Option (ArrayList (Option ℕ)) × Allocator :=
  match ArrayList.create 4 a with
  | (none, a) => (none, a)
  | (some neighbors, a) =>
    let r := (List.range g.vertexCapacity).foldl
      (fun r toVertex =>
        if !g.present toVertex ∨ g.adjMatrix (g.cell vertex toVertex) = ⊤ then r
        else g.appendNeighbor toVertex r)
      (neighbors, a)
    (some r.1, r.2)

/-! ## Edges -/

/-- `graph_add_edge_impl`. -/
def addEdge (g : GraphImpl) (fromVertex toVertex : ℤ) (weight : WithTop ℚ) (a : Allocator) :
    Option (GraphImpl × Allocator) :=
  if fromVertex < 0 ∨ toVertex < 0 then some (g, a)
  else
    match g.addVertex junk fromVertex a with
    | none => none
    | some (g, a) =>
      match g.addVertex junk toVertex a with
      | none => none
      | some (g, a) =>
        if !g.hasVertex fromVertex || !g.hasVertex toVertex then some (g, a)
        else
          match g.rep with
          | .adjacencyList => some (g.adjListAddEdge fromVertex.toNat toVertex.toNat weight a)
          | .adjacencyMatrix => some (g.adjMatrixAddEdge fromVertex.toNat toVertex.toNat weight, a)

/-- `graph_remove_edge_impl`. -/
def removeEdge (g : GraphImpl) (fromVertex toVertex : ℤ) : GraphImpl :=
  if !g.hasVertex fromVertex || !g.hasVertex toVertex then g
  else
    match g.rep with
    | .adjacencyList => g.adjListRemoveEdge fromVertex.toNat toVertex.toNat
    | .adjacencyMatrix => g.adjMatrixRemoveEdge fromVertex.toNat toVertex.toNat

/-- `graph_has_edge_impl`. -/
def hasEdge (g : GraphImpl) (fromVertex toVertex : ℤ) : Bool :=
  if !g.hasVertex fromVertex || !g.hasVertex toVertex then false
  else
    match g.rep with
    | .adjacencyList => g.adjListHasEdge fromVertex.toNat toVertex.toNat
    | .adjacencyMatrix => g.adjMatrixHasEdge fromVertex.toNat toVertex.toNat

/-- `graph_get_edge_weight_impl`. -/
def getEdgeWeight (g : GraphImpl) (fromVertex toVertex : ℤ) : WithTop ℚ :=
  if !g.hasVertex fromVertex || !g.hasVertex toVertex then ⊤
  else
    match g.rep with
    | .adjacencyList => g.adjListGetEdgeWeight fromVertex.toNat toVertex.toNat
    | .adjacencyMatrix => g.adjMatrixGetEdgeWeight fromVertex.toNat toVertex.toNat

/-- `graph_get_neighbors_impl`. -/
def getNeighbors (g : GraphImpl) (vertex : ℤ) (a : Allocator) :
    Option (ArrayList (Option ℕ)) × Allocator :=
  if !g.hasVertex vertex then ArrayList.create 4 a
  else
    match g.rep with
    | .adjacencyList => g.adjListGetNeighbors vertex.toNat a
    | .adjacencyMatrix => g.adjMatrixGetNeighbors vertex.toNat a

end GraphImpl

/-! ## Runs -/

/-- The calls that change a graph. -/
inductive Call
  | addVertex (vertexId : ℤ)
  | addEdge (fromVertex toVertex : ℤ) (weight : WithTop ℚ)
  | removeEdge (fromVertex toVertex : ℤ)

/-- One call. -/
def Call.run (junk : ℤ → WithTop ℚ) (g : GraphImpl) (a : Allocator) :
    Call → Option (GraphImpl × Allocator)
  | .addVertex vertexId => g.addVertex junk vertexId a
  | .addEdge fromVertex toVertex weight => g.addEdge junk fromVertex toVertex weight a
  | .removeEdge fromVertex toVertex => some (g.removeEdge fromVertex toVertex, a)

/-- One call after the other. -/
def runCalls (junk : ℤ → WithTop ℚ) :
    GraphImpl → Allocator → List Call → Option (GraphImpl × Allocator)
  | g, a, [] => some (g, a)
  | g, a, c :: cs =>
    match c.run junk g a with
    | none => none
    | some (g, a) => runCalls junk g a cs

/-- The graph that a list of calls builds from a new one, if it does return and there was memory
for the new one. -/
def build (junk : ℤ → WithTop ℚ) (type : GraphType) (rep : GraphRepresentation)
    (traversalStrategy : TraversalStrategy) (minPathStrategy : MinPathStrategy) (a : Allocator)
    (calls : List Call) : Option (GraphImpl × Allocator) :=
  match GraphImpl.create junk type rep traversalStrategy minPathStrategy a with
  | (none, _) => none
  | (some g, a) => runCalls junk g a calls

end Graph

end OvaLib
